import PyRedis.Theory.Invariants

/-!
# Bounded sweeps cover every deadline

The cursor of the sweep lives on between calls.  It may hold keys that were
deleted, written again, persisted or given other deadlines since it was filled,
and a call may stop anywhere in a cycle.

What a sweep still owes is the number of pops after which no key is left whose
deadline had passed at a given time.  Every pop pays one, and a call that stops
early owes nothing any more.
-/

namespace PyRedis
namespace KeyValueStore

open Foundation

variable {s t : KeyValueStore} {v now : Int} {key : Bytes}
variable {cursor : List Bytes} {n limit m : Nat}

section Debt

/-- Every key whose deadline had passed at `v` is still to be popped. -/
def Covers (v : Int) (s : KeyValueStore) (cursor : List Bytes) : Prop :=
  ∀ k, s.isExpiredAt v k = true → k ∈ cursor

/-- At most `n` pops are owed until no key is left whose deadline had passed at
`v`: what the cursor holds and one filling, what the cursor holds when it was
filled late enough, or nothing. -/
inductive Owes (v : Int) (s : KeyValueStore) (n : Nat) : Prop where
  | filling (h : s.sweepCursor.length + s.expires.size ≤ n)
  | cycle (hcovers : Covers v s s.sweepCursor) (h : s.sweepCursor.length ≤ n)
  | settled (h : Covers v s [])

theorem Owes.covers_nil (h : Owes v s 0) : Covers v s [] := by
  cases h with
  | filling h =>
      intro k hk
      obtain ⟨d, hd, -⟩ := isExpiredAt_iff.mp hk
      have hmem := OrderedDict.mem_of_lookup hd
      rw [OrderedDict.mem_iff_mem_keys] at hmem
      have hpos := List.length_pos_of_mem hmem
      rw [OrderedDict.length_keys] at hpos
      omega
  | cycle hcovers h =>
      have hnil : s.sweepCursor = [] :=
        List.eq_nil_of_length_eq_zero (Nat.le_zero.mp h)
      rwa [hnil] at hcovers
  | settled h =>
      exact h

theorem tidying_deadlines :
    Tidying fun s t => t.expires.size ≤ s.expires.size where
  refl _ := le_rfl
  trans h h' := le_trans h' h
  reading _ := le_rfl
  drop s key := by
    unfold KeyValueStore.drop
    cases s.data.lookup key with
    | none =>
        exact le_rfl
    | some value =>
        by_cases hk : key ∈ s.expires
        · exact (OrderedDict.size_erase_lt hk).le
        · simp only [without, OrderedDict.erase_eq_self hk, le_refl]

/-- A key that had expired at `v` and outlives a pop is not the one popped. -/
theorem isExpiredAt_popped (h : Exact s) (hle : v ≤ now) {k : Bytes}
    (hk : (s.popped now key cursor).isExpiredAt v k = true) :
    s.isExpiredAt v k = true ∧ k ≠ key := by
  have hk' : (s.settledAt key now).isExpiredAt v k = true := hk
  rw [settledAt_eq] at hk'
  split_ifs at hk' with hexp
  · obtain ⟨hne, hold⟩ := isExpiredAt_of_drop h hk'
    exact ⟨hold, hne⟩
  · refine ⟨hk', ?_⟩
    rintro rfl
    obtain ⟨d, hd, hdv⟩ := isExpiredAt_iff.mp hk'
    exact hexp (isExpiredAt_iff.mpr ⟨d, hd, le_trans hdv hle⟩)

theorem Covers.popped (h : Exact s) (hle : v ≤ now)
    (hcovers : Covers v s (key :: cursor)) :
    Covers v (s.popped now key cursor) cursor := by
  intro k hk
  obtain ⟨hold, hne⟩ := isExpiredAt_popped h hle hk
  exact (List.mem_cons.mp (hcovers k hold)).resolve_left hne

/-- A fresh filling holds every key with a deadline. -/
theorem covers_filled (hempty : s.sweepCursor = []) :
    Covers v s s.filledCursor := by
  intro k hk
  obtain ⟨d, hd, -⟩ := isExpiredAt_iff.mp hk
  rw [filledCursor, if_pos hempty, List.mem_reverse]
  exact OrderedDict.mem_of_lookup hd

/-- **A pop pays one.** -/
theorem Owes.pop (h : Exact s) (hle : v ≤ now)
    (hcursor : s.filledCursor = key :: cursor) (howes : Owes v s n) :
    Owes v (s.popped now key cursor) (n - 1) := by
  have hsize : (s.popped now key cursor).expires.size ≤ s.expires.size :=
    tidying_deadlines.settledAt s key now
  have hmoved : (s.popped now key cursor).sweepCursor = cursor := rfl
  cases howes with
  | filling hn =>
      by_cases hempty : s.sweepCursor = []
      · have hcovers := covers_filled (v := v) hempty
        rw [hcursor] at hcovers
        refine .cycle (hcovers.popped h hle) ?_
        have hlen := congrArg List.length hcursor
        rw [filledCursor, if_pos hempty, List.length_reverse,
          OrderedDict.length_keys, List.length_cons] at hlen
        rw [hmoved]
        omega
      · rw [filledCursor, if_neg hempty] at hcursor
        have hlen := congrArg List.length hcursor
        rw [List.length_cons] at hlen
        refine .filling ?_
        rw [hmoved]
        omega
  | cycle hcovers hn =>
      by_cases hempty : s.sweepCursor = []
      · rw [hempty] at hcovers
        refine .settled fun k hk => ?_
        exact hcovers k (isExpiredAt_popped h hle hk).1
      · rw [filledCursor, if_neg hempty] at hcursor
        rw [hcursor] at hcovers hn
        refine .cycle (hcovers.popped h hle) ?_
        rw [List.length_cons] at hn
        rw [hmoved]
        omega
  | settled hcovers =>
      exact .settled fun k hk => hcovers k (isExpiredAt_popped h hle hk).1

/-- **A loop pays one for each pass** it may make, and if it stops early then
nothing is owed. -/
theorem owes_sweepWork (passes : Nat) (refilled : Bool) (h : Exact s)
    (hle : v ≤ now) (howes : Owes v s n)
    (hfilled : refilled = true → Covers v s s.sweepCursor) :
    Owes v (sweepWork now passes refilled s).store (n - passes) := by
  refine sweepWork_cases (motive := fun passes refilled s work =>
    ∀ n, Exact s → Owes v s n →
      (refilled = true → Covers v s s.sweepCursor) →
      Owes v work.store (n - passes)) ?_ ?_ ?_ passes refilled s n h howes
      hfilled
  · intro _ s n _ howes _
    exact howes
  · intro passes refilled s hempty hstop n _ _ hfilled
    refine .settled ?_
    rcases hstop with hrefilled | hnone
    · have hcovers := hfilled hrefilled
      rwa [hempty] at hcovers
    · intro k hk
      have hk' : s.isExpiredAt v k = true := hk
      obtain ⟨d, hd, -⟩ := isExpiredAt_iff.mp hk'
      have hmem := OrderedDict.mem_of_lookup hd
      rwa [OrderedDict.mem_iff_mem_keys, hnone] at hmem
  · intro passes refilled s key cursor work hcursor hfresh ih n h howes hfilled
    have hnext := ih (n - 1) (h.popped now key cursor)
      (howes.pop h hle hcursor) ?_
    · rwa [Nat.sub_sub, Nat.add_comm 1 passes] at hnext
    · -- The cursor popped from covers everything, old or freshly filled.
      intro hlate
      refine Covers.popped h hle ?_
      rw [← hcursor]
      by_cases hempty : s.sweepCursor = []
      · exact covers_filled hempty
      · have hrefilled : refilled = true := by
          simpa [hempty] using hlate
        rw [filledCursor, if_neg hempty]
        exact hfilled hrefilled

end Debt

section Calls

/-- The work of one call of `sweep_expired`. -/
def sweepCall (limit : Nat) (s : KeyValueStore) : SweepWork :=
  sweepWork s.clock.now limit false s.afterReading

theorem sweepExpired_work (h : Exact s) (limit : Nat) :
    (sweepExpired limit).run s =
      (.ok (sweepCall limit s).removed.length, (sweepCall limit s).store) := by
  simp only [sweepExpired, Fallible.run_bind, readClock_run,
    sweepLoop_run _ _ _ _ h.afterReading, Nat.zero_add]
  rfl

/-- What holds of one call: it pops no more keys than it may and fills the
cursor at most once, it returns the number of keys it removes, these had
expired at its reading, and nothing else about the keys changes. -/
structure WithinBounds (limit : Nat) (s : KeyValueStore)
    (work : SweepWork) : Prop where
  run : (sweepExpired limit).run s = (.ok work.removed.length, work.store)
  pops : work.pops ≤ limit
  refills : work.refills ≤ 1
  distinct : work.removed.Nodup
  due : ∀ k ∈ work.removed,
    ∃ d, s.expires.lookup k = some d ∧ d ≤ s.clock.now
  mem : ∀ k, k ∈ work.store.data ↔ k ∉ work.removed ∧ k ∈ s.data
  kept : ∀ k ∈ work.store.data,
    work.store.data.lookup k = s.data.lookup k ∧
      work.store.expires.lookup k = s.expires.lookup k

theorem sweepWork_bounds (now : Int) (passes : Nat) (refilled : Bool)
    (s : KeyValueStore) :
    (sweepWork now passes refilled s).pops ≤ passes ∧
      (sweepWork now passes refilled s).refills ≤
        (if refilled = true then 0 else 1) := by
  refine sweepWork_cases (motive := fun passes refilled _ work =>
    work.pops ≤ passes ∧ work.refills ≤ if refilled = true then 0 else 1)
    ?_ ?_ ?_ passes refilled s
  · intro _ _
    exact ⟨le_rfl, Nat.zero_le _⟩
  · intro _ _ _ _ _
    exact ⟨Nat.zero_le _, Nat.zero_le _⟩
  · intro passes refilled s key cursor work _ hfresh ih
    refine ⟨Nat.succ_le_succ ih.1, ?_⟩
    have hrefills := ih.2
    simp only [SweepWork.afterPop]
    by_cases hempty : s.sweepCursor = []
    · simp only [hfresh hempty, hempty, List.isEmpty_nil, Bool.or_true,
        Bool.false_eq_true, if_true, if_false] at hrefills ⊢
      omega
    · simpa [hempty] using hrefills

/-- **One call** keeps its bounds. -/
theorem withinBounds_sweepCall (h : Exact s) (limit : Nat) :
    WithinBounds limit s (sweepCall limit s) := by
  obtain ⟨hpops, hrefills⟩ :=
    sweepWork_bounds s.clock.now limit false s.afterReading
  obtain ⟨hdistinct, hexpired, cursor, hstore⟩ :=
    sweepWork_removed s.clock.now limit false h.afterReading
  have hmem : ∀ k, k ∈ (sweepCall limit s).store.data ↔
      k ∉ (sweepCall limit s).removed ∧ k ∈ s.data := by
    intro k
    unfold sweepCall
    rw [hstore]
    exact mem_data_dropAll
  refine ⟨sweepExpired_work h limit, hpops, hrefills, hdistinct, ?_, hmem, ?_⟩
  · intro k hk
    exact isExpiredAt_iff.mp (hexpired k hk)
  · intro k hk
    have hstays := ((hmem k).mp hk).1
    unfold sweepCall at hstays ⊢
    rw [hstore]
    constructor
    · exact (data_lookup_dropAll s.afterReading _ k).trans (if_neg hstays)
    · exact expires_lookup_dropAll_of_not_mem hstays

/-- Every key is removed and counted, or it is still there. -/
theorem WithinBounds.count {work : SweepWork} (h : WithinBounds limit s work)
    (hs : Exact s) :
    work.removed.length + work.store.data.size = s.data.size := by
  have hnodup : (work.removed ++ work.store.data.keys).Nodup := by
    refine List.nodup_append.mpr
      ⟨h.distinct, work.store.data.keys_nodup, ?_⟩
    rintro k hk _ hk' rfl
    exact ((h.mem k).mp hk').1 hk
  have hperm : (work.removed ++ work.store.data.keys).Perm s.data.keys := by
    refine (List.perm_ext_iff_of_nodup hnodup s.data.keys_nodup).mpr ?_
    intro k
    rw [List.mem_append, ← OrderedDict.mem_iff_mem_keys,
      ← OrderedDict.mem_iff_mem_keys, h.mem k]
    constructor
    · rintro (hk | hk)
      · obtain ⟨d, hd, -⟩ := h.due k hk
        exact hs.mem_of_deadline hd
      · exact hk.2
    · intro hk
      by_cases hremoved : k ∈ work.removed
      · exact Or.inl hremoved
      · exact Or.inr ⟨hremoved, hk⟩
  have hlen := hperm.length_eq
  rwa [List.length_append, OrderedDict.length_keys,
    OrderedDict.length_keys] at hlen

end Calls

section Rounds

/-- Consecutive calls of `sweep_expired`, with what they return. -/
def sweepTimes (limit : Nat) : Nat → StoreM (List Nat)
  | 0 => pure []
  | m + 1 => do
      let removed ← sweepExpired limit
      let counts ← sweepTimes limit m
      pure (removed :: counts)

/-- The store after some calls. -/
def afterSweeps (limit : Nat) : Nat → KeyValueStore → KeyValueStore
  | 0, s => s
  | m + 1, s => afterSweeps limit m (sweepCall limit s).store

theorem exact_sweepCall (h : Exact s) (limit : Nat) :
    Exact (sweepCall limit s).store := by
  obtain ⟨-, -, cursor, hstore⟩ :=
    sweepWork_removed s.clock.now limit false h.afterReading
  unfold sweepCall
  rw [hstore]
  exact (h.afterReading.dropAll _).moveSweep cursor

theorem clock_sweepCall (h : Exact s) (limit : Nat) :
    (sweepCall limit s).store.clock = s.clock.advance := by
  obtain ⟨-, -, cursor, hstore⟩ :=
    sweepWork_removed s.clock.now limit false h.afterReading
  unfold sweepCall
  rw [hstore]
  exact (sameSettings_dropAll s.afterReading _).clock

/-- **A call pays its limit.** -/
theorem owes_sweepCall (h : Exact s) (hle : v ≤ s.clock.now)
    (howes : Owes v s n) : Owes v (sweepCall limit s).store (n - limit) := by
  refine owes_sweepWork limit false h.afterReading hle ?_ (by simp)
  cases howes with
  | filling h =>
      exact .filling h
  | cycle hcovers h =>
      exact .cycle hcovers h
  | settled h =>
      exact .settled h

/-- What some calls at times not before `v` leave. -/
structure Swept (limit m : Nat) (v : Int) (s : KeyValueStore)
    (counts : List Nat) (t : KeyValueStore) : Prop where
  run : (sweepTimes limit m).run s = (.ok counts, t)
  debt : ∀ n, Owes v s n → Owes v t (n - m * limit)
  count : counts.sum + t.data.size = s.data.size
  kept : ∀ k ∈ t.data, k ∈ s.data ∧ t.data.lookup k = s.data.lookup k ∧
    t.expires.lookup k = s.expires.lookup k
  bounds : ∀ i < m, WithinBounds limit (afterSweeps limit i s)
    (sweepCall limit (afterSweeps limit i s))

theorem swept_times (m : Nat) (h : Exact s)
    (hclock : ∀ i < m, v ≤ s.clock.readings (s.clock.taken + i)) :
    ∃ counts t, Swept limit m v s counts t := by
  induction m generalizing s with
  | zero =>
      refine ⟨[], s, rfl, ?_, Nat.zero_add _, fun k hk => ⟨hk, rfl, rfl⟩, ?_⟩
      · intro n howes
        rwa [Nat.zero_mul, Nat.sub_zero]
      · exact fun i hi => absurd hi (Nat.not_lt_zero i)
  | succ m ih =>
      have hcall := withinBounds_sweepCall h limit
      have hnow : v ≤ s.clock.now := hclock 0 (Nat.succ_pos m)
      have hlater : ∀ i < m, v ≤ (sweepCall limit s).store.clock.readings
          ((sweepCall limit s).store.clock.taken + i) := by
        intro i hi
        have hreading := hclock (i + 1) (Nat.succ_lt_succ hi)
        rw [clock_sweepCall h]
        rwa [Nat.add_comm i 1, ← Nat.add_assoc] at hreading
      obtain ⟨counts, t, hswept⟩ := ih (exact_sweepCall h limit) hlater
      refine ⟨(sweepCall limit s).removed.length :: counts, t, ?_, ?_, ?_, ?_,
        ?_⟩
      · simp only [sweepTimes, Fallible.run_bind, hcall.run, hswept.run,
          Fallible.run_pure]
      · intro n howes
        have hpaid : Owes v (sweepCall limit s).store (n - limit) :=
          owes_sweepCall h hnow howes
        have hdebt := hswept.debt _ hpaid
        rwa [Nat.sub_sub, Nat.add_comm, ← Nat.succ_mul] at hdebt
      · have hcount := hcall.count h
        rw [List.sum_cons, Nat.add_assoc, hswept.count]
        exact hcount
      · intro k hk
        obtain ⟨hmem, hvalue, hdeadline⟩ := hswept.kept k hk
        obtain ⟨hvalue', hdeadline'⟩ := hcall.kept k hmem
        exact ⟨((hcall.mem k).mp hmem).2, hvalue.trans hvalue',
          hdeadline.trans hdeadline'⟩
      · intro i hi
        cases i with
        | zero =>
            exact hcall
        | succ i =>
            exact hswept.bounds i (Nat.lt_of_succ_lt_succ hi)

/-- The keys that are gone make up the difference in size. -/
theorem length_missing (hsub : ∀ k ∈ t.data, k ∈ s.data) :
    (s.data.keys.filter (fun k => k ∉ t.data)).length + t.data.size =
      s.data.size := by
  have hperm : (s.data.keys.filter (fun k => k ∈ t.data)).Perm
      t.data.keys := by
    refine (List.perm_ext_iff_of_nodup (s.data.keys_nodup.filter _)
      t.data.keys_nodup).mpr fun k => ?_
    rw [List.mem_filter, ← OrderedDict.mem_iff_mem_keys,
      ← OrderedDict.mem_iff_mem_keys, decide_eq_true_iff]
    exact ⟨fun hk => hk.2, fun hk => ⟨hsub k hk, hk⟩⟩
  have hlen := hperm.length_eq
  have hsplit := List.length_eq_length_filter_add (l := s.data.keys)
    (fun k => decide (k ∈ t.data))
  rw [OrderedDict.length_keys] at hlen hsplit
  rw [hlen] at hsplit
  simp only [decide_not]
  omega

/-- **Bounded sweeps cover every deadline.** -/
theorem sweeps_cover_every_deadline {py : Interpreter} {maxmemory : Int}
    {policy : MaxmemoryPolicy} {recovers : Bool}
    (hs : Reachable py maxmemory policy recovers s) (limit m : Nat)
    (hm : s.sweepCursor.length + s.expires.size ≤ m * limit)
    (hclock : ∀ i j, i ≤ j → j < m → s.clock.readings (s.clock.taken + i) ≤
      s.clock.readings (s.clock.taken + j)) :
    ∃ counts t, (sweepTimes limit m).run s = (.ok counts, t) ∧
      (∀ k d, t.expires.lookup k = some d → s.clock.now < d) ∧
      counts.sum = (s.data.keys.filter (fun k => k ∉ t.data)).length ∧
      (∀ k ∈ t.data, k ∈ s.data ∧ t.data.lookup k = s.data.lookup k ∧
        t.expires.lookup k = s.expires.lookup k) ∧
      ∀ i < m, WithinBounds limit (afterSweeps limit i s)
        (sweepCall limit (afterSweeps limit i s)) := by
  have hexact := hs.exact
  have hsweeps : ∃ counts t, Swept limit m s.clock.now s counts t :=
    swept_times m hexact fun i hi => hclock 0 i (Nat.zero_le i) hi
  obtain ⟨counts, t, hswept⟩ := hsweeps
  refine ⟨counts, t, hswept.run, ?_, ?_, hswept.kept, hswept.bounds⟩
  · intro k d hd
    have hpaid := hswept.debt _ (.filling hm)
    rw [Nat.sub_self] at hpaid
    by_contra hdue
    have hexp : t.isExpiredAt s.clock.now k = true :=
      isExpiredAt_iff.mpr ⟨d, hd, not_lt.mp hdue⟩
    exact List.not_mem_nil (hpaid.covers_nil k hexp)
  · have hgone := length_missing fun k hk => (hswept.kept k hk).1
    have hcount := hswept.count
    omega

/-- Two keys that have expired at 200, and nothing on the cursor. -/
def twoDue : KeyValueStore :=
  afterOperations .default (init ⟨fun n => 100 * n, 0⟩ 0 .noeviction)
    [.set (ascii "a") (ascii "1") (some 50),
      .set (ascii "b") (ascii "2") (some 50)]

/-- Two calls that examine one key each leave neither. -/
theorem two_sweeps_cover_two_keys :
    ∃ counts t, (sweepTimes 1 2).run twoDue = (.ok counts, t) ∧
      (∀ k d, t.expires.lookup k = some d → 200 < d) ∧
      counts.sum =
        (twoDue.data.keys.filter (fun k => k ∉ t.data)).length := by
  have hclock : twoDue.clock = ⟨fun n => 100 * n, 2⟩ := rfl
  have hreachable : Reachable .default 0 .noeviction false twoDue :=
    (Reachable.empty _).afterOperations _ (by decide)
  obtain ⟨counts, t, hrun, hleft, hcount, -, -⟩ :=
    sweeps_cover_every_deadline hreachable 1 2 (by decide +kernel) (by
      intro i j hij _
      rw [hclock]
      simp only
      omega)
  refine ⟨counts, t, hrun, ?_, hcount⟩
  intro k d hd
  have hlater := hleft k d hd
  rwa [hclock] at hlater

end Rounds

end KeyValueStore
end PyRedis
