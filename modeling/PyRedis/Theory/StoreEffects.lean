import PyRedis.Theory.StoreInvariant

/-!
# What the shared helpers of the store do

Under `Exact` no helper can fail where its caller does not expect it to, so
each has a closed form: the state it leaves is built from readings of the
clock, removals of keys and moves of a cursor.  The operations are proved from
these equations and never look into a helper again.
-/

namespace PyRedis
namespace KeyValueStore

open Foundation

variable {s : KeyValueStore}

section Removal

theorem remove_run {key : Bytes} (hk : key ∈ s.data) :
    (remove key).run s = (.ok (), s.drop key) := by
  obtain ⟨value, hv⟩ := OrderedDict.exists_lookup_of_mem hk
  rw [drop_of_lookup hv]
  simp [Fallible.run, remove, hv]

theorem readClock_run (s : KeyValueStore) :
    readClock.run s = (.ok s.clock.now, s.afterReading) := by
  rfl

/-- A store after `_drop_if_expired` at a reading already made. -/
def settledAt (s : KeyValueStore) (key : Bytes) (now : Int) : KeyValueStore :=
  match s.expires.lookup key with
  | none => s
  | some d => if d ≤ now then s.drop key else s

/-- A store after `_drop_if_expired` with its own reading, which is made only
for a key that has a deadline. -/
def settled (s : KeyValueStore) (key : Bytes) : KeyValueStore :=
  match s.expires.lookup key with
  | none => s
  | some _ => s.afterReading.settledAt key s.clock.now

theorem dropIfExpired_run_at (h : Exact s) (key : Bytes) (now : Int) :
    (dropIfExpired key (some now)).run s = (.ok (), s.settledAt key now) := by
  unfold dropIfExpired settledAt
  cases hd : s.expires.lookup key with
  | none =>
      simp [hd]
  | some d =>
      have hk := h.mem_of_deadline hd
      by_cases hle : d ≤ now
      · simp [hd, hle, remove_run hk]
      · simp [hd, hle]

theorem dropIfExpired_run (h : Exact s) (key : Bytes) :
    (dropIfExpired key none).run s = (.ok (), s.settled key) := by
  unfold dropIfExpired settled settledAt
  cases hd : s.expires.lookup key with
  | none =>
      simp [hd]
  | some d =>
      have hd' : s.afterReading.expires.lookup key = some d := hd
      have hk : key ∈ s.afterReading.data := h.mem_of_deadline hd
      by_cases hle : d ≤ s.clock.now
      · simp [hd, hd', hle, readClock_run, remove_run hk]
      · simp [hd, hd', hle, readClock_run]

theorem Exact.settledAt (h : Exact s) (key : Bytes) (now : Int) :
    Exact (s.settledAt key now) := by
  unfold KeyValueStore.settledAt
  split
  · exact h
  · split_ifs
    · exact h.drop key
    · exact h

theorem Exact.settled (h : Exact s) (key : Bytes) :
    Exact (s.settled key) := by
  unfold KeyValueStore.settled
  split
  · exact h
  · exact h.afterReading.settledAt key _

end Removal

section Reclaim

/-- The key has a deadline that has passed at `now`. -/
def isExpiredAt (s : KeyValueStore) (now : Int) (key : Bytes) : Bool :=
  match s.expires.lookup key with
  | none => false
  | some d => decide (d ≤ now)

theorem isExpiredAt_iff {now : Int} {key : Bytes} :
    s.isExpiredAt now key = true ↔
      ∃ d, s.expires.lookup key = some d ∧ d ≤ now := by
  unfold isExpiredAt
  cases s.expires.lookup key with
  | none =>
      simp
  | some d =>
      simp

/-- The keys a reclaim at `now` removes, in the order it does. -/
def expiredKeys (s : KeyValueStore) (now : Int) : List Bytes :=
  s.expires.keys.filter (s.isExpiredAt now)

theorem mem_expiredKeys {now : Int} {key : Bytes} :
    key ∈ s.expiredKeys now ↔ s.isExpiredAt now key = true := by
  unfold expiredKeys
  rw [List.mem_filter]
  constructor
  · exact fun h => h.2
  · intro h
    obtain ⟨d, hd, -⟩ := isExpiredAt_iff.mp h
    exact ⟨OrderedDict.mem_of_lookup hd, h⟩

/-- A store after a reclaim. -/
def reclaimed (s : KeyValueStore) : KeyValueStore :=
  s.afterReading.dropAll (s.expiredKeys s.clock.now)

/-- The loop of a reclaim removes the expired keys of its list. -/
theorem foldlM_dropStep_run (now : Int) :
    ∀ (keys : List Bytes) (removed : Nat) (s : KeyValueStore),
      Exact s → keys.Nodup → (∀ k ∈ keys, k ∈ s.expires) →
      (keys.foldlM (dropStep now) removed).run s =
        (.ok (removed + (keys.filter (s.isExpiredAt now)).length),
          s.dropAll (keys.filter (s.isExpiredAt now)))
  | [], removed, s, _, _, _ => rfl
  | key :: keys, removed, s, h, hnodup, hmem => by
      obtain ⟨d, hd⟩ := OrderedDict.exists_lookup_of_mem (hmem key (by simp))
      have hfresh : key ∉ keys := (List.nodup_cons.mp hnodup).1
      have htail : keys.Nodup := (List.nodup_cons.mp hnodup).2
      have hrest : ∀ k ∈ keys, k ∈ s.expires :=
        fun k hk => hmem k (List.mem_cons_of_mem _ hk)
      rw [List.foldlM_cons, Fallible.run_bind]
      by_cases hle : d ≤ now
      · have hexp : s.isExpiredAt now key = true :=
          isExpiredAt_iff.mpr ⟨d, hd, hle⟩
        have hstep : (dropStep now removed key).run s =
            (.ok (removed + 1), s.drop key) := by
          simp [dropStep, hd, hle, remove_run (h.mem_of_deadline hd)]
        -- The other keys keep their deadlines when this one is removed.
        have hsame : ∀ k ∈ keys,
            (s.drop key).expires.lookup k = s.expires.lookup k := by
          intro k hk
          exact expires_lookup_drop_of_ne (fun he => hfresh (he ▸ hk))
        have hfilter : keys.filter ((s.drop key).isExpiredAt now) =
            keys.filter (s.isExpiredAt now) := by
          apply List.filter_congr
          intro k hk
          simp [isExpiredAt, hsame k hk]
        have hrest' : ∀ k ∈ keys, k ∈ (s.drop key).expires := by
          intro k hk
          rw [← OrderedDict.lookup_isSome_iff, hsame k hk,
            OrderedDict.lookup_isSome_iff]
          exact hrest k hk
        simp only [hstep]
        rw [foldlM_dropStep_run now keys (removed + 1) (s.drop key)
          (h.drop key) htail hrest', hfilter,
          List.filter_cons_of_pos hexp]
        simp only [List.length_cons, dropAll_cons]
        congr 2
        omega
      · have hexp : ¬ s.isExpiredAt now key = true := by
          rw [isExpiredAt_iff]
          rintro ⟨d', hd', hle'⟩
          rw [hd] at hd'
          cases hd'
          exact hle hle'
        have hstep : (dropStep now removed key).run s = (.ok removed, s) := by
          simp [dropStep, hd, hle]
        simp only [hstep]
        rw [foldlM_dropStep_run now keys removed s h htail hrest,
          List.filter_cons_of_neg hexp]

/-- A reclaim removes exactly the expired keys and counts them. -/
theorem dropExpired_run (h : Exact s) :
    dropExpired.run s =
      (.ok (s.expiredKeys s.clock.now).length, s.reclaimed) := by
  have hloop := foldlM_dropStep_run s.clock.now s.expires.keys 0
    s.afterReading h.afterReading s.expires.keys_nodup (fun k hk => hk)
  have hfilter : s.expires.keys.filter
      (s.afterReading.isExpiredAt s.clock.now) =
        s.expiredKeys s.clock.now := rfl
  rw [hfilter, Nat.zero_add] at hloop
  simp only [dropExpired, Fallible.run_bind, readClock_run,
    Fallible.run_get]
  exact hloop

theorem Exact.reclaimed (h : Exact s) : Exact s.reclaimed :=
  h.afterReading.dropAll _

end Reclaim

section Lookups

theorem data_lookup_dropAll (s : KeyValueStore) (keys : List Bytes)
    (j : Bytes) :
    (s.dropAll keys).data.lookup j =
      if j ∈ keys then none else s.data.lookup j := by
  induction keys generalizing s with
  | nil =>
      simp
  | cons key keys ih =>
      rw [dropAll_cons, ih, data_lookup_drop]
      by_cases hk : j = key
      · simp [hk]
      · by_cases hm : j ∈ keys
        · simp [hm]
        · simp [hk, hm]

theorem mem_data_dropAll {keys : List Bytes} {j : Bytes} :
    j ∈ (s.dropAll keys).data ↔ j ∉ keys ∧ j ∈ s.data := by
  rw [← OrderedDict.lookup_isSome_iff, data_lookup_dropAll,
    ← OrderedDict.lookup_isSome_iff]
  by_cases hj : j ∈ keys
  · simp [hj]
  · simp [hj]

theorem expires_lookup_dropAll_of_not_mem {keys : List Bytes} {j : Bytes}
    (hj : j ∉ keys) :
    (s.dropAll keys).expires.lookup j = s.expires.lookup j := by
  induction keys generalizing s with
  | nil =>
      rfl
  | cons key keys ih =>
      have hne : j ≠ key := fun he => hj (by simp [he])
      have hrest : j ∉ keys := fun hm => hj (List.mem_cons_of_mem _ hm)
      rw [dropAll_cons, ih hrest, expires_lookup_drop_of_ne hne]

theorem size_drop_lt {key : Bytes} (hk : key ∈ s.data) :
    (s.drop key).data.size < s.data.size := by
  obtain ⟨value, hv⟩ := OrderedDict.exists_lookup_of_mem hk
  rw [drop_of_lookup hv]
  exact OrderedDict.size_erase_lt hk

/-- What taking a key out takes from the total. -/
theorem memory_drop {key value : Bytes}
    (hk : s.data.lookup key = some value) :
    (s.drop key).memory = s.memory - cost key value := by
  rw [drop_of_lookup hk]
  rfl

end Lookups

section Sweep

/-- A store whose sweep stands elsewhere. -/
def moveSweep (s : KeyValueStore) (cursor : List Bytes) : KeyValueStore :=
  { s with sweepCursor := cursor }

@[simp] theorem moveSweep_moveSweep (s : KeyValueStore) (c c' : List Bytes) :
    (s.moveSweep c).moveSweep c' = s.moveSweep c' := by
  rfl

theorem drop_moveSweep (s : KeyValueStore) (cursor : List Bytes)
    (key : Bytes) :
    (s.moveSweep cursor).drop key = (s.drop key).moveSweep cursor := by
  unfold drop moveSweep
  cases s.data.lookup key <;> rfl

theorem dropAll_moveSweep (s : KeyValueStore) (cursor keys : List Bytes) :
    (s.moveSweep cursor).dropAll keys =
      (s.dropAll keys).moveSweep cursor := by
  induction keys generalizing s with
  | nil =>
      rfl
  | cons key keys ih =>
      rw [dropAll_cons, dropAll_cons, drop_moveSweep, ih]

theorem Exact.moveSweep (h : Exact s) (cursor : List Bytes) :
    Exact (s.moveSweep cursor) :=
  h.frame rfl rfl rfl rfl rfl

/-- A key still expired after a removal is another key, expired before. -/
theorem isExpiredAt_of_drop (h : Exact s) {now : Int} {key k : Bytes}
    (hk : (s.drop key).isExpiredAt now k = true) :
    k ≠ key ∧ s.isExpiredAt now k = true := by
  obtain ⟨d, hd, hle⟩ := isExpiredAt_iff.mp hk
  have hmem := (h.drop key).mem_of_deadline hd
  have hne : k ≠ key := (mem_data_drop.mp hmem).1
  rw [expires_lookup_drop_of_ne hne] at hd
  exact ⟨hne, isExpiredAt_iff.mpr ⟨d, hd, hle⟩⟩

/-- What the loop of a sweep does: how many keys it pops off the cursor, how
often it fills the cursor, the keys it removes, and the store it leaves. -/
structure SweepWork where
  pops : Nat
  refills : Nat
  removed : List Bytes
  store : KeyValueStore

/-- A loop that stops at once. -/
def SweepWork.idle (s : KeyValueStore) : SweepWork :=
  ⟨0, 0, [], s⟩

/-- The cursor the next pop works on. -/
def filledCursor (s : KeyValueStore) : List Bytes :=
  if s.sweepCursor = [] then s.expires.keys.reverse else s.sweepCursor

/-- The store after the pop of a key that leaves a cursor. -/
def popped (s : KeyValueStore) (now : Int) (key : Bytes)
    (cursor : List Bytes) : KeyValueStore :=
  (s.settledAt key now).moveSweep cursor

/-- One pop, before the work of the passes that follow it. -/
def SweepWork.afterPop (s : KeyValueStore) (now : Int) (key : Bytes)
    (rest : SweepWork) : SweepWork where
  pops := rest.pops + 1
  refills := rest.refills + if s.sweepCursor = [] then 1 else 0
  removed :=
    if s.isExpiredAt now key then key :: rest.removed else rest.removed
  store := rest.store

/-- The loop of `sweep_expired` with an account of its work. -/
def sweepWork (now : Int) : Nat → Bool → KeyValueStore → SweepWork
  | 0, _, s => .idle s
  | passes + 1, refilled, s =>
      if s.sweepCursor = [] ∧ (refilled = true ∨ s.expires.keys = []) then
        .idle s
      else
        match s.filledCursor with
        | [] => .idle s
        | key :: cursor =>
            .afterPop s now key
              (sweepWork now passes (refilled || s.sweepCursor.isEmpty)
                (s.popped now key cursor))

/-- The cases of the loop: it has no passes left, it has nothing to pop, or it
pops a key and goes on. -/
theorem sweepWork_cases {now : Int}
    {motive : Nat → Bool → KeyValueStore → SweepWork → Prop}
    (spent : ∀ refilled s, motive 0 refilled s (.idle s))
    (stopped : ∀ passes refilled s, s.sweepCursor = [] →
      (refilled = true ∨ s.expires.keys = []) →
      motive (passes + 1) refilled s (.idle s))
    (pop : ∀ passes refilled s key cursor work,
      s.filledCursor = key :: cursor →
      (s.sweepCursor = [] → refilled = false) →
      motive passes (refilled || s.sweepCursor.isEmpty)
        (s.popped now key cursor) work →
      motive (passes + 1) refilled s (.afterPop s now key work))
    (passes : Nat) (refilled : Bool) (s : KeyValueStore) :
    motive passes refilled s (sweepWork now passes refilled s) := by
  induction passes generalizing refilled s with
  | zero =>
      exact spent refilled s
  | succ passes ih =>
      by_cases hstop :
          s.sweepCursor = [] ∧ (refilled = true ∨ s.expires.keys = [])
      · rw [sweepWork, if_pos hstop]
        exact stopped passes refilled s hstop.1 hstop.2
      · rw [sweepWork, if_neg hstop]
        cases hcursor : s.filledCursor with
        | nil =>
            refine absurd ?_ hstop
            unfold filledCursor at hcursor
            split_ifs at hcursor with hempty
            · exact ⟨hempty, Or.inr (by simpa using hcursor)⟩
            · exact absurd hcursor hempty
        | cons key cursor =>
            refine pop passes refilled s key cursor _ hcursor ?_ (ih _ _)
            intro hempty
            rw [Bool.eq_false_iff]
            exact fun hrefilled => hstop ⟨hempty, Or.inl hrefilled⟩

theorem settledAt_eq (s : KeyValueStore) (key : Bytes) (now : Int) :
    s.settledAt key now =
      if s.isExpiredAt now key = true then s.drop key else s := by
  unfold settledAt isExpiredAt
  cases s.expires.lookup key with
  | none =>
      simp
  | some d =>
      simp

theorem Exact.popped (h : Exact s) (now : Int) (key : Bytes)
    (cursor : List Bytes) : Exact (s.popped now key cursor) :=
  (h.settledAt key now).moveSweep cursor

/-- The loop of the source does this work. -/
theorem sweepLoop_run (now : Int) (passes : Nat) (refilled : Bool)
    (removed : Nat) (h : Exact s) :
    (sweepLoop now passes refilled removed).run s =
      (.ok (removed + (sweepWork now passes refilled s).removed.length),
        (sweepWork now passes refilled s).store) := by
  refine sweepWork_cases (motive := fun passes refilled s work =>
    ∀ removed, Exact s → (sweepLoop now passes refilled removed).run s =
      (.ok (removed + work.removed.length), work.store))
    ?_ ?_ ?_ passes refilled s removed h
  · intro refilled s removed _
    rfl
  · intro passes refilled s hempty hstop removed _
    simp only [sweepLoop, Fallible.run_bind, Fallible.run_get,
      if_pos (And.intro hempty hstop)]
    rfl
  · intro passes refilled s key cursor work hcursor hfilled ih removed h
    have hgo : ¬ (s.sweepCursor = [] ∧
        (refilled = true ∨ s.expires.keys = [])) := by
      rintro ⟨hempty, hrefilled | hnone⟩
      · rw [hfilled hempty] at hrefilled
        cases hrefilled
      · unfold filledCursor at hcursor
        rw [if_pos hempty, hnone] at hcursor
        cases hcursor
    have hfill : (if s.sweepCursor = [] then s.expires.keys.reverse
        else s.sweepCursor) = key :: cursor := hcursor
    have hmoved : { s with sweepCursor := cursor } = s.moveSweep cursor := rfl
    have hnext := fun n => ih n (h.popped now key cursor)
    simp only [sweepLoop, Fallible.run_bind, Fallible.run_get, if_neg hgo,
      hfill, Fallible.run_modify, hmoved, SweepWork.afterPop]
    rw [popped, settledAt_eq] at hnext
    by_cases hexp : s.isExpiredAt now key = true
    · obtain ⟨d, hd, hle⟩ := isExpiredAt_iff.mp hexp
      have hk : key ∈ (s.moveSweep cursor).data := h.mem_of_deadline hd
      rw [if_pos hexp, ← drop_moveSweep] at hnext
      simp only [hd, hle, if_true, Fallible.run_bind, remove_run hk, hnext,
        hexp, List.length_cons]
      congr 2
      omega
    · rw [if_neg hexp] at hnext
      simp only [hexp, Bool.false_eq_true, if_false]
      cases hd : s.expires.lookup key with
      | none =>
          simp only [hnext]
      | some d =>
          have hlive : ¬ d ≤ now :=
            fun hle => hexp (isExpiredAt_iff.mpr ⟨d, hd, hle⟩)
          simp only [if_neg hlive, hnext]

/-- The removed keys had expired, and no other key is gone. -/
theorem sweepWork_removed (now : Int) (passes : Nat) (refilled : Bool)
    (h : Exact s) :
    (sweepWork now passes refilled s).removed.Nodup ∧
      (∀ k ∈ (sweepWork now passes refilled s).removed,
        s.isExpiredAt now k = true) ∧
      ∃ cursor, (sweepWork now passes refilled s).store =
        (s.dropAll (sweepWork now passes refilled s).removed).moveSweep
          cursor := by
  refine sweepWork_cases (motive := fun _ _ s work => Exact s →
    work.removed.Nodup ∧ (∀ k ∈ work.removed, s.isExpiredAt now k = true) ∧
      ∃ cursor, work.store = (s.dropAll work.removed).moveSweep cursor)
    ?_ ?_ ?_ passes refilled s h
  · intro _ s _
    exact ⟨List.nodup_nil, by simp [SweepWork.idle], s.sweepCursor, rfl⟩
  · intro _ _ s _ _ _
    exact ⟨List.nodup_nil, by simp [SweepWork.idle], s.sweepCursor, rfl⟩
  · intro passes refilled s key cursor work _ _ ih h
    obtain ⟨hnodup, hexpired, cursor', hstore⟩ := ih (h.popped now key cursor)
    rw [popped, settledAt_eq] at hexpired hstore
    simp only [SweepWork.afterPop]
    by_cases hexp : s.isExpiredAt now key = true
    · rw [if_pos hexp] at hexpired hstore
      have hother := fun k hk => isExpiredAt_of_drop h (hexpired k hk)
      simp only [hexp, if_true]
      refine ⟨?_, ?_, cursor', ?_⟩
      · exact List.nodup_cons.mpr ⟨fun hm => (hother key hm).1 rfl, hnodup⟩
      · exact List.forall_mem_cons.mpr
          ⟨hexp, fun k hk => (hother k hk).2⟩
      · rw [hstore, dropAll_moveSweep, moveSweep_moveSweep, dropAll_cons]
    · rw [if_neg hexp] at hexpired hstore
      simp only [hexp, Bool.false_eq_true, if_false]
      refine ⟨hnodup, hexpired, cursor', ?_⟩
      rw [hstore, dropAll_moveSweep, moveSweep_moveSweep]

/-- What a sweep does: some keys that were expired at its reading are gone,
each counted once, and the cursor has moved. -/
theorem sweepExpired_run (h : Exact s) (limit : Nat) :
    ∃ (keys cursor : List Bytes),
      keys.Nodup ∧ (∀ k ∈ keys, s.isExpiredAt s.clock.now k = true) ∧
      (sweepExpired limit).run s =
        (.ok keys.length, (s.afterReading.dropAll keys).moveSweep cursor) := by
  obtain ⟨hnodup, hexpired, cursor, hstore⟩ :=
    sweepWork_removed s.clock.now limit false h.afterReading
  refine ⟨_, cursor, hnodup, hexpired, ?_⟩
  simp only [sweepExpired, Fallible.run_bind, readClock_run,
    sweepLoop_run _ _ _ _ h.afterReading, Nat.zero_add]
  rw [hstore]

end Sweep

end KeyValueStore
end PyRedis
