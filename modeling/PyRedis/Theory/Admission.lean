import PyRedis.Theory.Invariants

/-!
# The memory ceiling

A limit never changes.  A write is let in only when it leaves the total within
the limit, and everything else but recovery lowers the total, so a store that
was never recovered stays within its limit.  A store that was recovered may
exceed it, and the first write that is let in brings it back.
-/

namespace PyRedis
namespace KeyValueStore

open Foundation
open Fallible (Preserves)

variable {s t u : KeyValueStore}

section Limits

theorem state_forEffect {α : Type} (x : StoreM α) (s : KeyValueStore) :
    ((forEffect x).run s).2 = (x.run s).2 := by
  simp only [forEffect, Fallible.run_bind]
  rcases x.run s with ⟨e | a, t⟩ <;> rfl

/-- The same limits, and no more memory than before. -/
structure Shrinks (s t : KeyValueStore) : Prop where
  maxmemory : t.maxmemory = s.maxmemory
  policy : t.policy = s.policy
  memory : t.memory ≤ s.memory

theorem Shrinks.refl (s : KeyValueStore) : Shrinks s s :=
  ⟨rfl, rfl, le_rfl⟩

theorem Shrinks.trans (h : Shrinks s t) (h' : Shrinks t u) : Shrinks s u :=
  ⟨h'.maxmemory.trans h.maxmemory, h'.policy.trans h.policy,
    le_trans h'.memory h.memory⟩

theorem shrinks_drop (s : KeyValueStore) (key : Bytes) :
    Shrinks s (s.drop key) := by
  have hsettings := sameSettings_drop s key
  refine ⟨hsettings.maxmemory, hsettings.policy, ?_⟩
  cases hv : s.data.lookup key with
  | none =>
      rw [drop_of_not_mem (OrderedDict.lookup_eq_none_iff.mp hv)]
  | some value =>
      rw [memory_drop hv]
      unfold cost entryOverheadBytes
      omega

/-- Readings of the clock and removals keep the limits and free memory. -/
theorem tidying_shrinks : Tidying Shrinks where
  refl := Shrinks.refl
  trans := Shrinks.trans
  reading _ := ⟨rfl, rfl, le_rfl⟩
  drop := shrinks_drop

theorem shrinks_gotten (s : KeyValueStore) (key : Bytes) :
    Shrinks s (s.gotten key) := by
  refine (tidying_shrinks.settled s key).trans ?_
  unfold gotten
  split_ifs
  · exact ⟨rfl, rfl, le_rfl⟩
  · exact Shrinks.refl _

theorem Exact.memory_nonneg (h : Exact s) : 0 ≤ s.memory := by
  rw [h.memory_eq]
  exact OrderedDict.weight_nonneg cost_nonneg s.data

theorem shrinks_cleared (h : Exact s) : Shrinks s s.cleared :=
  ⟨rfl, rfl, h.memory_nonneg⟩

end Limits

section Fitting

variable {key value : Bytes} {victims : List Bytes}

theorem Admits.limits (h : Admits s key value victims t) :
    t.maxmemory = s.maxmemory ∧ t.policy = s.policy := by
  have hsettings := h.settings
  exact ⟨congrArg Settings.maxmemory hsettings,
    congrArg Settings.policy hsettings⟩

/-- What is let in fits. -/
theorem Admits.fits (h : Admits s key value victims t)
    (hlimit : s.maxmemory ≠ 0) :
    (t.write key value).memory ≤ s.maxmemory := by
  rw [memory_write]
  cases h with
  | asIs h =>
      exact h.resolve_left hlimit
  | evicting cursor _ hevicts =>
      have hfits := hevicts.fits_after
      rw [(sameSettings_reclaimed s).maxmemory] at hfits
      exact hfits

theorem memory_stored (s : KeyValueStore) (key value : Bytes)
    (d : Option Int) :
    (s.stored key value d).memory = (s.write key value).memory := by
  cases d <;> rfl

/-- A write that has been let in, whatever it does to the deadline. -/
structure Lands (s t : KeyValueStore) : Prop where
  maxmemory : t.maxmemory = s.maxmemory
  policy : t.policy = s.policy
  memory : s.maxmemory ≠ 0 → t.memory ≤ s.maxmemory

theorem shrinks_or_lands_set (h : Exact s) (key value : Bytes)
    (ttl : Option Int) :
    Shrinks s ((set key value ttl).run s).2 ∨
      Lands s ((set key value ttl).run s).2 := by
  obtain ⟨r, t, hsets, hrun⟩ := set_run h key value ttl
  rw [hrun]
  cases hsets with
  | untimely ht =>
      exact Or.inl (tidying_shrinks.timing ht)
  | refused ht _ =>
      exact Or.inl (tidying_shrinks.timing ht)
  | @stored d t u victims ht _ ha =>
      have htime := tidying_shrinks.timing ht
      have hstored : (u.stored key value d).settings = u.settings := by
        simp [KeyValueStore.stored]
      refine Or.inr ⟨?_, ?_, fun hlimit => ?_⟩
      · exact (congrArg Settings.maxmemory hstored).trans
          (ha.limits.1.trans htime.maxmemory)
      · exact (congrArg Settings.policy hstored).trans
          (ha.limits.2.trans htime.policy)
      · have hfits := ha.fits (by rwa [htime.maxmemory])
        rw [htime.maxmemory] at hfits
        change (u.stored key value d).memory ≤ s.maxmemory
        rwa [memory_stored]

theorem shrinks_or_lands_incr (h : Exact s) (py : Interpreter)
    (key : Bytes) :
    Shrinks s ((incr py key).run s).2 ∨ Lands s ((incr py key).run s).2 := by
  obtain ⟨r, t, hincrs, hrun⟩ := incr_run h py key
  have hsettled := tidying_shrinks.settled s key
  rw [hrun]
  cases hincrs with
  | malformed _ =>
      exact Or.inl hsettled
  | overflow _ _ =>
      exact Or.inl hsettled
  | refused _ _ _ =>
      exact Or.inl hsettled
  | stored _ _ _ ha =>
      refine Or.inr ⟨?_, ?_, fun hlimit => ?_⟩
      · exact ha.limits.1.trans hsettled.maxmemory
      · exact ha.limits.2.trans hsettled.policy
      · have hfits := ha.fits (by rwa [hsettled.maxmemory])
        rwa [hsettled.maxmemory] at hfits

/-- **Every operation but those of recovery lowers the total, or lands a write
within the limit.** -/
theorem Operation.shrinks_or_lands (h : Exact s) (py : Interpreter)
    {op : Operation} (hop : op.isRecovery = false) :
    Shrinks s ((op.effect py).run s).2 ∨
      Lands s ((op.effect py).run s).2 := by
  cases op with
  | set key value ttl =>
      exact shrinks_or_lands_set h key value ttl
  | incr key =>
      rw [Operation.effect, state_forEffect]
      exact shrinks_or_lands_incr h py key
  | get key =>
      rw [Operation.effect, state_forEffect, get_run h]
      exact Or.inl (shrinks_gotten s key)
  | delete keys =>
      rw [Operation.effect, state_forEffect, delete_run h]
      exact Or.inl (tidying_shrinks.deleted s keys)
  | «exists» keys =>
      rw [Operation.effect, state_forEffect, exists_run h]
      exact Or.inl (tidying_shrinks.looked s keys)
  | expire key ttl =>
      have hsettled := tidying_shrinks.settled s key
      rw [Operation.effect, state_forEffect, expire_run h]
      split_ifs
      · exact Or.inl (hsettled.trans (shrinks_drop _ key))
      · exact Or.inl (hsettled.trans (tidying_shrinks.reading _))
      · exact Or.inl (hsettled.trans ⟨rfl, rfl, le_rfl⟩)
      · exact Or.inl hsettled
  | ttl key =>
      rw [Operation.effect, state_forEffect, ttl_run h]
      exact Or.inl ((tidying_shrinks.reading s).trans
        (tidying_shrinks.settledAt _ key _))
  | persist key =>
      have hsettled := tidying_shrinks.settled s key
      rw [Operation.effect, state_forEffect, persist_run h]
      split_ifs
      · exact Or.inl (hsettled.trans ⟨rfl, rfl, le_rfl⟩)
      · exact Or.inl hsettled
  | deadlineMs key =>
      rw [Operation.effect, state_forEffect, deadlineMs_run]
      exact Or.inl (Shrinks.refl s)
  | dbsize =>
      rw [Operation.effect, state_forEffect, dbsize_run h]
      exact Or.inl (tidying_shrinks.reclaimed s)
  | dropExpired =>
      rw [Operation.effect, state_forEffect, dropExpired_run h]
      exact Or.inl (tidying_shrinks.reclaimed s)
  | flushdb =>
      rw [Operation.effect, flushdb_run]
      exact Or.inl (shrinks_cleared h)
  | sweepExpired limit =>
      obtain ⟨keys, cursor, -, -, hrun⟩ := sweepExpired_run h limit
      rw [Operation.effect, state_forEffect, hrun]
      have hdrop := (tidying_shrinks.reading s).trans
        (tidying_shrinks.dropAll _ keys)
      exact Or.inl (hdrop.trans ⟨rfl, rfl, le_rfl⟩)
  | takeEvicted =>
      rw [Operation.effect, state_forEffect, takeEvicted_run]
      exact Or.inl ⟨rfl, rfl, le_rfl⟩
  | restore key value d =>
      cases hop
  | setDeadline key d =>
      cases hop
  | clearDeadline key =>
      cases hop
  | discard keys =>
      cases hop

/-- The limits never change. -/
theorem Operation.limits (h : Exact s) (py : Interpreter) (op : Operation) :
    ((op.effect py).run s).2.maxmemory = s.maxmemory ∧
      ((op.effect py).run s).2.policy = s.policy := by
  cases hop : op.isRecovery with
  | false =>
      rcases op.shrinks_or_lands h py hop with hshrinks | hlands
      · exact ⟨hshrinks.maxmemory, hshrinks.policy⟩
      · exact ⟨hlands.maxmemory, hlands.policy⟩
  | true =>
      cases op with
      | restore key value d =>
          cases d <;> exact ⟨rfl, rfl⟩
      | setDeadline key d =>
          rw [Operation.effect, setDeadline_run]
          split_ifs <;> exact ⟨rfl, rfl⟩
      | clearDeadline key =>
          exact ⟨rfl, rfl⟩
      | discard keys =>
          rw [Operation.effect, discard_run]
          exact ⟨(tidying_shrinks.dropAll s keys).maxmemory,
            (tidying_shrinks.dropAll s keys).policy⟩
      | _ =>
          cases hop

end Fitting

section Ceilings

variable {py : Interpreter} {maxmemory : Int} {policy : MaxmemoryPolicy}
variable {recovers : Bool}

/-- What holds of a store with these limits, wherever it has been. -/
structure Limited (maxmemory : Int) (policy : MaxmemoryPolicy)
    (s : KeyValueStore) : Prop where
  exact : Exact s
  maxmemory : s.maxmemory = maxmemory
  policy : s.policy = policy

theorem Operation.preserves_limited (py : Interpreter) (op : Operation) :
    Preserves (Limited maxmemory policy) (op.effect py) := by
  refine Preserves.of_state_after fun s hs => ?_
  have hlimits := op.limits hs.exact py
  exact ⟨op.exact_after hs.exact py, hlimits.1.trans hs.maxmemory,
    hlimits.2.trans hs.policy⟩

theorem Reachable.limited (hs : Reachable py maxmemory policy recovers s) :
    Limited maxmemory policy s :=
  hs.invariant
    (fun clock => ⟨exact_init clock maxmemory policy, rfl, rfl⟩)
    fun op _ => op.preserves_limited py

/-- Without a recovery the total never exceeds the limit. -/
theorem Reachable.memory_le (hpos : 0 < maxmemory)
    (hs : Reachable py maxmemory policy false s) : s.memory ≤ maxmemory := by
  have hboth : Limited maxmemory policy s ∧ s.memory ≤ maxmemory := by
    refine hs.invariant (I := fun s => Limited maxmemory policy s ∧
      s.memory ≤ maxmemory) ?_ ?_
    · intro clock
      exact ⟨⟨exact_init clock maxmemory policy, rfl, rfl⟩, le_of_lt hpos⟩
    · intro op hop
      have hcommand : op.isRecovery = false := by
        cases hrecovery : op.isRecovery with
        | false =>
            rfl
        | true =>
            cases hop hrecovery
      refine Preserves.of_state_after fun t ht => ?_
      refine ⟨(op.preserves_limited py).state_after ht.1, ?_⟩
      rcases op.shrinks_or_lands ht.1.exact py hcommand with
        hshrinks | hlands
      · exact le_trans hshrinks.memory ht.2
      · have hlimit := ht.1.maxmemory
        have := hlands.memory (by omega)
        omega
  exact hboth.2

/-- A write reaches `_admit` in the state `t`, for a key and the value it is
to have: a `set` once its deadline is known, an `incr` once its key is not
expired and its number is read and can grow. -/
inductive CallsAdmit (py : Interpreter) (s : KeyValueStore) :
    Operation → Bytes → Bytes → KeyValueStore → Prop where
  | set (key value : Bytes) :
      CallsAdmit py s (.set key value none) key value s
  | timedSet {key value : Bytes} {ttl d : Int} {t : KeyValueStore}
      (h : (deadline ttl).run s = (.ok d, t)) :
      CallsAdmit py s (.set key value (some ttl)) key value t
  | incr {key : Bytes} {n : Int} {t : KeyValueStore}
      (h : (dropIfExpired key none).run s = (.ok (), t))
      (hn : t.counter py key = .ok n) (hfits : n + 1 ≤ int64Max) :
      CallsAdmit py s (.incr key) key (str (n + 1)) t

/-- What the call of `_admit` in the state `t` comes to, and with it the write
that made it from the state `s`. -/
structure Ceiling (py : Interpreter) (maxmemory : Int)
    (policy : MaxmemoryPolicy) (s : KeyValueStore) (op : Operation)
    (key value : Bytes) (t : KeyValueStore) : Prop where
  refused : ∀ e u, (admitWrite key value).run t = (.error e, u) →
    e = .store .outOfMemory ∧ u = t ∧
      (op.effect py).run s = (.error (.store .outOfMemory), t)
  refused_iff : policy = .allkeysLru →
    (((admitWrite key value).run t).1 = .error (.store .outOfMemory) ↔
      maxmemory < cost key value)
  admitted : ∀ u, (admitWrite key value).run t = (.ok (), u) →
    ∃ final victims, (op.effect py).run s = (.ok (), final) ∧
      final.memory ≤ maxmemory ∧
      (victims = [] ∧ u = t ∨
        u.data = (t.reclaimed.dropAll victims).data) ∧
      victims.Nodup ∧ key ∉ victims ∧
      (∀ v ∈ victims, v ∈ t.data ∧ ¬ t.isExpiredAt t.clock.now v = true) ∧
      (∀ earlier victim later, victims = earlier ++ victim :: later →
        maxmemory < (t.reclaimed.dropAll earlier).projected key
          (cost key value)) ∧
      (takeEvicted.run final).1 = .ok (s.evicted ++ victims)

/-- Under the eviction policy only a write that could never fit is refused. -/
theorem refuses_iff_cost {key value : Bytes} (h : Exact s)
    (hpolicy : s.policy = .allkeysLru) :
    s.Refuses key value ↔
      s.maxmemory ≠ 0 ∧ s.maxmemory < cost key value := by
  constructor
  · rintro ⟨hlimit, -, hnone | hcost⟩
    · rw [hpolicy] at hnone
      cases hnone
    · exact ⟨hlimit, hcost⟩
  · rintro ⟨hlimit, hcost⟩
    have hothers := OrderedDict.weight_nonneg cost_nonneg (s.data.erase key)
    refine ⟨hlimit, ?_, Or.inr hcost⟩
    rw [projected_eq h]
    omega

theorem refuses_of_cost (h : Exact s) (hpos : 0 < s.maxmemory)
    (key value : Bytes) (hpolicy : s.policy = .allkeysLru) :
    s.Refuses key value ↔ s.maxmemory < cost key value := by
  have hlimit : s.maxmemory ≠ 0 := by omega
  rw [refuses_iff_cost h hpolicy]
  exact and_iff_right hlimit

/-- The keys an admission evicts. -/
theorem Admits.chosen {key value : Bytes} {victims : List Bytes}
    (ha : Admits s key value victims u) :
    (victims = [] ∧ u = s ∨
        u.data = (s.reclaimed.dropAll victims).data) ∧
      victims.Nodup ∧ key ∉ victims ∧
      (∀ v ∈ victims, v ∈ s.data ∧ ¬ s.isExpiredAt s.clock.now v = true) ∧
      ∀ earlier victim later, victims = earlier ++ victim :: later →
        s.maxmemory < (s.reclaimed.dropAll earlier).projected key
          (cost key value) := by
  cases ha with
  | asIs _ =>
      refine ⟨Or.inl ⟨rfl, rfl⟩, List.nodup_nil, by simp, by simp, ?_⟩
      intro earlier victim later heq
      simp at heq
  | evicting cursor _ hevicts =>
      refine ⟨Or.inr rfl, hevicts.nodup, fun hkey => hevicts.ne key hkey rfl,
        ?_, ?_⟩
      · intro v hv
        obtain ⟨hlive, hmem⟩ := mem_data_dropAll.mp (hevicts.mem v hv)
        exact ⟨hmem, fun hexpired => hlive (mem_expiredKeys.mpr hexpired)⟩
      · intro earlier victim later heq
        have hover := hevicts.over earlier victim later heq
        rwa [(sameSettings_reclaimed s).maxmemory] at hover

/-- An INCR that has read its counter goes on as its admission does. -/
theorem incr_run_of_counter {key : Bytes} {n : Int} (h : Exact s)
    (hn : (s.settled key).counter py key = .ok n)
    (hfits : n + 1 ≤ int64Max) :
    (incr py key).run s =
      match (admitWrite key (str (n + 1))).run (s.settled key) with
      | (.ok _, u) => (.ok (n + 1), u.rewritten key (str (n + 1)))
      | (.error e, u) => (.error e, u) := by
  have hover : ¬ int64Max < n + 1 := not_lt.mpr hfits
  unfold counter at hn
  simp only [incr, Fallible.run_bind, dropIfExpired_run h, Fallible.run_get]
  cases hv : (s.settled key).data.lookup key with
  | none =>
      rw [hv] at hn
      cases hn
      simp only [Fallible.run_pure, if_neg hover, Fallible.run_bind]
      rcases (admitWrite key (str (0 + 1))).run (s.settled key) with
        ⟨e | _, u⟩ <;> rfl
  | some raw =>
      rw [hv] at hn
      simp only at hn
      simp only [hn, Fallible.run_ofExcept_ok, if_neg hover,
        Fallible.run_bind]
      rcases (admitWrite key (str (n + 1))).run (s.settled key) with
        ⟨e | _, u⟩ <;> rfl

/-- A call of `_admit` is made in a state that keeps the limits, and the write
raises what it raises and otherwise lands. -/
theorem CallsAdmit.run (h : Exact s) {op : Operation} {key value : Bytes}
    (hcall : CallsAdmit py s op key value t) :
    Exact t ∧ Shrinks s t ∧ t.evicted = s.evicted ∧
      ∃ land : KeyValueStore → KeyValueStore,
        (∀ u, (land u).memory = (u.write key value).memory ∧
          (land u).evicted = u.evicted) ∧
        (op.effect py).run s =
          match (admitWrite key value).run t with
          | (.ok _, u) => (.ok (), land u)
          | (.error e, u) => (.error e, u) := by
  cases hcall with
  | set key value =>
      refine ⟨h, Shrinks.refl s, rfl, fun u => u.stored key value none,
        fun u => ⟨rfl, rfl⟩, ?_⟩
      simp only [Operation.effect, KeyValueStore.set, Fallible.run_bind,
        Fallible.run_pure]
      rcases (admitWrite key value).run s with ⟨e | _, u⟩ <;> rfl
  | @timedSet key value ttl d t ht =>
      rw [deadline_run] at ht
      by_cases hpos : ttl ≤ 0
      · simp [hpos] at ht
      by_cases hover : int64Max < s.clock.now + ttl
      · simp [hpos, hover] at ht
      simp only [if_neg hpos, if_neg hover, Prod.mk.injEq,
        Except.ok.injEq] at ht
      obtain ⟨rfl, rfl⟩ := ht
      refine ⟨h.afterReading, tidying_shrinks.reading s, rfl,
        fun u => u.stored key value (some (s.clock.now + ttl)),
        fun u => ⟨rfl, rfl⟩, ?_⟩
      simp only [Operation.effect, KeyValueStore.set, Fallible.run_bind,
        deadline_run, if_neg hpos, if_neg hover, Fallible.run_pure]
      rcases (admitWrite key value).run s.afterReading with ⟨e | _, u⟩ <;> rfl
  | @incr key n t ht hn hfits =>
      rw [dropIfExpired_run h] at ht
      cases ht
      refine ⟨h.settled key, tidying_shrinks.settled s key,
        congrArg Settings.evicted (settings_settled s key),
        fun u => u.rewritten key (str (n + 1)), fun u => ⟨rfl, rfl⟩, ?_⟩
      simp only [Operation.effect, forEffect, Fallible.run_bind,
        incr_run_of_counter h hn hfits]
      rcases (admitWrite key (str (n + 1))).run (s.settled key) with
        ⟨e | _, u⟩ <;> rfl

/-- **The memory ceiling is hard, and eviction is all or nothing.** -/
theorem memory_ceiling (hpos : 0 < maxmemory)
    (hs : Reachable py maxmemory policy recovers s) :
    (∀ op key value t, CallsAdmit py s op key value t →
      Ceiling py maxmemory policy s op key value t) ∧
    (recovers = false → s.memory ≤ maxmemory) := by
  have hlimited := hs.limited
  constructor
  · intro op key value t hcall
    obtain ⟨ht, hshrinks, hreport, land, hland, hrun⟩ :=
      hcall.run hlimited.exact
    have hmax : t.maxmemory = maxmemory :=
      hshrinks.maxmemory.trans hlimited.maxmemory
    have hpolicy : t.policy = policy :=
      hshrinks.policy.trans hlimited.policy
    by_cases hr : t.Refuses key value
    · have hadmits := admit_run_of_refuses hr
      rw [hadmits] at hrun
      refine ⟨?_, ?_, ?_⟩
      · intro e u he
        rw [hadmits] at he
        cases he
        exact ⟨rfl, rfl, hrun⟩
      · intro hlru
        rw [hadmits]
        have hiff := refuses_of_cost ht (by omega) key value
          (hpolicy.trans hlru)
        rw [hmax] at hiff
        exact ⟨fun _ => hiff.mp hr, fun _ => rfl⟩
      · intro u hu
        rw [hadmits] at hu
        cases hu
    · obtain ⟨victims, u, ha, hadmits⟩ := admit_run_of_not_refuses ht hr
      rw [hadmits] at hrun
      refine ⟨?_, ?_, ?_⟩
      · intro e u' he
        rw [hadmits] at he
        cases he
      · intro hlru
        rw [hadmits]
        have hiff := refuses_of_cost ht (by omega) key value
          (hpolicy.trans hlru)
        rw [hmax] at hiff
        refine ⟨fun herror => ?_, fun hcost => absurd (hiff.mpr hcost) hr⟩
        cases herror
      · intro u' hu
        rw [hadmits] at hu
        cases hu
        refine ⟨land u, victims, hrun, ?_, ?_⟩
        · rw [(hland u).1, ← hmax]
          exact ha.fits (by omega)
        · have hspoken : (takeEvicted.run (land u)).1 =
              .ok (s.evicted ++ victims) := by
            have hsettings := ha.settings
            have hevicted := congrArg Settings.evicted hsettings
            rw [takeEvicted_run, (hland u).2, ← hreport]
            exact congrArg Except.ok hevicted
          have hchosen := ha.chosen
          rw [hmax] at hchosen
          exact ⟨hchosen.1, hchosen.2.1, hchosen.2.2.1, hchosen.2.2.2.1,
            hchosen.2.2.2.2, hspoken⟩
  · rintro rfl
    exact hs.memory_le hpos

/-- Two keys, and no room for a third. -/
def twoKeys : KeyValueStore :=
  afterOperations .default (init (.frozen 0) 132 .allkeysLru)
    [.set (ascii "a") (ascii "1") none, .set (ascii "b") (ascii "2") none]

theorem reachable_twoKeys :
    Reachable .default 132 .allkeysLru false twoKeys :=
  ((Reachable.empty (.frozen 0)).operation
    (.set (ascii "a") (ascii "1") none)
      (by simp [Operation.isRecovery])).operation
    (.set (ascii "b") (ascii "2") none) (by simp [Operation.isRecovery])

theorem ceiling_of_third_key :
    Ceiling .default 132 .allkeysLru twoKeys
        (.set (ascii "c") (ascii "3") none) (ascii "c") (ascii "3")
        twoKeys ∧
      twoKeys.memory ≤ 132 :=
  ⟨(memory_ceiling (by decide) reachable_twoKeys).1 _ _ _ _
      (CallsAdmit.set _ _),
    (memory_ceiling (by decide) reachable_twoKeys).2 rfl⟩

end Ceilings

end KeyValueStore
end PyRedis
