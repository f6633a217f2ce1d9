import PyRedis.Theory.Admission

/-!
# When a write is refused

Admission compares the projected total with the limit.  The total counts every
stored key, collected or not, so under `noeviction` a write is refused when
what is stored besides it leaves no room, and what has merely expired counts
until something collects it.  An overwrite that does not grow lowers the total
or keeps it, which is enough unless a recovered log already exceeds the limit.
-/

namespace PyRedis
namespace KeyValueStore

open Foundation

variable {py : Interpreter} {maxmemory : Int} {policy : MaxmemoryPolicy}
variable {recovers : Bool} {s t : KeyValueStore} {key value : Bytes}

section Stored

/-- What all keys but one cost, whether they have expired or not. -/
def otherCost (s : KeyValueStore) (key : Bytes) : Int :=
  (s.data.erase key).weight cost

/-- What the live keys but one cost. -/
def liveOtherCost (s : KeyValueStore) (now : Int) (key : Bytes) : Int :=
  ((s.data.entries.filter fun e =>
    e.1 ≠ key ∧ ¬ s.isExpiredAt now e.1 = true).map
      fun e => cost e.1 e.2).sum

theorem erase_erase (d : OrderedDict Bytes Bytes) (key : Bytes) :
    (d.erase key).erase key = d.erase key :=
  OrderedDict.erase_eq_self (by simp)

/-- Looking at a key does not change what the others cost. -/
theorem otherCost_settled (s : KeyValueStore) (key : Bytes) :
    (s.settled key).otherCost key = s.otherCost key := by
  have hdrop : ∀ u : KeyValueStore,
      (u.drop key).otherCost key = u.otherCost key := by
    intro u
    unfold otherCost KeyValueStore.drop
    split
    · rfl
    · exact congrArg (OrderedDict.weight cost) (erase_erase u.data key)
  unfold settled settledAt
  split
  · rfl
  · split
    · rfl
    · split_ifs
      · exact hdrop s.afterReading
      · rfl

theorem over_of_refuses (h : Exact s) (hr : s.Refuses key value) :
    s.maxmemory < s.otherCost key + cost key value := by
  have hover := hr.2.1
  rwa [projected_eq h] at hover

/-- **What a refusal under `noeviction` means.** A write is refused only when
the keys stored besides the one written, collected or not, leave no room for
the new entry. -/
theorem refused_only_beyond_stored
    (hs : Reachable py maxmemory .noeviction recovers s) (now : Int) :
    (∀ key value ttlMs u,
      (set key value ttlMs).run (s.atClock (.frozen now)) =
        (.error (.store .outOfMemory), u) →
      maxmemory < s.otherCost key + cost key value) ∧
    ∀ key u,
      (incr py key).run (s.atClock (.frozen now)) =
        (.error (.store .outOfMemory), u) →
      ∃ n, ((s.atClock (.frozen now)).settled key).counter py key = .ok n ∧
        maxmemory < s.otherCost key + cost key (str (n + 1)) := by
  have hlimited := hs.limited
  have hexact := hlimited.exact.atClock (.frozen now)
  constructor
  · intro key value ttlMs u hrun
    obtain ⟨r, t, hsets, hset⟩ := set_run hexact key value ttlMs
    rw [hrun] at hset
    cases hset
    cases hsets with
    | refused htiming hr =>
        have hover := over_of_refuses (hexact.timed htiming) hr
        rw [← hlimited.maxmemory]
        rcases timing_eq_or htiming with rfl | rfl <;> exact hover
  · intro key u hrun
    obtain ⟨r, t, hincrs, hincr⟩ := incr_run hexact py key
    rw [hrun] at hincr
    cases hincr
    cases hincrs with
    | malformed hcounter =>
        rcases counter_error hcounter with h | h <;> cases h
    | @refused n hcounter hfits hr =>
        have hover := over_of_refuses (hexact.settled key) hr
        have hmax : ((s.atClock (.frozen now)).settled key).maxmemory =
            s.maxmemory :=
          (tidying_shrinks.settled _ key).maxmemory
        rw [otherCost_settled, hmax, hlimited.maxmemory] at hover
        exact ⟨n, hcounter, hover⟩

/-- One key that has expired at 200, in a store with room for one. -/
def expiredEntry : KeyValueStore :=
  afterOperations .default (init (.frozen 0) 66 .noeviction)
    [.set (ascii "a") (ascii "1") (some 100)]

theorem reachable_expiredEntry :
    Reachable .default 66 .noeviction false expiredEntry :=
  (Reachable.empty (.frozen 0)).operation
    (.set (ascii "a") (ascii "1") (some 100)) (by simp [Operation.isRecovery])

/-- An expired key that nobody has looked at causes a refusal: the live keys
leave room enough, and behind a sweep the same write is admitted. -/
theorem expired_key_causes_refusal :
    Reachable .default 66 .noeviction false expiredEntry ∧
      ((set (ascii "b") (ascii "2") none).run
        (expiredEntry.atClock (.frozen 200))).1 =
          .error (.store .outOfMemory) ∧
      expiredEntry.liveOtherCost 200 (ascii "b") +
        cost (ascii "b") (ascii "2") ≤ 66 ∧
      ((set (ascii "b") (ascii "2") none).run
        ((sweepExpired 1).run (expiredEntry.atClock (.frozen 200))).2).1 =
          .ok () :=
  ⟨reachable_expiredEntry, by decide +kernel, by decide +kernel,
    by decide +kernel⟩

/-- The refusal in that state, and what it says. -/
theorem refused_beyond_expired_entry :
    66 < expiredEntry.otherCost (ascii "b") +
      cost (ascii "b") (ascii "2") := by
  have hrefused : ((set (ascii "b") (ascii "2") none).run
      (expiredEntry.atClock (.frozen 200))).1 =
        .error (.store .outOfMemory) := by
    decide +kernel
  exact (refused_only_beyond_stored reachable_expiredEntry 200).1 _ _ _ _
    (Prod.ext hrefused rfl)

end Stored

section Overwrites

variable {op : Operation}

/-- The projected total of an overwrite. -/
theorem projected_of_overwrite {old : Bytes}
    (hold : s.data.lookup key = some old) :
    s.projected key (cost key value) =
      s.memory + value.length - old.length := by
  simp only [projected, hold, cost]
  ring

/-- Up to its admission, a write of a live key has changed no entry. -/
theorem CallsAdmit.data (h : Exact s) (hcall : CallsAdmit py s op key value t)
    (hlive : ¬ s.isExpiredAt s.clock.now key = true) :
    t.data = s.data ∧ t.memory = s.memory := by
  cases hcall with
  | set key value =>
      exact ⟨rfl, rfl⟩
  | @timedSet key value ttl d t ht =>
      rw [deadline_run] at ht
      split_ifs at ht <;> cases ht
      exact ⟨rfl, rfl⟩
  | @incr key n t ht hn hfits =>
      rw [dropIfExpired_run h] at ht
      cases ht
      unfold settled settledAt
      cases hd : s.expires.lookup key with
      | none =>
          exact ⟨rfl, rfl⟩
      | some d =>
          have hd' : s.afterReading.expires.lookup key = some d := hd
          have hahead : ¬ d ≤ s.clock.now :=
            fun hle => hlive (isExpiredAt_iff.mpr ⟨d, hd, hle⟩)
          simp only [hd', if_neg hahead]
          exact ⟨rfl, rfl⟩

/-- **When an overwrite that does not grow is admitted.** A `set` or `incr`
over a live key with a value no longer than the one there is not refused if
and only if there is no limit, the new total is within it, or something can be
evicted and the entry fits on its own.  Without recovery that is always so. -/
theorem shrinking_overwrite_admitted_iff
    (hs : Reachable py maxmemory policy recovers s)
    (hcall : CallsAdmit py s op key value t) {old : Bytes}
    (hold : s.data.lookup key = some old)
    (hlive : ¬ s.isExpiredAt s.clock.now key = true)
    (hlen : value.length ≤ old.length) :
    (((op.effect py).run s).1 ≠ .error (.store .outOfMemory) ↔
      maxmemory = 0 ∨
        s.memory + value.length - old.length ≤ maxmemory ∨
        policy = .allkeysLru ∧ cost key value ≤ maxmemory) ∧
    (recovers = false → 0 ≤ maxmemory →
      ((op.effect py).run s).1 ≠ .error (.store .outOfMemory)) := by
  have hlimited := hs.limited
  obtain ⟨ht, hshrinks, -, land, -, hrun⟩ := hcall.run hlimited.exact
  obtain ⟨hdata, hmemory⟩ := hcall.data hlimited.exact hlive
  have hmax : t.maxmemory = maxmemory :=
    hshrinks.maxmemory.trans hlimited.maxmemory
  have hpolicy : t.policy = policy :=
    hshrinks.policy.trans hlimited.policy
  have hprojected : t.projected key (cost key value) =
      s.memory + value.length - old.length := by
    rw [projected_of_overwrite (hdata ▸ hold), hmemory]
  have hrefused : ((op.effect py).run s).1 ≠
      .error (.store .outOfMemory) ↔ ¬ t.Refuses key value := by
    rw [hrun]
    by_cases hr : t.Refuses key value
    · simp [admit_run_of_refuses hr, hr]
    · obtain ⟨victims, u, -, hadmitted⟩ := admit_run_of_not_refuses ht hr
      simp [hadmitted, hr]
  have hiff : ¬ t.Refuses key value ↔
      maxmemory = 0 ∨
        s.memory + value.length - old.length ≤ maxmemory ∨
        policy = .allkeysLru ∧ cost key value ≤ maxmemory := by
    unfold Refuses
    rw [hmax, hpolicy, hprojected]
    cases policy with
    | noeviction =>
        simp only [true_or, and_true, not_and_or, not_not, not_lt,
          reduceCtorEq, false_and, or_false]
    | allkeysLru =>
        simp only [reduceCtorEq, false_or, true_and, not_and_or, not_not,
          not_lt]
  refine ⟨hrefused.trans hiff, ?_⟩
  rintro rfl hnonneg
  refine hrefused.mpr (hiff.mpr ?_)
  rcases hnonneg.eq_or_lt with hzero | hpos
  · exact Or.inl hzero.symm
  · have hle := hs.memory_le hpos
    exact Or.inr (Or.inl (by omega))

/-- A log with one entry, loaded under a limit it exceeds. -/
def overfull : KeyValueStore :=
  ((Aof.load .default).run (init (.frozen 0) 66 .noeviction,
    ⟨some (encodeSet (ascii "k") (ascii "1234") none), false, false, false,
      false⟩)).2.1

theorem reachable_overfull :
    Reachable .default 66 .noeviction true overfull :=
  (Reachable.empty (.frozen 0)).load _ rfl

/-- A value is to be replaced by a shorter one, and the write is refused. -/
theorem shorter_overwrite_refused :
    Reachable .default 66 .noeviction true overfull ∧
      overfull.data.lookup (ascii "k") = some (ascii "1234") ∧
      ((set (ascii "k") (ascii "123") none).run overfull).1 =
        .error (.store .outOfMemory) :=
  ⟨reachable_overfull, by decide +kernel, by decide +kernel⟩

/-- Short enough, the same overwrite is admitted. -/
theorem short_overwrite_admitted :
    ((Operation.effect .default
      (.set (ascii "k") (ascii "1") none)).run overfull).1 ≠
        .error (.store .outOfMemory) :=
  (shrinking_overwrite_admitted_iff reachable_overfull
    (CallsAdmit.set (ascii "k") (ascii "1"))
    (show _ = some (ascii "1234") by decide +kernel) (by decide +kernel)
    (by decide)).1.mpr (Or.inr (Or.inl (by decide +kernel)))

end Overwrites

end KeyValueStore
end PyRedis
