import PyRedis.Theory.Admission

/-!
# The deadline of a counter

INCR reads the clock to see whether the counter has expired, and under memory
pressure reclaiming reads it again.  If the deadline lies between the two
readings, the value that was read is written back after its entry has been
collected, and the deadline is gone with the entry.  In every other case the
deadline stays.
-/

namespace PyRedis
namespace KeyValueStore

open Foundation

variable {s t : KeyValueStore} {py : Interpreter} {key : Bytes} {n : Int}

section Increment

theorem keyspace_rewritten (s : KeyValueStore) (key value : Bytes) :
    (s.rewritten key value).keyspace =
      (Fact.put key value (s.expires.lookup key)).apply s.keyspace := by
  unfold rewritten
  rw [keyspace_touch, keyspace_write]

/-- A live key with a deadline stays when it is looked at; the clock has been
read. -/
theorem settled_of_live {d : Int} (hd : s.expires.lookup key = some d)
    (hlive : s.clock.now < d) : s.settled key = s.afterReading := by
  have hd' : s.afterReading.expires.lookup key = some d := hd
  simp only [settled, hd, settledAt, hd', if_neg (not_le.mpr hlive)]

end Increment

/-- The deadlines that a reclaim leaves. -/
theorem expires_lookup_reclaimed (h : Exact s) (key : Bytes) :
    s.reclaimed.expires.lookup key =
      if s.isExpiredAt s.clock.now key = true then none
      else s.expires.lookup key := by
  split_ifs with hdead
  · refine h.reclaimed.expires_eq_none fun hmem => ?_
    exact (mem_data_dropAll.mp hmem).1 (mem_expiredKeys.mpr hdead)
  · exact expires_lookup_dropAll_of_not_mem
      fun hmem => hdead (mem_expiredKeys.mp hmem)

section Deadline

/-- Admission has to reclaim, and by then the deadline has passed. -/
def ReclaimedMidway (s : KeyValueStore) (key value : Bytes) (d : Int) :
    Prop :=
  s.maxmemory ≠ 0 ∧ s.maxmemory < s.projected key (cost key value) ∧
    d ≤ s.clock.advance.now

/-- What an admitted write leaves of a deadline that was there. -/
theorem deadline_after_admission {value : Bytes} {d : Int}
    {u : KeyValueStore} (h : Exact s) (hd : s.expires.lookup key = some d)
    (hrun : (admitWrite key value).run s = (.ok (), u)) :
    u.expires.lookup key = some d ↔
      ¬ (s.maxmemory ≠ 0 ∧
        s.maxmemory < s.projected key (cost key value) ∧
          d ≤ s.clock.now) := by
  by_cases hfits : s.maxmemory = 0 ∨
      s.projected key (cost key value) ≤ s.maxmemory
  · rw [admit_run_of_fits hfits] at hrun
    cases hrun
    refine iff_of_true hd ?_
    rintro ⟨hlimit, hover, -⟩
    rcases hfits with hfree | hfits
    · exact hlimit hfree
    · omega
  · rw [not_or, not_le] at hfits
    have hr : ¬ s.Refuses key value := by
      intro hr
      rw [admit_run_of_refuses hr] at hrun
      cases hrun
    obtain ⟨victims, u', hadmits, hrun'⟩ := admit_run_of_not_refuses h hr
    rw [hrun] at hrun'
    cases hrun'
    cases hadmits with
    | asIs hasIs =>
        rcases hasIs with hfree | hle
        · exact absurd hfree hfits.1
        · omega
    | evicting cursor _ hevicts =>
        have hvictim : key ∉ victims := fun hmem => hevicts.ne key hmem rfl
        have hkept : ((s.reclaimed.dropAll victims).relabel cursor
            (s.evicted ++ victims)).expires.lookup key =
              s.reclaimed.expires.lookup key :=
          expires_lookup_dropAll_of_not_mem hvictim
        have hdead : s.isExpiredAt s.clock.now key = true ↔
            d ≤ s.clock.now := by
          simp [isExpiredAt_iff, hd]
        rw [hkept, expires_lookup_reclaimed h, hd]
        simp [hfits, hdead]

/-- **When INCR keeps the deadline.** A live counter with a deadline that is
incremented holds the next number afterwards, and its deadline is the one it
had if and only if the write needed no reclaim or the deadline was still ahead
when the reclaim read the clock. -/
theorem incr_keeps_deadline_iff {maxmemory : Int} {policy : MaxmemoryPolicy}
    {recovers : Bool} (hs : Reachable py maxmemory policy recovers s)
    (raw : Bytes) (v d : Int)
    (hkey : s.keyspace key = some ⟨raw, some d⟩)
    (hlive : s.clock.now < d) (hv : parseInt py raw = .ok v)
    (hfits : v < int64Max)
    (hrun : (incr py key).run s = (.ok (v + 1), t)) :
    t.keyspace key = some ⟨str (v + 1), some d⟩ ↔
      ¬ ReclaimedMidway s key (str (v + 1)) d := by
  have hexact := hs.limited.exact
  obtain ⟨hdata, hd⟩ := keyspace_eq_some_iff.mp hkey
  have hsettled := settled_of_live hd hlive
  have hn : (s.settled key).counter py key = .ok v := by
    have hraw : s.afterReading.data.lookup key = some raw := hdata
    rw [hsettled]
    simp only [counter, hraw, hv]
  rw [incr_run_of_counter hexact hn (by omega), hsettled] at hrun
  rcases hadmitted : (admitWrite key (str (v + 1))).run s.afterReading with
    ⟨e | ⟨⟩, u⟩
  · rw [hadmitted] at hrun
    cases hrun
  · rw [hadmitted] at hrun
    cases hrun
    have hkept := deadline_after_admission hexact.afterReading hd hadmitted
    rw [keyspace_rewritten]
    simp only [Fact.apply, Fact.actOn, if_true, Option.some.injEq,
      Timed.mk.injEq, true_and]
    exact hkept

end Deadline

section Loss

/-- A counter at 9 that expires at 100, without a memory limit. -/
def roomyCounter : KeyValueStore :=
  afterOperations .default (init (.frozen 0) 0 .allkeysLru)
    [.set (ascii "n") (ascii "9") (some 100)]

theorem reachable_roomyCounter :
    Reachable .default 0 .allkeysLru false roomyCounter :=
  (Reachable.empty (.frozen 0)).operation
    (.set (ascii "n") (ascii "9") (some 100)) (by simp [Operation.isRecovery])

/-- With room for the next number, the deadline stays. -/
theorem incr_keeps_deadline_with_room :
    ((incr .default (ascii "n")).run roomyCounter).2.keyspace (ascii "n") =
      some ⟨str (9 + 1), some 100⟩ := by
  have hrun : ((incr .default (ascii "n")).run roomyCounter).1 =
      .ok (9 + 1) := by
    decide +kernel
  refine (incr_keeps_deadline_iff reachable_roomyCounter (ascii "9") 9 100
    (by decide +kernel) (by decide +kernel) (by decide +kernel)
    (by decide +kernel) (Prod.ext hrun rfl)).mpr ?_
  rintro ⟨hlimit, -⟩
  exact hlimit rfl

/-- A clock that shows 0 once, then 50, then 100 for good. -/
def slowCall : Clock :=
  ⟨fun i => if i = 0 then 0 else if i = 1 then 50 else 100, 0⟩

/-- A counter at 9 that expires at 100, and another key, at the limit. -/
def expiringCounter : KeyValueStore :=
  afterOperations .default (init slowCall 132 .allkeysLru)
    [.set (ascii "n") (ascii "9") (some 100),
      .set (ascii "x") (ascii "1") none]

theorem reachable_expiringCounter :
    Reachable .default 132 .allkeysLru false expiringCounter :=
  ((Reachable.empty slowCall).operation
    (.set (ascii "n") (ascii "9") (some 100))
      (by simp [Operation.isRecovery])).operation
    (.set (ascii "x") (ascii "1") none) (by simp [Operation.isRecovery])

theorem monotone_slowCall : slowCall.Monotone := by
  intro i j hij
  simp only [slowCall]
  split_ifs <;> omega

/-- The counter is live when the call begins and expires during it: it comes
back with its next value and no deadline. -/
theorem incr_forgets_deadline :
    Reachable .default 132 .allkeysLru false expiringCounter ∧
      expiringCounter.clock.Monotone ∧
      expiringCounter.keyspace (ascii "n") =
        some ⟨ascii "9", some 100⟩ ∧
      expiringCounter.clock.now = 50 ∧
      ((incr .default (ascii "n")).run expiringCounter).1 = .ok 10 ∧
      ((incr .default (ascii "n")).run expiringCounter).2.keyspace
        (ascii "n") = some ⟨ascii "10", none⟩ :=
  ⟨reachable_expiringCounter, monotone_slowCall, by decide +kernel,
    by decide +kernel, by decide +kernel, by decide +kernel⟩

end Loss

end KeyValueStore
end PyRedis
