import PyRedis.Theory.CounterDeadlines
import PyRedis.Theory.FailedCommands
import PyRedis.Theory.Sampling
import PyRedis.Theory.ServerRuns

/-!
# Evictions, selection by selection

The eviction of a write is a chain of selections, each made in the state that
the last one has left: which keys go, and what becomes of the cursor, follows
from the state at the start.  What a request evicts is what it reports ahead
of its write.
-/

namespace PyRedis

open Foundation

namespace KeyValueStore

variable {s t u : KeyValueStore} {key value v : Bytes} {c : Int}
variable {victims : List Bytes}

section Chain

/-- A store after one victim has gone. -/
def evictOne (s : KeyValueStore) (key v : Bytes) : KeyValueStore :=
  (s.drop v).relabel (sample s key).2 (s.evicted ++ [v])

/-- Victims are selected one after the other, each while the projected total
is over the limit, until the write fits. -/
inductive Chooses (key : Bytes) (c : Int) :
    KeyValueStore → List Bytes → KeyValueStore → Prop
  | fits {s : KeyValueStore} (h : s.projected key c ≤ s.maxmemory) :
      Chooses key c s [] s
  | evict {s t : KeyValueStore} {v : Bytes} {victims : List Bytes}
      (hover : s.maxmemory < s.projected key c)
      (hv : s.victim key = some v)
      (next : Chooses key c (s.evictOne key v) victims t) :
      Chooses key c s (v :: victims) t

theorem Exact.evictOne (h : Exact s) (key v : Bytes) :
    Exact (s.evictOne key v) :=
  (h.drop v).relabel _ _

theorem maxmemory_evictOne (s : KeyValueStore) (key v : Bytes) :
    (s.evictOne key v).maxmemory = s.maxmemory :=
  (sameSettings_drop s v).maxmemory

theorem mem_of_victim (h : s.victim key = some v) : v ∈ s.data :=
  (eligible_of_mem_inLine (victim_spec h).1).2

/-- Only when no other key exists is there no victim. -/
theorem eq_of_victim_none (h : s.victim key = none) {j : Bytes}
    (hj : j ∈ s.data) : j = key := by
  unfold victim at h
  cases hdrawn : (sample s key).1 with
  | nil =>
      exact eq_of_sample_nil hdrawn hj
  | cons best rest =>
      rw [hdrawn] at h
      cases h

/-- One victim is selected, removed and noted. -/
theorem evict_pass_run (passes : Nat) (hover : s.maxmemory < s.projected key c)
    (hv : s.victim key = some v) :
    (evictUntilFits key c (passes + 1)).run s =
      (evictUntilFits key c passes).run (s.evictOne key v) := by
  have hmem : v ∈ (s.relabel (sample s key).2 s.evicted).data := by
    have hs := mem_of_victim hv
    exact hs
  simp only [evictUntilFits, Fallible.run_bind, Fallible.run_get,
    if_pos hover, selectVictim_eq, hv, remove_run hmem,
    Fallible.run_modify, drop_relabel]
  rfl

/-- The loop of the eviction is such a chain. -/
theorem evictUntilFits_chooses :
    ∀ (passes : Nat) (s : KeyValueStore), Exact s → c ≤ s.maxmemory →
      s.data.size < passes →
      ∃ victims t, Chooses key c s victims t ∧
        (evictUntilFits key c passes).run s = (.ok (), t)
  | 0, _, _, _, hpasses => absurd hpasses (Nat.not_lt_zero _)
  | passes + 1, s, h, hc, hpasses => by
      by_cases hover : s.maxmemory < s.projected key c
      · cases hv : s.victim key with
        | none =>
            -- without another key the write would fit by itself
            have halone := projected_of_alone h c fun j hj =>
              eq_of_victim_none hv hj
            omega
        | some v =>
            have hsize : (s.drop v).data.size < s.data.size :=
              size_drop_lt (mem_of_victim hv)
            have hless : (s.evictOne key v).data.size < passes := by
              change (s.drop v).data.size < passes
              omega
            obtain ⟨victims, t, hchooses, hrun⟩ :=
              evictUntilFits_chooses passes (s.evictOne key v)
                (h.evictOne key v)
                (by rw [maxmemory_evictOne]; exact hc) hless
            refine ⟨v :: victims, t, Chooses.evict hover hv hchooses, ?_⟩
            rw [evict_pass_run passes hover hv, hrun]
      · refine ⟨[], s, Chooses.fits (not_lt.mp hover), ?_⟩
        simp only [evictUntilFits, Fallible.run_bind, Fallible.run_get,
          if_neg hover, Fallible.run_pure]

theorem Chooses.evicted (h : Chooses key c s victims t) :
    t.evicted = s.evicted ++ victims := by
  induction h with
  | fits _ =>
      rw [List.append_nil]
  | @evict s t v victims _ _ _ ih =>
      rw [ih]
      exact List.append_assoc s.evicted [v] victims

theorem Chooses.exact (hs : Exact s) (h : Chooses key c s victims t) :
    Exact t := by
  induction h with
  | fits _ =>
      exact hs
  | evict _ _ _ ih =>
      exact ih (hs.evictOne _ _)

end Chain

section Admission

/-- What becomes of a write that asks to be let in. -/
inductive Outcome (s : KeyValueStore) (key value : Bytes) :
    Except Exc Unit → List Bytes → KeyValueStore → Prop
  | refused (hr : s.Refuses key value) :
      Outcome s key value (.error (.store .outOfMemory)) [] s
  | fits (h : s.maxmemory = 0 ∨
        s.projected key (cost key value) ≤ s.maxmemory) :
      Outcome s key value (.ok ()) [] s
  | evicting {victims : List Bytes} {t : KeyValueStore}
      (hr : ¬ s.Refuses key value) (hlimit : s.maxmemory ≠ 0)
      (hover : s.maxmemory < s.projected key (cost key value))
      (h : Chooses key (cost key value) s.reclaimed victims t) :
      Outcome s key value (.ok ()) victims t

theorem Outcome.eq_ok {s t : KeyValueStore} {key value : Bytes}
    {r : Except Exc Unit} {victims : List Bytes}
    (h : Outcome s key value r victims t) (hr : ¬ s.Refuses key value) :
    r = .ok () := by
  cases h with
  | refused hrefused =>
      exact absurd hrefused hr
  | fits _ =>
      rfl
  | evicting _ _ _ _ =>
      rfl

/-- **What an admission does.** -/
theorem admit_run_outcome (h : Exact s) (key value : Bytes) :
    ∃ r victims t, Outcome s key value r victims t ∧
      (admitWrite key value).run s = (r, t) := by
  by_cases hr : s.Refuses key value
  · exact ⟨_, _, _, Outcome.refused hr, admit_run_of_refuses hr⟩
  by_cases hfits : s.maxmemory = 0 ∨
      s.projected key (cost key value) ≤ s.maxmemory
  · exact ⟨_, _, _, Outcome.fits hfits, admit_run_of_fits hfits⟩
  rw [not_or, not_le] at hfits
  obtain ⟨hlimit, hover⟩ := hfits
  have hpolicy : s.policy ≠ .noeviction :=
    fun hp => hr ⟨hlimit, hover, Or.inl hp⟩
  have hcost : ¬ s.maxmemory < cost key value :=
    fun hc => hr ⟨hlimit, hover, Or.inr hc⟩
  have hmax : s.reclaimed.maxmemory = s.maxmemory :=
    (sameSettings_reclaimed s).maxmemory
  obtain ⟨victims, t, hchooses, hrun⟩ :=
    @evictUntilFits_chooses key (cost key value)
      (s.reclaimed.data.size + 1) s.reclaimed h.reclaimed
      (by rw [hmax]; omega) (Nat.lt_succ_self _)
  refine ⟨_, _, _, Outcome.evicting hr hlimit hover hchooses, ?_⟩
  unfold admitWrite
  simp only [Fallible.run_bind, Fallible.run_get, if_neg hlimit,
    if_neg (not_le.mpr hover), if_neg hpolicy, if_neg hcost,
    dropExpired_run h]
  exact hrun

theorem Outcome.evicted {r : Except Exc Unit}
    (h : Outcome s key value r victims t) :
    t.evicted = s.evicted ++ victims := by
  cases h with
  | refused hr =>
      rw [List.append_nil]
  | fits h =>
      rw [List.append_nil]
  | evicting hr hlimit hover h =>
      rw [h.evicted, (sameSettings_reclaimed s).evicted]
      rfl

theorem Outcome.exact (hs : Exact s) {r : Except Exc Unit}
    (h : Outcome s key value r victims t) : Exact t := by
  cases h with
  | refused hr =>
      exact hs
  | fits h =>
      exact hs
  | evicting hr hlimit hover h =>
      exact h.exact hs.reclaimed

/-- A SET whose time is valid goes on as its admission does. -/
theorem set_run_of_timing {ttl d : Option Int}
    (ht : s.timing ttl = (.ok d, t))
    (hadmitted : (admitWrite key value).run t = (.ok (), u)) :
    (set key value ttl).run s = (.ok (), u.stored key value d) := by
  have htail : (do
      admitWrite key value
      Fallible.modify (fun s => s.write key value)
      Fallible.modify (fun s => s.assignExpires key d)
      Fallible.modify (fun s => s.touch key)).run t =
        (.ok (), u.stored key value d) := by
    simp only [Fallible.run_bind, hadmitted, Fallible.run_modify]
    rfl
  cases ttl with
  | none =>
      cases ht
      exact htail
  | some ttl =>
      simp only [timing] at ht
      split_ifs at ht with hpos hover
      · cases ht
      · cases ht
      · cases ht
        simp only [set, Fallible.run_bind, deadline_run, if_neg hpos,
          if_neg hover, Fallible.run_pure]
        exact htail

end Admission

end KeyValueStore

namespace Commands

open KeyValueStore

variable {py : Interpreter} {s t : KeyValueStore} {key value : Bytes}

section Writes

/-- A SET that is let in. -/
theorem set_effect_stored (h : Exact s) {ttl d : Option Int}
    (ht : s.timing ttl = (.ok d, t)) (hr : ¬ t.Refuses key value) :
    ∃ victims u, Outcome t key value (.ok ()) victims u ∧
      ((Plan.set key value ttl).effect py).run s =
        (.ok ⟨writeFacts (u.stored key value d) key value, Resp.ok⟩,
          reported (u.stored key value d)) := by
  obtain ⟨r, victims, u, houtcome, hadmitted⟩ :=
    admit_run_outcome (h.timed ht) key value
  obtain rfl := houtcome.eq_ok hr
  refine ⟨victims, u, houtcome, Plan.effect_run_ok ?_⟩
  simp only [Plan.attempt]
  rw [Effects.rescue_run_ok (set_run_of_timing ht hadmitted), written_run]

/-- An INCR that is let in. -/
theorem incr_effect_stored (h : Exact s) {n : Int}
    (hn : (s.settled key).counter py key = .ok n)
    (hfits : n + 1 ≤ int64Max)
    (hr : ¬ (s.settled key).Refuses key (str (n + 1))) :
    ∃ victims u, Outcome (s.settled key) key (str (n + 1)) (.ok ()) victims u ∧
      ((Plan.incr key).effect py).run s =
        (.ok ⟨writeFacts (u.rewritten key (str (n + 1))) key (str (n + 1)),
            Resp.encodeInteger (n + 1)⟩,
          reported (u.rewritten key (str (n + 1)))) := by
  obtain ⟨r, victims, u, houtcome, hadmitted⟩ :=
    admit_run_outcome (h.settled key) key (str (n + 1))
  obtain rfl := houtcome.eq_ok hr
  have hincr := incr_run_of_counter h hn hfits
  rw [hadmitted] at hincr
  refine ⟨victims, u, houtcome, Plan.effect_run_ok ?_⟩
  simp only [Plan.attempt, Effects.incr, Fallible.run_bind, hincr,
    written_run]

/-- The keys that a list of facts removes ahead of its last one. -/
def victimsOf : List Write → List Bytes
  | .drop [key] :: f :: fs => key :: victimsOf (f :: fs)
  | _ => []

theorem victimsOf_writes (victims : List Bytes) (key value : Bytes)
    (d : Option Int) :
    victimsOf (victims.map (fun k => .drop [k]) ++ [.put key value d]) =
      victims := by
  induction victims with
  | nil =>
      rfl
  | cons v victims ih =>
      cases victims with
      | nil =>
          rfl
      | cons w victims =>
          simp only [List.map_cons, List.cons_append, victimsOf] at ih ⊢
          rw [ih]

theorem victimsOf_singleton (f : Write) : victimsOf [f] = [] := by
  cases f with
  | drop keys =>
      rcases keys with _ | ⟨key, _ | ⟨key', keys⟩⟩ <;> rfl
  | _ =>
      rfl

/-- The facts a computation reports; none if it raises. -/
def factsOf : Except Exc Effect → List Write
  | .ok effect => effect.facts
  | .error _ => []

/-- A write reports what it evicted. -/
theorem victimsOf_writeFacts (s : KeyValueStore) (key value : Bytes) :
    victimsOf (writeFacts s key value) = s.evicted :=
  victimsOf_writes s.evicted key value (s.expires.lookup key)

/-- A write that has been let in reports the victims of its admission. -/
theorem Outcome.victimsOf_written {s t u : KeyValueStore}
    {key value : Bytes} {r : Except Exc Unit} {victims : List Bytes}
    (h : Outcome s key value r victims t) (hdrained : s.evicted = [])
    (hu : u.evicted = t.evicted) (value' : Bytes) :
    victimsOf (writeFacts u key value') = victims := by
  rw [victimsOf_writeFacts, hu, h.evicted, hdrained, List.nil_append]

end Writes

end Commands

namespace Server

open Commands KeyValueStore

variable {J : Type} [Journal J]

section Selections

/-- A mutation that a failed journal turns away. -/
def turnedAway (py : Interpreter) (state : KeyValueStore × J) : Event → Bool
  | .request parts => isMutation py parts && Journal.failed state.2
  | _ => false

/-- The facts of an event that is not turned away. -/
def recorded (py : Interpreter) (state : KeyValueStore × J)
    (event : Event) : List Write :=
  if turnedAway py state event then [] else asked py state.1 event

/-- The victims selected during a run, in their order. -/
def victimsDuring (py : Interpreter) (state : KeyValueStore × J) :
    List Event → List Bytes
  | [] => []
  | event :: events =>
      victimsOf (recorded py state event) ++
        victimsDuring py ((handle py event).run state).2 events

end Selections

section Events

/-- What the journal makes of a computation on the store: the reply, and the
journal after the facts. -/
def committed (r : Except Exc Effect) (j : J) : Except Exc (Option Bytes) × J :=
  match r with
  | .error e => (.error e, j)
  | .ok effect =>
      match (recordAll effect.facts).run j with
      | (.ok _, j') => (.ok (some effect.reply), j')
      | (.error e, j') =>
          match errorReply e with
          | some reply => (.ok (some reply), j')
          | none => (.error e, j')

variable {py : Interpreter} {s t : KeyValueStore} {j : J}

/-- A request that is turned away. -/
theorem handle_request_away {parts : List Bytes}
    (haway : turnedAway py (s, j) (.request parts) = true) :
    (handle py (.request parts)).run (s, j) =
      (.ok (some (Resp.encodeError persistenceError)), (s, j)) := by
  have hfailed : (isMutation py parts && Journal.failed j) = true := haway
  simp only [handle, Fallible.run_bind, dispatch_run, if_pos hfailed,
    Fallible.run_pure]

/-- Any other request. -/
theorem handle_request_run {parts : List Bytes} {r : Except Exc Effect}
    (haway : ¬ turnedAway py (s, j) (.request parts) = true)
    (hrun : ((plan py parts).effect py).run s = (r, t)) :
    (handle py (.request parts)).run (s, j) =
      ((committed r j).1, (t, (committed r j).2)) := by
  have hworks : ¬ (isMutation py parts && Journal.failed j) = true := haway
  simp only [handle, Fallible.run_bind, dispatch_run, if_neg hworks,
    execute_eq_plan, hrun]
  unfold committed
  cases r with
  | error e =>
      rfl
  | ok effect =>
      simp only
      rcases (recordAll effect.facts).run j with ⟨e | _, j'⟩
      · simp only
        cases errorReply e <;> rfl
      · rfl

theorem handle_fsync_run (py : Interpreter) (s t : KeyValueStore) (j : J) :
    (handle py .fsync).run (t, j) =
      (((handle py .fsync).run (s, j)).1,
        (t, ((handle py .fsync).run (s, j)).2.2)) := by
  simp only [handle, fsyncCycle, Fallible.run_bind, Fallible.run_catching,
    Fallible.run_onSnd]
  rcases (Journal.sync : Fallible Exc J Unit).run j with ⟨e | _, j'⟩
  · cases e <;> rfl
  · rfl

/-- Where an event takes the store, whatever the journal. -/
theorem handle_store (py : Interpreter) (state : KeyValueStore × J)
    (event : Event) :
    ((handle py event).run state).2.1 =
      if turnedAway py state event then state.1
      else onward py state.1 event := by
  obtain ⟨s, j⟩ := state
  cases event with
  | request parts =>
      by_cases haway : turnedAway py (s, j) (.request parts) = true
      · rw [if_pos haway, handle_request_away haway]
      · have hrun : ((plan py parts).effect py).run s =
            (((execute py parts).run s).1, onward py s (.request parts)) := by
          rw [← execute_eq_plan]
          rfl
        rw [if_neg haway, handle_request_run haway hrun]
  | sweep limit =>
      simp only [handle, onStore, Fallible.run_bind, Fallible.run_onFst,
        turnedAway, onward]
      rcases (sweepExpired limit).run s with ⟨e | n, t⟩ <;> rfl
  | fsync =>
      rw [handle_fsync_run py s s j]
      rfl

end Events

end Server

end PyRedis
