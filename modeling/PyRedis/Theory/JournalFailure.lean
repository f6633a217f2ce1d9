import PyRedis.Theory.ServerRuns

/-!
# A journal that fails

The first call that fails ends the log.  Until then the log shows what the
server shows, and an acknowledged change is in the file.  From then on every
mutation is refused before it touches the store, so the server drifts from its
log by no more than the one command whose records did not all get there.
-/

namespace PyRedis
namespace Server

open Foundation Commands KeyValueStore Aof AppendOnlyFile

variable {py : Interpreter} {outcomes : Nat → IoOutcome}

section Latch

/-- With a failed journal the store only loses what expires. -/
theorem run_events_of_failed {state : KeyValueStore × AppendOnlyFile}
    {events : List Event} (h : state.2.hasFailed = true)
    (hs : Serving py state.1) (hclock : Printable py state.1.clock)
    (hevents : ∀ event ∈ events, ReadableEvent py event) :
    Evolves state.1 [] (afterEvents py state events).1 ∧
      Serving py (afterEvents py state events).1 ∧
      (afterEvents py state events).2 = state.2 := by
  induction events generalizing state with
  | nil =>
      exact ⟨Evolves.refl state.1, hs, rfl⟩
  | cons event events ih =>
      obtain ⟨s, j⟩ := state
      have hlater : ∀ e ∈ events, ReadableEvent py e :=
        fun e he => hevents e (List.mem_cons_of_mem _ he)
      obtain ⟨t, hrun, ht⟩ := handle_of_failed h hs.exact event
      have hevent : Step py s (asked py s event) (onward py s event) :=
        step_event hs hclock (hevents event (by simp))
      have hstep : Step py s [] t := by
        rcases ht with rfl | ⟨rfl, hasked⟩
        · exact Step.refl hs
        · rwa [hasked] at hevent
      have hrest := @ih (t, j) h (hstep.serving hs)
        (printable_of_extends hstep.evolves.clock hclock) hlater
      rw [afterEvents_cons, hrun]
      exact ⟨hstep.evolves.trans hrest.1, hrest.2⟩

/-- Where a run stands once a call has failed: `event` met the failure, and
some of the bytes of its records are in the file. -/
structure FailedAt (py : Interpreter) (outcomes : Nat → IoOutcome)
    (before : KeyValueStore × AppendOnlyFile) (event : Event)
    (state : KeyValueStore × AppendOnlyFile) : Prop where
  logged : ∃ fs, Logged py outcomes before.2.file.content fs before
  readable : ReadableEvent py event
  evolves : Evolves (onward py before.1 event) [] state.1
  serving : Serving py state.1
  failed : state.2.hasFailed = true
  met : ((handle py event).run before).2.2.hasFailed = true
  content : ∃ n, state.2.file.content = before.2.file.content ++
    (encodeFacts (asked py before.1 event)).take n

/-- **A run either has its log, or has failed at one of its events.** -/
theorem Logged.run_or_fail {content : Bytes} {fs : List Write}
    {state : KeyValueStore × AppendOnlyFile} {events : List Event}
    (h : Logged py outcomes content fs state)
    (hevents : ∀ event ∈ events, ReadableEvent py event) :
    (∃ content' fs', Logged py outcomes content' fs'
        (afterEvents py state events)) ∨
      ∃ before event later, events = before ++ event :: later ∧
        FailedAt py outcomes (afterEvents py state before) event
          (afterEvents py state events) := by
  induction events generalizing content fs state with
  | nil =>
      exact Or.inl ⟨content, fs, h⟩
  | cons event events ih =>
      have hevent := hevents event (by simp)
      have hlater : ∀ e ∈ events, ReadableEvent py e :=
        fun e he => hevents e (List.mem_cons_of_mem _ he)
      obtain ⟨hstore, hnext | ⟨-, n, hbroken⟩⟩ := h.run_event hevent
      · rcases ih hnext hlater with hlogged | ⟨before, e, later, rfl, hfail⟩
        · exact Or.inl hlogged
        · exact Or.inr ⟨event :: before, e, later, rfl, hfail⟩
      · right
        refine ⟨[], event, events, rfl, ?_⟩
        have hstep := h.step hevent
        have hclock := printable_of_extends hstep.evolves.clock h.printable
        rw [← hstore] at hstep hclock
        obtain ⟨hevolves, hserving, hjournal⟩ := run_events_of_failed
          hbroken.failed (hstep.serving h.serving) hclock hlater
        rw [hstore] at hevolves
        refine ⟨⟨fs, ?_⟩, hevent, hevolves, hserving, ?_, hbroken.failed, n, ?_⟩
        · rw [afterEvents_nil, h.working.content]
          exact h
        · rw [afterEvents_cons, hjournal]
          exact hbroken.failed
        · rw [afterEvents_cons, hjournal, afterEvents_nil,
            h.working.content]
          exact hbroken.content

end Latch

section Guarantees

/-- A mutation that is not answered with an error has its records in the file,
behind everything else and in order, by the time it is answered; these records
say all that it did to the store; and there are some if it reports a change. -/
def Acknowledges (py : Interpreter)
    (state : KeyValueStore × AppendOnlyFile) : Prop :=
  ∀ request reply state', ReadableRequest py request →
    isMutation py request = true →
    (dispatch py request).run state = (.ok reply, state') →
    isError reply = false →
    state'.2.file.content = state.2.file.content ++
        encodeFacts (asked py state.1 (.request request)) ∧
      state'.2.file.buffered = [] ∧
      Evolves state.1 (asked py state.1 (.request request)) state'.1 ∧
      (reply ≠ Resp.encodeInteger 0 →
        asked py state.1 (.request request) ≠ [])

/-- The journal and its file are as they are for good, every mutation is
refused and leaves the store alone, and whatever else is asked, what the store
shows changes only by deadlines passing. -/
def Latched (py : Interpreter)
    (state : KeyValueStore × AppendOnlyFile) : Prop :=
  ∀ later : List Event, (∀ event ∈ later, ReadableEvent py event) →
    (afterEvents py state later).2 = state.2 ∧
      (∀ v, (afterEvents py state later).1.clock.Reached v →
        AgreeAt v (afterEvents py state later).1.keyspace
          state.1.keyspace) ∧
      ∀ request, isMutation py request = true →
        (dispatch py request).run (afterEvents py state later) =
          (.ok (Resp.encodeError persistenceError),
            afterEvents py state later)

/-- What the file of a failed journal replays to: the keyspace from just
before the event at which the journal failed, after the first of the facts that
the event asked to be recorded; and exactly what the store shows if none of
these is missing. -/
def Drifts (py : Interpreter) (start : KeyValueStore × AppendOnlyFile)
    (events : List Event) : Prop :=
  ∃ before event later n, events = before ++ event :: later ∧
    (afterEvents py start before).2.hasFailed = false ∧
    (afterEvents py start (before ++ [event])).2.hasFailed = true ∧
    Reloads py (afterEvents py start events).2.file.content
      (afterEvents py start events).1.clock.Reached
      (replay ((asked py (afterEvents py start before).1 event).take n)
        (afterEvents py start before).1.keyspace) ∧
    ((asked py (afterEvents py start before).1 event).length ≤ n →
      Reloads py (afterEvents py start events).2.file.content
        (afterEvents py start events).1.clock.Reached
        (afterEvents py start events).1.keyspace)

variable {state : KeyValueStore × AppendOnlyFile}

theorem Logged.acknowledges {content : Bytes} {fs : List Write}
    (h : Logged py outcomes content fs state) : Acknowledges py state := by
  intro request reply state' hrequest hmutation hrun hreply
  have hstep : Step py state.1 (asked py state.1 (.request request))
      (onward py state.1 (.request request)) := h.step hrequest
  have hasking := @asking_execute py request state.1
  have hworking : Journal.failed state.2 = false := h.working.working
  obtain ⟨s, j⟩ := state
  rw [dispatch_run, hworking, Bool.and_false, if_neg (by simp)] at hrun
  simp only [asked, onward] at hstep ⊢
  rcases hexecute : (execute py request).run s with ⟨e | effect, t⟩
  · rw [hexecute] at hrun
    cases hrun
  · have hasks := hasking.ok hexecute
    rw [hexecute] at hrun hstep
    simp only at hrun hstep ⊢
    have hwrites := AppendOnlyFile.recordAll_run h.working effect.facts
    generalize (recordAll effect.facts).run j = result at hwrites hrun
    cases hwrites with
    | taken htaken =>
        cases hrun
        refine ⟨?_, htaken.flushed, hstep.evolves, ?_⟩
        · rw [htaken.content, h.working.content]
        · intro hchange hnone
          rw [hmutation] at hasks
          cases hasks with
          | nothing reply hsaid =>
              rcases hsaid rfl with herror | hzero
              · rw [hreply] at herror
                cases herror
              · exact hchange hzero
          | fact f reply _ =>
              cases hnone
          | write victims key value d reply _ =>
              simp at hnone
    | failed n hcall hbroken =>
        cases hrun
        rw [isError_encodeError] at hreply
        cases hreply

theorem FailedAt.acknowledges {before : KeyValueStore × AppendOnlyFile}
    {event : Event} (h : FailedAt py outcomes before event state) :
    Acknowledges py state := by
  intro request reply state' _ hmutation hrun hreply
  obtain ⟨s, j⟩ := state
  rw [dispatch_of_failed h.failed hmutation] at hrun
  cases hrun
  rw [isError_encodeError] at hreply
  cases hreply

theorem FailedAt.printable {before : KeyValueStore × AppendOnlyFile}
    {event : Event} (h : FailedAt py outcomes before event state) :
    Printable py state.1.clock := by
  obtain ⟨fs, hlogged⟩ := h.logged
  exact printable_of_extends
    ((hlogged.step h.readable).evolves.clock.trans h.evolves.clock)
    hlogged.printable

theorem FailedAt.latched {before : KeyValueStore × AppendOnlyFile}
    {event : Event} (h : FailedAt py outcomes before event state) :
    Latched py state := by
  intro later hlater
  obtain ⟨hevolves, hserving, hjournal⟩ :=
    run_events_of_failed h.failed h.serving h.printable hlater
  refine ⟨hjournal, ?_, ?_⟩
  · intro v hv
    exact (hevolves.collected v hv).agreeAt
  · intro request hmutation
    have hstill : (afterEvents py state later).2.hasFailed = true := by
      rw [hjournal]
      exact h.failed
    exact dispatch_of_failed hstill hmutation _

theorem FailedAt.drifts {before : KeyValueStore × AppendOnlyFile}
    {event : Event} (h : FailedAt py outcomes before event state) :
    before.2.hasFailed = false ∧ ∃ n,
      Reloads py state.2.file.content state.1.clock.Reached
        (replay ((asked py before.1 event).take n) before.1.keyspace) ∧
      ((asked py before.1 event).length ≤ n →
        Reloads py state.2.file.content state.1.clock.Reached
          state.1.keyspace) := by
  obtain ⟨fs, hlogged⟩ := h.logged
  obtain ⟨m, hcontent⟩ := h.content
  have hstep := hlogged.step h.readable
  have hclock := hstep.evolves.clock.trans h.evolves.clock
  have hwhole : whole m (asked py before.1 event) <+:
      asked py before.1 event := Decoder.wholly_prefix encodeFact m _
  have htake := List.prefix_iff_eq_take.mp hwhole
  obtain ⟨c, hc, hmore⟩ := hlogged.log.extend
  rw [List.append_nil] at hc
  rw [hc] at hcontent
  have hlog := hmore _ hstep.facts m
  rw [← hcontent, htake] at hlog
  refine ⟨hlogged.working.working,
    (whole m (asked py before.1 event)).length, ?_, ?_⟩
  · refine reloads_of_logOf hlog fun v hv => ?_
    rw [replay_append]
    exact (hlogged.tracks.replay_take hlogged.monotone hstep.evolves _
      (hclock.reached hv)).symm
  · intro hall
    rw [List.take_of_length_le hall] at hlog
    refine reloads_of_logOf hlog fun v hv => ?_
    have htracks := hlogged.tracks.evolve hlogged.monotone hstep.evolves
    rw [replay_append]
    exact ((h.evolves.collected v hv).agreeAt.trans
      (htracks v (h.evolves.clock.reached hv))).symm

/-- **A failed journal never drifts by more than one command.**  The calls on
the file may fail in any way.  After any events every acknowledged change is
in the file; a journal that has not failed replays to what the store shows;
and one that has failed is latched, and its file replays to the keyspace from
before the event that met the failure, after some of the facts of that event. -/
theorem failed_journal_drifts_by_one_command {fsync : FsyncPolicy}
    {clock : Clock} {maxmemory : Int} {policy : MaxmemoryPolicy}
    {log : LogFile} {start : KeyValueStore × AppendOnlyFile}
    {events : List Event}
    (hmono : clock.Monotone) (hprint : Printable py clock)
    (hstart : recover py fsync outcomes (init clock maxmemory policy) log =
      .ok start)
    (hevents : ∀ event ∈ events, ReadableEvent py event) :
    Acknowledges py (afterEvents py start events) ∧
      ((afterEvents py start events).2.hasFailed = false →
        Reloads py (afterEvents py start events).2.file.content
          (afterEvents py start events).1.clock.Reached
          (afterEvents py start events).1.keyspace) ∧
      ((afterEvents py start events).2.hasFailed = true →
        Latched py (afterEvents py start events) ∧
          Drifts py start events) := by
  obtain ⟨fs, hlogged⟩ := logged_of_recover hmono hprint hstart
  rcases hlogged.run_or_fail hevents with ⟨content, gs, hafter⟩ |
    ⟨before, event, later, hsplit, hfail⟩
  · refine ⟨hafter.acknowledges, fun _ => ?_, fun hfailed => ?_⟩
    · rw [hafter.working.content]
      exact reloads_of_logOf hafter.log
        fun v hv => (hafter.tracks v hv).symm
    · rw [hafter.working.working] at hfailed
      cases hfailed
  · refine ⟨hfail.acknowledges, fun hworks => ?_, fun _ => ?_⟩
    · rw [hfail.failed] at hworks
      cases hworks
    · obtain ⟨hworked, n, hkept, hall⟩ := hfail.drifts
      have hmet : (afterEvents py start (before ++ [event])).2.hasFailed =
          true := by
        rw [afterEvents_append]
        exact hfail.met
      exact ⟨hfail.latched, before, event, later, n, hsplit, hworked, hmet,
        hkept, hall⟩

/-- A server whose journal fails while it flushes its second record, five of
whose bytes get there. -/
def failingStart : KeyValueStore × AppendOnlyFile :=
  freshStart (.frozen 0) 0 .noeviction .no fun i =>
    if i = 3 then ⟨5, true⟩ else ⟨0, false⟩

theorem drift_of_threeWrites :
    (afterEvents .default failingStart threeWrites).2.hasFailed = true ∧
      Latched .default (afterEvents .default failingStart threeWrites) ∧
      Drifts .default failingStart threeWrites := by
  have hfailed :
      (afterEvents .default failingStart threeWrites).2.hasFailed = true := by
    decide +kernel
  exact ⟨hfailed, (failed_journal_drifts_by_one_command (monotone_frozen 0)
    (printable_frozen (by decide)) (recover_absent _ _ _ _)
    readable_threeWrites).2.2 hfailed⟩

end Guarantees

end Server
end PyRedis
