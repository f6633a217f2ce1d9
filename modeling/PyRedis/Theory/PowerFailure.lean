import PyRedis.Core.Disk
import PyRedis.Theory.CommandAtomicity
import PyRedis.Theory.JournalChoice
import PyRedis.Theory.JournalFailure

/-!
# What a power failure takes

The journal over a file that remembers what was committed does the same as the
journal without this memory.  What is committed only grows; under `always` it
is everything, as long as no call has failed; and after a turn of
`_fsync_cycle` that did not fail it is everything by then.  So a power failure
takes the server back to a boundary between two commands that is not before
the last commit, whatever calls failed in the meantime.
-/

namespace PyRedis

open Foundation

namespace DurableFile

section Shadow

/-- The same journal, without the memory of what was committed. -/
def Shadows (d : DurableFile) (j : AppendOnlyFile) : Prop :=
  d.journal = j

/-- Two steps that do the same to the journal. -/
abbrev SameSteps {ε : Type} (x : Fallible ε DurableFile Unit)
    (y : Fallible ε AppendOnlyFile Unit) : Prop :=
  Fallible.Mirrors Shadows (fun _ => False) x y

theorem nothing_broken {ε α : Type} (x : Fallible ε DurableFile α) :
    Fallible.Preserves (fun _ => False) x :=
  fun _ h => h.elim

theorem sameSteps_onFile (x : Fallible Unit BinaryFile Unit) :
    SameSteps (onFile x) (AppendOnlyFile.onFile x) := by
  rintro d j rfl
  exact Together.same _ rfl

theorem sameSteps_fsync :
    SameSteps fsync (AppendOnlyFile.onFile BinaryFile.fsync) := by
  rintro d j rfl
  simp only [fsync, Fallible.run_bind]
  have hrun : (onFile BinaryFile.fsync).run d =
      (((AppendOnlyFile.onFile BinaryFile.fsync).run d.journal).1,
        { d with journal :=
          ((AppendOnlyFile.onFile BinaryFile.fsync).run d.journal).2 }) := rfl
  rw [hrun]
  rcases (AppendOnlyFile.onFile BinaryFile.fsync).run d.journal with
    ⟨e | _, j'⟩
  · exact Together.same _ rfl
  · exact Together.same _ rfl

theorem sameSteps_attempt (action : String)
    {x : Fallible Unit DurableFile Unit}
    {y : Fallible Unit AppendOnlyFile Unit} (h : SameSteps x y) :
    SameSteps (attempt action x) (AppendOnlyFile.attempt action y) := by
  intro d j hdj
  have hsteps := h d j hdj
  simp only [Fallible.run, attempt, AppendOnlyFile.attempt] at hsteps ⊢
  generalize x d = p at hsteps
  generalize y j = q at hsteps
  cases hsteps with
  | @same d' j' r hrelated =>
      obtain rfl : d'.journal = j' := hrelated
      cases r with
      | error e =>
          exact Together.same _ rfl
      | ok a =>
          exact Together.same _ rfl
  | broken r r' hb =>
      exact hb.elim

theorem sameSteps_append (record : Bytes) :
    SameSteps (append record) (AppendOnlyFile.append record) := by
  rintro d j rfl
  simp only [append, AppendOnlyFile.append, Fallible.run_bind,
    Fallible.run_get, Fallible.run_ite]
  split_ifs with hfailed hpolicy
  · exact Together.same _ rfl
  · refine sameSteps_attempt "append" ?_ d d.journal rfl
    refine (sameSteps_onFile _).bind (fun _ => ?_)
      fun _ => nothing_broken _
    refine (sameSteps_onFile _).bind (fun _ => sameSteps_fsync)
      fun _ => nothing_broken _
  · refine sameSteps_attempt "append" ?_ d d.journal rfl
    refine (sameSteps_onFile _).bind (fun _ => ?_)
      fun _ => nothing_broken _
    exact (sameSteps_onFile _).bind (fun _ => Fallible.Mirrors.pure ())
      fun _ => nothing_broken _

theorem sameSteps_sync : SameSteps sync AppendOnlyFile.sync := by
  rintro d j rfl
  simp only [sync, AppendOnlyFile.sync, Fallible.run_bind,
    Fallible.run_get, Fallible.run_ite]
  split_ifs with hfailed
  · exact Together.same _ rfl
  · refine sameSteps_attempt "fsync" ?_ d d.journal rfl
    exact (sameSteps_onFile _).bind (fun _ => sameSteps_fsync)
      fun _ => nothing_broken _

/-- **The memory of what was committed changes nothing.** -/
theorem answerAlike_journal :
    Server.AnswerAlike Shadows (fun _ => False) where
  failed := by
    rintro d j rfl
    rfl
  append := sameSteps_append
  sync := sameSteps_sync
  broken _ := nothing_broken _

end Shadow

section Calls

variable {I : DurableFile → Prop}

/-- What every call on the file keeps, and giving up as well. -/
structure KeptByCalls (I : DurableFile → Prop) : Prop where
  call : ∀ x : Fallible Unit BinaryFile Unit,
    (∀ f, f.content.length ≤ (x.run f).2.content.length) →
      Fallible.Preserves I (onFile x)
  fsync : Fallible.Preserves I fsync
  fail : ∀ d, I d →
    I { d with journal := { d.journal with hasFailed := true } }

/-- The run of a `try` whose `OSError` makes the journal fail. -/
theorem attempt_cases (action : String) (x : Fallible Unit DurableFile Unit)
    (d : DurableFile) :
    (∃ d', x.run d = (.ok (), d') ∧ (attempt action x).run d = (.ok (), d')) ∨
      ∃ e d', x.run d = (.error e, d') ∧
        ((attempt action x).run d).2 =
          { d' with journal := { d'.journal with hasFailed := true } } := by
  simp only [Fallible.run, attempt]
  rcases x d with ⟨e | _, d'⟩
  · exact Or.inr ⟨e, d', rfl, rfl⟩
  · exact Or.inl ⟨d', rfl, rfl⟩

/-- Calls only add to a file. -/
theorem length_moveOut (f : BinaryFile) (n : Nat) :
    f.content.length ≤ (f.moveOut n).content.length := by
  simp [BinaryFile.moveOut]

theorem length_write (record : Bytes) (f : BinaryFile) :
    f.content.length ≤ ((BinaryFile.write record).run f).2.content.length :=
  length_moveOut { f with buffered := f.buffered ++ record } f.outcome.moved

theorem length_flush (f : BinaryFile) :
    f.content.length ≤ (BinaryFile.flush.run f).2.content.length := by
  simp only [BinaryFile.flush, Fallible.run]
  split_ifs
  · exact length_moveOut f _
  · exact length_moveOut f _

theorem KeptByCalls.attempt (h : KeptByCalls I) (action : String)
    {x : Fallible Unit DurableFile Unit} (hx : Fallible.Preserves I x) :
    Fallible.Preserves I (attempt action x) := by
  refine Fallible.Preserves.of_state_after fun d hd => ?_
  have hafter := hx.state_after hd
  rcases attempt_cases action x d with ⟨d', hrun, hdone⟩ |
    ⟨e, d', hrun, hdone⟩
  · rw [hrun] at hafter
    rwa [hdone]
  · rw [hrun] at hafter
    rw [hdone]
    exact h.fail _ hafter

theorem KeptByCalls.append (h : KeptByCalls I) (record : Bytes) :
    Fallible.Preserves I (append record) := by
  refine Fallible.Preserves.get.bind fun d => Fallible.Preserves.ite
    (Fallible.Preserves.raise _) (h.attempt _ ?_)
  refine (h.call _ (length_write record)).bind fun _ =>
    (h.call _ length_flush).bind fun _ => ?_
  exact Fallible.Preserves.ite h.fsync (Fallible.Preserves.pure ())

theorem KeptByCalls.sync (h : KeptByCalls I) :
    Fallible.Preserves I sync := by
  refine Fallible.Preserves.get.bind fun d => Fallible.Preserves.ite
    (Fallible.Preserves.pure ()) (h.attempt _ ?_)
  exact (h.call _ length_flush).bind fun _ => h.fsync

end Calls

section Committed

/-- At least so much is committed, and no more than there is. -/
def Commits (n : Nat) (d : DurableFile) : Prop :=
  n ≤ d.committed ∧ d.committed ≤ d.journal.file.content.length

/-- **What is committed stays so.** -/
theorem keptByCalls_commits (n : Nat) : KeptByCalls (Commits n) where
  call x hx := Fallible.Preserves.of_state_after fun d hd =>
    ⟨hd.1, hd.2.trans (hx d.journal.file)⟩
  fsync := by
    have hcall : Fallible.Preserves (Commits n)
        (onFile BinaryFile.fsync) :=
      Fallible.Preserves.of_state_after fun d hd =>
        ⟨hd.1, hd.2.trans (length_moveOut d.journal.file 0)⟩
    refine hcall.bind fun _ => ?_
    exact Fallible.Preserves.of_state_after fun d hd =>
      ⟨hd.1.trans hd.2, le_rfl⟩
  fail _ hd := hd

/-- The policy of a journal is never changed. -/
theorem keptByCalls_policy (p : FsyncPolicy) :
    KeptByCalls fun d => d.journal.policy = p where
  call _ _ := Fallible.Preserves.of_state_after fun _ hd => hd
  fsync := by
    have hcall : Fallible.Preserves
        (fun d : DurableFile => d.journal.policy = p)
        (onFile BinaryFile.fsync) :=
      Fallible.Preserves.of_state_after fun _ hd => hd
    exact hcall.bind fun _ =>
      Fallible.Preserves.of_state_after fun _ hd => hd
  fail _ hd := hd

end Committed

section All

/-- Everything that is in the file is committed. -/
def AllCommitted (d : DurableFile) : Prop :=
  d.committed = d.journal.file.content.length

/-- A call that ends with `os.fsync` and returns has committed everything. -/
theorem fsync_commits (d : DurableFile) :
    Fallible.Triple fsync d (fun _ => AllCommitted) (fun _ _ => True) := by
  have hcall : Fallible.Triple (onFile BinaryFile.fsync) d
      (fun _ _ => True) (fun _ _ => True) := by
    unfold Fallible.Triple
    split <;> trivial
  exact Fallible.Triple.bind hcall fun _ _ _ => Fallible.Triple.modify rfl

theorem triple_bind_last {α β : Type} {x : Fallible Unit DurableFile α}
    {k : α → Fallible Unit DurableFile β} {Q : β → DurableFile → Prop}
    (h : ∀ a d, Fallible.Triple (k a) d Q (fun _ _ => True))
    (d : DurableFile) : Fallible.Triple (x >>= k) d Q (fun _ _ => True) := by
  have hx : Fallible.Triple x d (fun _ _ => True) (fun _ _ => True) := by
    unfold Fallible.Triple
    split <;> trivial
  exact Fallible.Triple.bind hx fun a t _ => h a t

/-- Either the journal has given up, or everything is committed. -/
theorem attempt_commits {action : String} {x : Fallible Unit DurableFile Unit}
    {d : DurableFile} (hx : Fallible.Triple x d (fun _ => AllCommitted)
      (fun _ _ => True)) :
    ((attempt action x).run d).2.journal.hasFailed = true ∨
      AllCommitted ((attempt action x).run d).2 := by
  rcases attempt_cases action x d with ⟨d', hrun, hdone⟩ |
    ⟨e, d', hrun, hdone⟩
  · rw [hdone]
    exact Or.inr (hx.ok hrun)
  · rw [hdone]
    exact Or.inl rfl

/-- `always`: an append that returns has committed everything. -/
theorem append_commits {d : DurableFile} (h : d.journal.policy = .always)
    (record : Bytes) :
    ((append record).run d).2.journal.hasFailed = true ∨
      AllCommitted ((append record).run d).2 := by
  simp only [append, Fallible.run_bind, Fallible.run_get, Fallible.run_ite]
  split_ifs with hfailed
  · exact Or.inl hfailed
  · refine attempt_commits (triple_bind_last (fun _ => ?_) d)
    exact triple_bind_last fun _ => fsync_commits

/-- A turn of `_fsync_cycle`. -/
theorem sync_commits (d : DurableFile) :
    (sync.run d).2.journal.hasFailed = true ∨ AllCommitted (sync.run d).2 := by
  simp only [sync, Fallible.run_bind, Fallible.run_get, Fallible.run_ite]
  split_ifs with hfailed
  · exact Or.inl hfailed
  · exact attempt_commits (triple_bind_last (fun _ => fsync_commits) d)

/-- Under `always`: as long as no call has failed, everything is committed, or
nothing has been written to what there was. -/
def UpToDate (before : Bytes) (d : DurableFile) : Prop :=
  d.journal.policy = .always ∧
    (d.journal.hasFailed = true ∨ AllCommitted d ∨
      d.journal.file.content = before)

variable {before : Bytes}

theorem preserves_upToDate_append (record : Bytes) :
    Fallible.Preserves (UpToDate before) (append record) :=
  Fallible.Preserves.of_state_after fun _ hd =>
    ⟨((keptByCalls_policy .always).append record).state_after hd.1,
      (append_commits hd.1 record).imp_right Or.inl⟩

theorem preserves_upToDate_sync :
    Fallible.Preserves (UpToDate before) sync :=
  Fallible.Preserves.of_state_after fun d hd =>
    ⟨(keptByCalls_policy .always).sync.state_after hd.1,
      (sync_commits d).imp_right Or.inl⟩

end All

end DurableFile

namespace Server

open Commands KeyValueStore Aof AppendOnlyFile

section Journals

variable {py : Interpreter}

/-- What the journal keeps when it is handed a record and when it is synced, it
keeps at every event. -/
theorem preserves_journal {J : Type} [Journal J] {I : J → Prop}
    (happend : ∀ record, Fallible.Preserves I
      (Journal.append record : Fallible Exc J Unit))
    (hsync : Fallible.Preserves I (Journal.sync : Fallible Exc J Unit))
    (event : Event) :
    Fallible.Preserves (fun p : KeyValueStore × J => I p.2)
      (handle py event) := by
  cases event with
  | request parts =>
      refine Fallible.Preserves.bind (Fallible.Preserves.of_state_after ?_)
        fun _ => Fallible.Preserves.pure _
      rintro ⟨s, j⟩ hj
      by_cases hrefused : (isMutation py parts && Journal.failed j) = true
      · rw [dispatch_run, if_pos hrefused]
        exact hj
      · rw [dispatch_concluded hrefused]
        rcases (execute py parts).run s with ⟨e | effect, t⟩
        · exact hj
        · have hrecords : Fallible.Preserves I
              (recordAll effect.facts : Fallible Exc J Unit) :=
            Fallible.Preserves.forEach fun f _ => happend (encodeFact f)
          exact hrecords.state_after hj
  | sweep limit =>
      refine Fallible.Preserves.bind (Fallible.Preserves.of_state_after ?_)
        fun _ => Fallible.Preserves.pure _
      exact fun _ hj => hj
  | fsync =>
      refine Fallible.Preserves.bind (Fallible.Preserves.of_state_after ?_)
        fun _ => Fallible.Preserves.pure _
      rintro ⟨s, j⟩ hj
      rw [fsyncCycle_run]
      exact hsync.state_after hj

/-- What every event keeps, every run keeps. -/
theorem preserves_run {J : Type} [Journal J]
    {I : KeyValueStore × J → Prop}
    (h : ∀ event, Fallible.Preserves I (handle py event))
    {state : KeyValueStore × J} (hstate : I state) (events : List Event) :
    I (afterEvents py state events) := by
  induction events generalizing state with
  | nil =>
      exact hstate
  | cons event events ih =>
      exact ih ((h event).state_after hstate)

end Journals

section Commits

variable {py : Interpreter} {s : KeyValueStore} {d : DurableFile}

/-- The server over the file that remembers what was committed is the server
over the file. -/
theorem shadow_run (py : Interpreter) (s : KeyValueStore) (d : DurableFile)
    (events : List Event) :
    (afterEvents py (s, d) events).1 =
        (afterEvents py (s, d.journal) events).1 ∧
      (afterEvents py (s, d) events).2.journal =
        (afterEvents py (s, d.journal) events).2 := by
  induction events generalizing s d with
  | nil =>
      exact ⟨rfl, rfl⟩
  | cons event events ih =>
      rw [afterEvents_cons, afterEvents_cons]
      have hevent := DurableFile.answerAlike_journal.handle py event
        (show DurableFile.Shadows d d.journal from rfl) (s := s)
      generalize (handle py event).run (s, d) = p at hevent
      generalize (handle py event).run (s, d.journal) = q at hevent
      cases hevent with
      | @same p' q' r hrelated =>
          obtain ⟨t, d'⟩ := p'
          obtain ⟨t', j'⟩ := q'
          obtain ⟨hstore, hjournal⟩ := hrelated
          obtain rfl : t = t' := hstore
          obtain rfl : d'.journal = j' := hjournal
          exact ih t d'
      | broken r r' hb =>
          exact hb.2.elim

theorem committed_grows {state : KeyValueStore × DurableFile}
    (events : List Event)
    (h : state.2.committed ≤ state.2.journal.file.content.length) :
    DurableFile.Commits state.2.committed
      (afterEvents py state events).2 := by
  have hkept := DurableFile.keptByCalls_commits state.2.committed
  have hstart : DurableFile.Commits state.2.committed state.2 := ⟨le_rfl, h⟩
  exact preserves_run (preserves_journal hkept.append hkept.sync) hstart
    events

/-- Under `always` a journal that has not failed has committed everything that
it has written. -/
theorem always_commits (events : List Event)
    (hpolicy : d.journal.policy = .always)
    (hworks : (afterEvents py (s, d) events).2.journal.hasFailed = false) :
    DurableFile.AllCommitted (afterEvents py (s, d) events).2 ∨
      (afterEvents py (s, d) events).2.journal.file.content =
        d.journal.file.content := by
  have hstart : DurableFile.UpToDate d.journal.file.content (s, d).2 :=
    ⟨hpolicy, Or.inr (Or.inr rfl)⟩
  have hlast : DurableFile.UpToDate d.journal.file.content
      (afterEvents py (s, d) events).2 :=
    preserves_run (preserves_journal DurableFile.preserves_upToDate_append
      DurableFile.preserves_upToDate_sync) hstart events
  rcases hlast.2 with hfailed | hdone
  · rw [hworks] at hfailed
    cases hfailed
  · exact hdone

/-- A turn of `_fsync_cycle` that did not fail has committed everything. -/
theorem cycle_commits (events : List Event)
    (hworks : (afterEvents py (s, d)
      (events ++ [.fsync])).2.journal.hasFailed = false) :
    DurableFile.AllCommitted
      (afterEvents py (s, d) (events ++ [.fsync])).2 := by
  rw [afterEvents_append] at hworks ⊢
  generalize afterEvents py (s, d) events = state at hworks ⊢
  obtain ⟨t, d'⟩ := state
  have hlast : (afterEvents py (t, d') [.fsync]).2 =
      (DurableFile.sync.run d').2 := by
    rw [afterEvents_cons, afterEvents_nil]
    simp only [handle, Fallible.run_bind, fsyncCycle_run]
    cases suppressed _ <;> rfl
  rw [hlast] at hworks ⊢
  rcases DurableFile.sync_commits d' with hfailed | hcommitted
  · rw [hworks] at hfailed
    cases hfailed
  · exact hcommitted

end Commits

section Outages

variable {py : Interpreter} {outcomes : Nat → IoOutcome} {content : Bytes}
variable {fs : List Write} {state : KeyValueStore × AppendOnlyFile}

/-- Whatever calls fail, the file only grows and the clock only goes on. -/
theorem Logged.onwards {events : List Event}
    (h : Logged py outcomes content fs state)
    (hevents : ∀ event ∈ events, ReadableEvent py event) :
    content <+: (afterEvents py state events).2.file.content ∧
      state.1.clock.Extends (afterEvents py state events).1.clock := by
  induction events generalizing content fs state with
  | nil =>
      exact ⟨by rw [afterEvents_nil, h.working.content],
        Clock.Extends.refl _⟩
  | cons event events ih =>
      have hevent := hevents event (by simp)
      have hlater : ∀ e ∈ events, ReadableEvent py e :=
        fun e he => hevents e (List.mem_cons_of_mem _ he)
      have hclock := h.extends_event hevent
      rw [afterEvents_cons]
      obtain ⟨hstore, hnext | ⟨-, n, hbroken⟩⟩ := h.run_event hevent
      · obtain ⟨hbytes, hlast⟩ := ih hnext hlater
        exact ⟨(List.prefix_append _ _).trans hbytes, hclock.trans hlast⟩
      · have hstep := h.step hevent
        rw [← hstore] at hstep
        obtain ⟨hevolves, -, hjournal⟩ := run_events_of_failed hbroken.failed
          (hstep.serving h.serving)
          (printable_of_extends hclock h.printable) hlater
        rw [hjournal, hbroken.content]
        exact ⟨List.prefix_append _ _, hclock.trans hevolves.clock⟩

/-- The keyspace right after an event whose records are all in the file. -/
theorem Logged.reloads_after (h : Logged py outcomes content fs state)
    {event : Event} (hevent : ReadableEvent py event) :
    Reloads py (content ++ encodeFacts (asked py state.1 event))
      ((handle py event).run state).2.1.clock.Reached
      ((handle py event).run state).2.1.keyspace := by
  have hstep := h.step hevent
  rw [(h.run_event hevent).1]
  refine reloads_of_logOf (h.log.append hstep.facts) fun v hv => ?_
  rw [replay_append]
  exact (h.tracks.evolve h.monotone hstep.evolves v hv).symm

/-- **A beginning of the file that has everything from before a run** recovers
a boundary of the run, less some of the keys that the next event evicted;
calls may have failed in the meantime. -/
theorem Logged.outage {events : List Event}
    (h : Logged py outcomes content fs state)
    (hevents : ∀ event ∈ events, ReadableEvent py event) {cut : Bytes}
    (hkept : content <+: cut)
    (hcut : cut <+: (afterEvents py state events).2.file.content) :
    ∃ before later lost, events = before ++ later ∧
      LostTo py (afterEvents py state before).1 later lost ∧
      Reloads py cut (afterEvents py state events).1.clock.Reached
        ((Fact.drop lost).apply (afterEvents py state before).1.keyspace) := by
  induction events generalizing content fs state with
  | nil =>
      rw [afterEvents_nil, h.working.content] at hcut
      obtain rfl : content = cut :=
        List.Sublist.antisymm hkept.sublist hcut.sublist
      refine ⟨[], [], [], rfl, LostTo.nothing [], ?_⟩
      rw [drop_nil_apply]
      exact reloads_of_logOf h.log fun v hv => (h.tracks v hv).symm
  | cons event events ih =>
      have hevent := hevents event (by simp)
      have hlater : ∀ e ∈ events, ReadableEvent py e :=
        fun e he => hevents e (List.mem_cons_of_mem _ he)
      have hfinal := (h.onwards hevents).2
      obtain ⟨rest, rfl⟩ := hkept
      -- a cut within the records of this event
      have hinside : ∀ n, rest <+:
          (encodeFacts (asked py state.1 event)).take n →
          rest.length < (encodeFacts (asked py state.1 event)).length →
          ∃ before later lost, event :: events = before ++ later ∧
            LostTo py (afterEvents py state before).1 later lost ∧
            Reloads py (content ++ rest)
              (afterEvents py state (event :: events)).1.clock.Reached
              ((Fact.drop lost).apply
                (afterEvents py state before).1.keyspace) := by
        intro n hrest hless
        have htake := List.prefix_iff_eq_take.mp
          (hrest.trans (List.take_prefix _ _))
        obtain ⟨lost, hlost, hreloads⟩ :=
          h.cut hevent rest.length hless events
        rw [← htake] at hreloads
        exact ⟨[], event :: events, lost, rfl, hlost,
          hreloads.mono fun v hv => hfinal.reached hv⟩
      obtain ⟨hstore, hnext | ⟨-, n, hbroken⟩⟩ := h.run_event hevent
      · have hbytes := (hnext.onwards hlater).1
        by_cases hless : rest.length <
            (encodeFacts (asked py state.1 event)).length
        · have hbegins := List.prefix_of_prefix_length_le hcut hbytes
            (by rw [List.length_append, List.length_append]; omega)
          rw [List.prefix_append_right_inj] at hbegins
          refine hinside (encodeFacts (asked py state.1 event)).length ?_
            hless
          rwa [List.take_length]
        · have hbehind := List.prefix_of_prefix_length_le hbytes hcut
            (by rw [List.length_append, List.length_append]; omega)
          obtain ⟨before, later, lost, rfl, hlost, hreloads⟩ :=
            ih hnext hlater hbehind hcut
          exact ⟨event :: before, later, lost, rfl, hlost, hreloads⟩
      · have hstep := h.step hevent
        rw [← hstore] at hstep
        have hclock := h.extends_event hevent
        obtain ⟨hevolves, -, hjournal⟩ := run_events_of_failed hbroken.failed
          (hstep.serving h.serving)
          (printable_of_extends hclock h.printable) hlater
        rw [afterEvents_cons, hjournal, hbroken.content,
          List.prefix_append_right_inj] at hcut
        by_cases hless : rest.length <
            (encodeFacts (asked py state.1 event)).length
        · exact hinside n hcut hless
        · -- all of its records are there, and nothing was written after them
          have hall : rest = encodeFacts (asked py state.1 event) := by
            have hbegins := hcut.trans (List.take_prefix _ _)
            exact hbegins.eq_of_length_le (by omega)
          refine ⟨[event], events, [], rfl, LostTo.nothing _, ?_⟩
          rw [drop_nil_apply, hall]
          exact (h.reloads_after hevent).mono fun v hv =>
            hevolves.clock.reached hv

/-- The server over a file of which so much had been committed when it was
opened. -/
def onDisk (start : KeyValueStore × AppendOnlyFile) (committed : Nat) :
    KeyValueStore × DurableFile :=
  (start.1, ⟨start.2, committed⟩)

/-- Where a run is committed: at its start; under `always` anywhere; and else
after a turn of `_fsync_cycle`. -/
def CommitPoint (fsync : FsyncPolicy) (events : List Event) : Prop :=
  events = [] ∨ fsync = .always ∨ ∃ earlier, events = earlier ++ [.fsync]

theorem policy_of_recover {fsync : FsyncPolicy} {store : KeyValueStore}
    {log : LogFile} {start : KeyValueStore × AppendOnlyFile}
    (h : recover py fsync outcomes store log = .ok start) :
    start.2.policy = fsync := by
  obtain ⟨_, _, -, hjournal⟩ := load_of_recover h
  rw [hjournal]
  rfl

/-- At a commit point a journal that has not failed has committed all that
was written since it was opened. -/
theorem committed_at_point {fsync : FsyncPolicy}
    {start : KeyValueStore × AppendOnlyFile} {committed : Nat}
    {events : List Event} (hpolicy : start.2.policy = fsync)
    (hpoint : CommitPoint fsync events)
    (hworks : (afterEvents py (onDisk start committed)
      events).2.journal.hasFailed = false) :
    DurableFile.AllCommitted
        (afterEvents py (onDisk start committed) events).2 ∨
      (afterEvents py (onDisk start committed)
        events).2.journal.file.content = start.2.file.content := by
  rcases hpoint with rfl | rfl | ⟨earlier, rfl⟩
  · exact Or.inr rfl
  · exact always_commits events hpolicy hworks
  · exact Or.inl (cycle_commits earlier hworks)

/-- **A power failure spares what was committed.**  Calls on the file may fail
in any way, and of what was not committed the disk may keep any beginning, but
all that the file held when it was opened: to load a log does not commit it.
Take any commit point of a run at which the journal had not failed: what is
recovered is a boundary between two commands that is not before this point,
less some of the keys that the next command evicted.  So under `always`
nothing that was acknowledged is lost, and under `everysec` nothing from
before the last turn of `_fsync_cycle`. -/
theorem power_failure_spares_commits {fsync : FsyncPolicy} {clock : Clock}
    {maxmemory : Int} {policy : MaxmemoryPolicy} {log : LogFile}
    {start : KeyValueStore × AppendOnlyFile} {before later : List Event}
    {committed : Nat} {cut : Bytes}
    (hmono : clock.Monotone) (hprint : Printable py clock)
    (hstart : recover py fsync outcomes (init clock maxmemory policy) log =
      .ok start)
    (hevents : ∀ event ∈ before ++ later, ReadableEvent py event)
    (hpoint : CommitPoint fsync before)
    (hworks : (afterEvents py (onDisk start committed)
      before).2.journal.hasFailed = false)
    (hkept : start.2.file.content <+: cut)
    (hcut : cut <+: (afterEvents py (onDisk start committed)
      (before ++ later)).2.journal.file.content)
    (hdisk : (afterEvents py (onDisk start committed)
      (before ++ later)).2.committed ≤ cut.length) :
    ∃ middle rest lost, later = middle ++ rest ∧
      LostTo py (afterEvents py (onDisk start committed)
        (before ++ middle)).1 rest lost ∧
      Reloads py cut
        (afterEvents py (onDisk start committed)
          (before ++ later)).1.clock.Reached
        ((Fact.drop lost).apply (afterEvents py (onDisk start committed)
          (before ++ middle)).1.keyspace) := by
  have hbefore : ∀ event ∈ before, ReadableEvent py event :=
    fun event hevent => hevents event (List.mem_append_left _ hevent)
  have hlater : ∀ event ∈ later, ReadableEvent py event :=
    fun event hevent => hevents event (List.mem_append_right _ hevent)
  have hshadow : ∀ events,
      (afterEvents py (onDisk start committed) events).1 =
          (afterEvents py start events).1 ∧
        (afterEvents py (onDisk start committed) events).2.journal =
          (afterEvents py start events).2 :=
    fun events => shadow_run py start.1 ⟨start.2, committed⟩ events
  have hall := committed_at_point (policy_of_recover hstart) hpoint hworks
  obtain ⟨fs, hlogged⟩ := logged_of_recover hmono hprint hstart
  rcases hlogged.run_or_fail hbefore with ⟨content', fs', hpassed⟩ |
    ⟨_, _, _, -, hfail⟩
  · have hcontent := hpassed.working.content
    have hgrows := (hpassed.onwards hlater).1
    rw [← afterEvents_append] at hgrows
    have hlength : content'.length ≤ cut.length := by
      rcases hall with hcommitted | hnothing
      · have hmore : _ ≤ (afterEvents py (afterEvents py
            (onDisk start committed) before) later).2.committed :=
          (committed_grows later hcommitted.le).1
        rw [← afterEvents_append, hcommitted, (hshadow before).2,
          hcontent] at hmore
        exact hmore.trans hdisk
      · rw [(hshadow before).2, hcontent] at hnothing
        rw [hnothing]
        exact hkept.length_le
    rw [(hshadow _).2] at hcut
    have hpoint' := List.prefix_of_prefix_length_le hgrows hcut hlength
    rw [afterEvents_append] at hcut
    obtain ⟨middle, rest, lost, rfl, hlost, hreloads⟩ :=
      hpassed.outage hlater hpoint' hcut
    have hboundary := afterEvents_append py start before middle
    have hend := afterEvents_append py start before (middle ++ rest)
    refine ⟨middle, rest, lost, rfl, ?_, ?_⟩
    · rw [(hshadow _).1, hboundary]
      exact hlost
    · rw [(hshadow _).1, (hshadow _).1, hboundary, hend]
      exact hreloads
  · rw [(hshadow before).2, hfail.failed] at hworks
    cases hworks

/-- Under `always`, the third of three writes is not committed: its `os.fsync`
fails. -/
def alwaysStart : KeyValueStore × AppendOnlyFile :=
  freshStart (.frozen 0) 0 .noeviction .always fun i => ⟨0, i == 8⟩

theorem two_writes_survive :
    ∃ middle rest lost, threeWrites.drop 2 = middle ++ rest ∧
      LostTo .default (afterEvents .default (onDisk alwaysStart 0)
        (threeWrites.take 2 ++ middle)).1 rest lost ∧
      Reloads .default
        ((afterEvents .default (onDisk alwaysStart 0)
          threeWrites).2.journal.file.content.take 60)
        (afterEvents .default (onDisk alwaysStart 0)
          (threeWrites.take 2 ++ threeWrites.drop 2)).1.clock.Reached
        ((Fact.drop lost).apply (afterEvents .default (onDisk alwaysStart 0)
          (threeWrites.take 2 ++ middle)).1.keyspace) :=
  power_failure_spares_commits (monotone_frozen 0)
    (printable_frozen (by decide)) (recover_absent _ _ _ _)
    readable_threeWrites (Or.inr (Or.inl rfl)) (by decide +kernel)
    List.nil_prefix (List.take_prefix _ _) (by decide +kernel)

end Outages

end Server
end PyRedis
