import PyRedis.Core.Server
import PyRedis.Theory.JournalRuns

/-!
# A server, event by event

What an event does to the store alone, what it asks to be recorded, and how
the journal takes part: one that works is handed the records, one that has
failed turns every mutation away and is handed nothing.

`Logged` is what holds between two events as long as no call has failed: the
file is a log of facts, and these facts, from nothing, make what the store
shows.
-/

namespace PyRedis
namespace Server

open Foundation Commands KeyValueStore Aof

section Effects

theorem afterEvents_nil {J : Type} [Journal J] (py : Interpreter)
    (state : KeyValueStore × J) : afterEvents py state [] = state := by
  rfl

theorem afterEvents_cons {J : Type} [Journal J] (py : Interpreter)
    (state : KeyValueStore × J) (event : Event) (events : List Event) :
    afterEvents py state (event :: events) =
      afterEvents py ((handle py event).run state).2 events := by
  rfl

theorem afterEvents_append {J : Type} [Journal J] (py : Interpreter)
    (state : KeyValueStore × J) (events later : List Event) :
    afterEvents py state (events ++ later) =
      afterEvents py (afterEvents py state events) later :=
  List.foldl_append

/-- The facts an event asks to be recorded. -/
def asked (py : Interpreter) (s : KeyValueStore) : Event → List Write
  | .request parts =>
      match ((execute py parts).run s).1 with
      | .ok effect => effect.facts
      | .error _ => []
  | .sweep _ => []
  | .fsync => []

/-- Where an event takes the store, the journal not looked at. -/
def onward (py : Interpreter) (s : KeyValueStore) : Event → KeyValueStore
  | .request parts => ((execute py parts).run s).2
  | .sweep limit => ((sweepExpired limit).run s).2
  | .fsync => s

/-- The parts of the request, if there is one, can be read back. -/
def ReadableEvent (rd : Interpreter) : Event → Prop
  | .request parts => ReadableRequest rd parts
  | .sweep _ => True
  | .fsync => True

variable {py rd : Interpreter} {s : KeyValueStore} {event : Event}

/-- **Every event takes a step of the store.** -/
theorem step_event (hs : Serving rd s) (hclock : Printable rd s.clock)
    (hevent : ReadableEvent rd event) :
    Step rd s (asked py s event) (onward py s event) := by
  cases event with
  | request parts =>
      have hsteps : Steps rd (execute py parts) s :=
        steps_execute hs hclock hevent
      simp only [asked, onward]
      rcases hrun : (execute py parts).run s with ⟨e | effect, t⟩
      · exact hsteps.error hrun
      · exact hsteps.ok hrun
  | sweep limit =>
      obtain ⟨n, t, hrun, hstep⟩ := step_sweepExpired hs limit
      simp only [asked, onward, hrun]
      exact hstep
  | fsync =>
      exact Step.refl hs

end Effects

section Records

/-- An error reply. -/
def isError (reply : Bytes) : Bool :=
  reply.head? == some 45

theorem isError_encodeError (message : String) :
    isError (Resp.encodeError message) = true := by
  rfl

/-- What a command can ask to be recorded: nothing, one fact, or a write
behind the removals of the keys evicted for it.  Only a mutation asks for
anything, and one that asks for nothing says that nothing changed. -/
inductive Asks (mutates : Bool) : Effect → Prop where
  | nothing (reply : Bytes)
      (h : mutates = true →
        isError reply = true ∨ reply = Resp.encodeInteger 0) :
      Asks mutates ⟨[], reply⟩
  | fact (f : Write) (reply : Bytes) (h : mutates = true) :
      Asks mutates ⟨[f], reply⟩
  | write (victims : List Bytes) (key value : Bytes) (d : Option Int)
      (reply : Bytes) (h : mutates = true) :
      Asks mutates ⟨victims.map (fun k => .drop [k]) ++ [.put key value d],
        reply⟩

/-- Whatever a computation returns is an effect a command can have. -/
def Asking (mutates : Bool) (x : StoreM Effect) : Prop :=
  ∀ s, Fallible.Triple x s (fun effect _ => Asks mutates effect)
    (fun _ _ => True)

section Rules

variable {mutates : Bool}

theorem asking_pure {effect : Effect} (h : Asks mutates effect) :
    Asking mutates (pure effect) :=
  fun _ => h

theorem asking_raise (e : Exc) : Asking mutates (Fallible.raise e) :=
  fun _ => trivial

theorem asking_bind {α : Type} {x : StoreM α} {k : α → StoreM Effect}
    (h : ∀ a, Asking mutates (k a)) : Asking mutates (x >>= k) := by
  intro s
  have hx : Fallible.Triple x s (fun _ _ => True) (fun _ _ => True) := by
    unfold Fallible.Triple
    split <;> trivial
  exact Fallible.Triple.bind hx fun a t _ => h a t

theorem asks_error (message : String) :
    Asks mutates ⟨[], Resp.encodeError message⟩ :=
  Asks.nothing _ fun _ => Or.inl (isError_encodeError message)

theorem asking_rescue {α : Type} {name : String} {x : StoreM α}
    {k : α → StoreM Effect} (h : ∀ a, Asking mutates (k a)) :
    Asking mutates (Effects.rescueInvalidExpire name x k) := by
  intro s
  rcases hx : x.run s with ⟨e | a, t⟩
  · by_cases he : e = .store .invalidExpire
    · subst he
      exact Fallible.Triple.of_ok (Effects.rescue_run_invalid hx)
        (asks_error _)
    · exact Fallible.Triple.of_error (Effects.rescue_run_error hx he) trivial
  · have ha := h a t
    unfold Fallible.Triple at ha ⊢
    rwa [Effects.rescue_run_ok hx]

theorem asking_written (key value reply : Bytes) :
    Asking true (Effects.written key value reply) :=
  asking_bind fun victims => asking_bind fun d =>
    asking_pure (Asks.write victims key value d reply rfl)

end Rules

variable {py : Interpreter}

theorem asking_set (args : List Bytes) : Asking true (Effects.set py args) := by
  rcases args with _ | ⟨key, _ | ⟨value, options⟩⟩
  · exact asking_raise _
  · exact asking_raise _
  · refine asking_bind fun ttl => ?_
    cases ttl with
    | none =>
        exact asking_pure (asks_error _)
    | some ttl =>
        exact asking_rescue fun _ => asking_written key value Resp.ok

theorem asking_expire (args : List Bytes) :
    Asking true (Effects.expire py args) := by
  rcases args with _ | ⟨key, _ | ⟨raw, rest⟩⟩
  · exact asking_raise _
  · exact asking_raise _
  · refine asking_bind fun seconds => asking_rescue fun applied => ?_
    cases applied with
    | false =>
        exact asking_pure (Asks.nothing _ fun _ => Or.inr rfl)
    | true =>
        exact asking_bind fun d => asking_pure (Asks.fact _ _ rfl)

theorem asking_persist (args : List Bytes) :
    Asking true (Effects.persist args) := by
  cases args with
  | nil =>
      exact asking_raise _
  | cons key _ =>
      refine asking_bind fun removed => ?_
      cases removed with
      | false =>
          exact asking_pure (Asks.nothing _ fun _ => Or.inr rfl)
      | true =>
          exact asking_pure (Asks.fact _ _ rfl)

theorem asking_delete (args : List Bytes) :
    Asking true (Effects.delete args) := by
  refine asking_bind fun removed => asking_pure ?_
  by_cases hremoved : removed = 0
  · subst hremoved
    exact Asks.nothing _ fun _ => Or.inr rfl
  · rw [if_pos hremoved]
    exact Asks.fact _ _ rfl

theorem asking_incr (args : List Bytes) :
    Asking true (Effects.incr py args) := by
  cases args with
  | nil =>
      exact asking_raise _
  | cons key _ =>
      exact asking_bind fun updated => asking_written key _ _

theorem asking_flushdb (args : List Bytes) :
    Asking true (Effects.flushdb args) :=
  asking_bind fun _ => asking_pure (Asks.fact _ _ rfl)

theorem asks_reply (reply : Bytes) : Asks false ⟨[], reply⟩ :=
  Asks.nothing reply (by simp)

/-- Every command of the table. -/
theorem asking_effect {name : Bytes} {c : StoreCommand}
    (hc : lookupEffect py name = some c) (args : List Bytes) :
    Asking c.mutates (c.effect args) := by
  apply lookupEffect_cases (motive := fun c => Asking c.mutates (c.effect args)) hc
  case ping =>
    cases args <;> exact asking_pure (asks_reply _)
  case set =>
    exact asking_set args
  case get =>
    cases args with
    | nil =>
        exact asking_raise _
    | cons key _ =>
        exact asking_bind fun _ => asking_pure (asks_reply _)
  case expire =>
    exact asking_expire args
  case ttl =>
    cases args with
    | nil =>
        exact asking_raise _
    | cons key _ =>
        exact asking_bind fun _ => asking_pure (asks_reply _)
  case persist =>
    exact asking_persist args
  case delete =>
    exact asking_delete args
  case «exists» =>
    exact asking_bind fun _ => asking_pure (asks_reply _)
  case incr =>
    exact asking_incr args
  case dbsize =>
    exact asking_bind fun _ => asking_pure (asks_reply _)
  case flushdb =>
    exact asking_flushdb args

/-- **Every request**, answered with a result or with an error. -/
theorem asking_execute (request : List Bytes) :
    Asking (isMutation py request) (execute py request) := by
  cases request with
  | nil =>
      exact asking_raise _
  | cons name args =>
      obtain hc | ⟨c, hc⟩ := (lookupEffect py name).eq_none_or_eq_some
      · simp only [execute, isMutation, hc]
        exact asking_pure (asks_error _)
      · simp only [execute, isMutation, hc]
        by_cases hwrong : c.wrongArity args = true
        · rw [if_pos hwrong]
          exact asking_pure (asks_error _)
        · rw [if_neg hwrong]
          simp only [hwrong, Bool.not_false, Bool.true_and]
          intro s
          refine Fallible.Triple.catching (asking_effect hc args s) ?_
          intro e t _
          cases e with
          | persistence _ =>
              exact Fallible.Triple.pure (asks_error _)
          | store x =>
              exact Fallible.Triple.pure (asks_error _)
          | _ =>
              exact Fallible.Triple.raise trivial

theorem asked_of_not_mutation {request : List Bytes}
    (h : isMutation py request = false) (s : KeyValueStore) :
    asked py s (.request request) = [] := by
  have hasking := @asking_execute py request s
  simp only [asked]
  rcases hrun : (execute py request).run s with ⟨e | effect, t⟩
  · rfl
  · have hasks := hasking.ok hrun
    rw [h] at hasks
    cases hasks with
    | nothing reply _ =>
        rfl
    | fact f reply hf =>
        cases hf
    | write victims key value d reply hf =>
        cases hf

end Records

section Handling

open AppendOnlyFile

variable {py : Interpreter} {outcomes : Nat → IoOutcome} {content : Bytes}
variable {s : KeyValueStore} {j : AppendOnlyFile}

/-- A journal that works is handed what the event asks for. -/
theorem handle_of_working (h : Working outcomes content j)
    (hexact : Exact s) (event : Event) :
    ∃ result, ((handle py event).run (s, j)).2.1 = onward py s event ∧
      Writes outcomes content (encodeFacts (asked py s event))
        (result, ((handle py event).run (s, j)).2.2) := by
  cases event with
  | request parts =>
      have hworking : Journal.failed j = false := h.working
      simp only [handle, Fallible.run_bind, dispatch_run, hworking,
        Bool.and_false, Bool.false_eq_true, if_false, asked, onward]
      rcases (execute py parts).run s with ⟨e | effect, t⟩
      · refine ⟨.ok (), rfl, Writes.taken ?_⟩
        rwa [encodeFacts, List.flatMap_nil, List.append_nil]
      · have hwrites := AppendOnlyFile.recordAll_run h effect.facts
        simp only
        generalize (recordAll effect.facts).run j = result at hwrites ⊢
        cases hwrites with
        | taken htaken =>
            exact ⟨_, rfl, Writes.taken htaken⟩
        | @failed j' message n hcall hbroken =>
            exact ⟨.error (.persistence message), rfl,
              Writes.failed n hcall hbroken⟩
  | sweep limit =>
      obtain ⟨keys, cursor, -, -, hrun⟩ := sweepExpired_run hexact limit
      refine ⟨.ok (), ?_, ?_⟩
      · simp only [handle, onStore, Fallible.run_bind, Fallible.run_onFst,
          hrun, Fallible.run_pure, onward]
      · simp only [handle, onStore, Fallible.run_bind, Fallible.run_onFst,
          hrun, Fallible.run_pure]
        refine Writes.taken ?_
        rwa [encodeFacts, asked, List.flatMap_nil, List.append_nil]
  | fsync =>
      have hwrites := sync_run h
      have hsync : (Journal.sync : Fallible Exc AppendOnlyFile Unit) =
          sync := rfl
      simp only [handle, fsyncCycle, Fallible.run_bind,
        Fallible.run_catching, Fallible.run_onSnd, hsync, onward, asked]
      generalize sync.run j = result at hwrites ⊢
      cases hwrites with
      | taken htaken =>
          exact ⟨_, rfl, Writes.taken htaken⟩
      | @failed j' message n hcall hbroken =>
          exact ⟨.error (.persistence message), rfl,
            Writes.failed n hcall hbroken⟩

/-- A journal that has failed turns every mutation away. -/
theorem dispatch_of_failed (h : j.hasFailed = true) {request : List Bytes}
    (hmutation : isMutation py request = true) (s : KeyValueStore) :
    (dispatch py request).run (s, j) =
      (.ok (Resp.encodeError persistenceError), (s, j)) := by
  have hfailed : Journal.failed j = true := h
  simp only [dispatch_run, hmutation, hfailed, Bool.and_self, if_true]

/-- A journal that has failed is not touched again. -/
theorem handle_of_failed (h : j.hasFailed = true) (hexact : Exact s)
    (event : Event) :
    ∃ t, ((handle py event).run (s, j)).2 = (t, j) ∧
      (t = s ∨ (t = onward py s event ∧ asked py s event = [])) := by
  cases event with
  | request parts =>
      by_cases hmutation : isMutation py parts = true
      · refine ⟨s, ?_, Or.inl rfl⟩
        simp only [handle, Fallible.run_bind, dispatch_of_failed h hmutation,
          Fallible.run_pure]
      · rw [Bool.not_eq_true] at hmutation
        have hasked := asked_of_not_mutation hmutation s
        refine ⟨_, ?_, Or.inr ⟨rfl, hasked⟩⟩
        simp only [handle, Fallible.run_bind, dispatch_run, hmutation,
          Bool.false_and, Bool.false_eq_true, if_false, asked,
          onward] at hasked ⊢
        rcases hrun : (execute py parts).run s with ⟨e | effect, t⟩
        · rfl
        · rw [hrun] at hasked
          simp only at hasked
          simp only [hasked]
          rfl
  | sweep limit =>
      obtain ⟨keys, cursor, -, -, hrun⟩ := sweepExpired_run hexact limit
      refine ⟨_, ?_, Or.inr ⟨rfl, rfl⟩⟩
      simp only [handle, onStore, Fallible.run_bind, Fallible.run_onFst,
        hrun, Fallible.run_pure, onward]
  | fsync =>
      have hsync : (Journal.sync : Fallible Exc AppendOnlyFile Unit) =
          sync := rfl
      refine ⟨s, ?_, Or.inl rfl⟩
      simp only [handle, fsyncCycle, Fallible.run_bind,
        Fallible.run_catching, Fallible.run_onSnd, hsync,
        sync_run_of_failed h, Fallible.run_pure]

end Handling

section Logged

open AppendOnlyFile

/-- What holds between two events, no call having failed: the file is a log of
facts, and these facts make, from nothing, what the store shows. -/
structure Logged (py : Interpreter) (outcomes : Nat → IoOutcome)
    (content : Bytes) (fs : List Write)
    (state : KeyValueStore × AppendOnlyFile) : Prop where
  serving : Serving py state.1
  monotone : state.1.clock.Monotone
  printable : Printable py state.1.clock
  working : Working outcomes content state.2
  log : LogOf py content fs []
  tracks : Tracks state.1 (replay fs fun _ => none)

variable {py : Interpreter} {outcomes : Nat → IoOutcome} {content : Bytes}
variable {fs : List Write} {state : KeyValueStore × AppendOnlyFile}
variable {event : Event}

theorem printable_of_extends {c c' : Clock} (h : c.Extends c')
    (hc : Printable py c) : Printable py c' := by
  intro i
  rw [h.readings]
  exact hc i

theorem Logged.step (h : Logged py outcomes content fs state)
    (hevent : ReadableEvent py event) :
    Step py state.1 (asked py state.1 event)
      (onward py state.1 event) :=
  step_event h.serving h.printable hevent

/-- **One event**: its records join the log, or the journal fails with a
beginning of them in the file. -/
theorem Logged.run_event (h : Logged py outcomes content fs state)
    (hevent : ReadableEvent py event) :
    ((handle py event).run state).2.1 = onward py state.1 event ∧
      (Logged py outcomes
          (content ++ encodeFacts (asked py state.1 event))
          (fs ++ asked py state.1 event)
          ((handle py event).run state).2 ∨
        (CallFails outcomes ∧ ∃ n, Broken
          (content ++ (encodeFacts (asked py state.1 event)).take n)
          ((handle py event).run state).2.2)) := by
  have hstep := h.step hevent
  obtain ⟨result, hstore, hwrites⟩ :=
    handle_of_working h.working h.serving.exact event
  refine ⟨hstore, ?_⟩
  cases hwrites with
  | taken htaken =>
      refine Or.inl ⟨?_, ?_, ?_, htaken, h.log.append hstep.facts, ?_⟩
      · rw [hstore]
        exact hstep.serving h.serving
      · rw [hstore]
        exact hstep.evolves.clock.monotone h.monotone
      · rw [hstore]
        exact printable_of_extends hstep.evolves.clock h.printable
      · rw [hstore, replay_append]
        exact h.tracks.evolve h.monotone hstep.evolves
  | failed n hcall hbroken =>
      exact Or.inr ⟨hcall, n, hbroken⟩

theorem Logged.extends_event (h : Logged py outcomes content fs state)
    (hevent : ReadableEvent py event) :
    state.1.clock.Extends ((handle py event).run state).2.1.clock := by
  rw [(h.run_event hevent).1]
  exact (h.step hevent).evolves.clock

/-- As long as no call fails, the log goes on. -/
theorem Logged.run_events {events : List Event}
    (hcalls : ¬ CallFails outcomes)
    (h : Logged py outcomes content fs state)
    (hevents : ∀ event ∈ events, ReadableEvent py event) :
    state.1.clock.Extends (afterEvents py state events).1.clock ∧
      ∃ gs, Logged py outcomes (content ++ encodeFacts gs) (fs ++ gs)
        (afterEvents py state events) := by
  induction events generalizing content fs state with
  | nil =>
      refine ⟨Clock.Extends.refl _, [], ?_⟩
      rwa [encodeFacts, List.flatMap_nil, List.append_nil, List.append_nil]
  | cons event events ih =>
      have hevent := hevents event (by simp)
      rcases (h.run_event hevent).2 with hnext | ⟨hfails, -⟩
      · obtain ⟨hclock, gs, hgs⟩ := ih hnext
          fun e he => hevents e (List.mem_cons_of_mem _ he)
        refine ⟨(h.extends_event hevent).trans hclock,
          asked py state.1 event ++ gs, ?_⟩
        rw [encodeFacts, List.flatMap_append, ← List.append_assoc,
          ← List.append_assoc]
        exact hgs
      · exact absurd hfails hcalls

end Logged

section Recovery

variable {py : Interpreter} {outcomes : Nat → IoOutcome}

theorem keyspace_loaded (s : KeyValueStore) (fs : List Write) :
    Evolves (s.withFacts fs) [] (loaded s fs) :=
  (evolves_reclaimed _).trans (evolves_reclaimed _)

/-- Loaded into an empty store, a log shows what its facts make of nothing. -/
theorem tracks_loaded (clock : Clock) (maxmemory : Int)
    (policy : MaxmemoryPolicy) (fs : List Write) :
    Tracks (loaded (init clock maxmemory policy) fs)
      (replay fs fun _ => none) := by
  intro v hv
  have hloaded := (keyspace_loaded (init clock maxmemory policy)
    fs).collected v hv
  rw [replay_nil, keyspace_withFacts, keyspace_init] at hloaded
  exact hloaded.agreeAt

theorem serving_loaded (clock : Clock) (maxmemory : Int)
    (policy : MaxmemoryPolicy) {fs : List Write}
    (hfs : ∀ f ∈ fs, ReadableFact py f) :
    Serving py (loaded (init clock maxmemory policy) fs) where
  exact := ((exact_init clock maxmemory policy).withFacts
    fs).reclaimed.reclaimed
  drained := by
    have hsettings : (loaded (init clock maxmemory policy) fs).settings =
        (init clock maxmemory policy).settings := by
      simp only [loaded, settings_reclaimed, settings_withFacts]
    exact congrArg Settings.evicted hsettings
  readable := by
    refine ReadableMap.of_evolves ?_ (keyspace_loaded _ fs) (by simp)
    rw [keyspace_withFacts, keyspace_init]
    exact ReadableMap.replay (by intro k e he; cases he) hfs

theorem extends_loaded (clock : Clock) (maxmemory : Int)
    (policy : MaxmemoryPolicy) (fs : List Write) :
    clock.Extends (loaded (init clock maxmemory policy) fs).clock := by
  have h := (keyspace_loaded (init clock maxmemory policy) fs).clock
  rwa [clock_withFacts] at h

/-- A log that is loaded and can be opened is recovered. -/
theorem recover_of_load {store : KeyValueStore} {fsync : FsyncPolicy}
    {log log' : LogFile} {result : LoadResult}
    (hload : (load py).run (store, log) = (.ok result, (s, log')))
    (hopen : log'.openFails = false) :
    recover py fsync outcomes store log =
      .ok (s, newJournal fsync log' outcomes) := by
  simp [recover, hload, openJournal, hopen]

/-- What has been recovered was loaded. -/
theorem load_of_recover {store : KeyValueStore} {fsync : FsyncPolicy}
    {log : LogFile} {state : KeyValueStore × AppendOnlyFile}
    (h : recover py fsync outcomes store log = .ok state) :
    ∃ result log', (load py).run (store, log) = (.ok result, (state.1, log')) ∧
      state.2 = newJournal fsync log' outcomes := by
  unfold recover openJournal at h
  rcases hload : (load py).run (store, log) with ⟨e | result, t, log'⟩
  · rw [hload] at h
    cases h
  · rw [hload] at h
    cases hopen : log'.openFails with
    | true =>
        simp [hopen] at h
    | false =>
        simp only [hopen, Bool.false_eq_true, if_false, Except.ok.injEq] at h
        obtain rfl := h
        exact ⟨result, log', rfl, rfl⟩

theorem working_newJournal (fsync : FsyncPolicy) (log : LogFile) :
    AppendOnlyFile.Working outcomes (log.content.getD [])
      (newJournal fsync log outcomes) :=
  ⟨rfl, rfl, rfl, rfl⟩

/-- **A server that has recovered has its log.** -/
theorem logged_of_recover {fsync : FsyncPolicy} {clock : Clock}
    {maxmemory : Int} {policy : MaxmemoryPolicy} {log : LogFile}
    {state : KeyValueStore × AppendOnlyFile}
    (hmono : clock.Monotone) (hprint : Printable py clock)
    (h : recover py fsync outcomes (init clock maxmemory policy) log =
      .ok state) :
    ∃ fs, Logged py outcomes state.2.file.content fs state := by
  have hexact := exact_init clock maxmemory policy
  obtain ⟨result, log', hload, hjournal⟩ := load_of_recover h
  obtain ⟨t, journal⟩ := state
  obtain rfl : journal = newJournal fsync log' outcomes := hjournal
  cases hcontent : log.content with
  | none =>
      rw [load_run_of_absent hcontent] at hload
      cases hload
      refine ⟨[], ⟨⟨hexact, rfl, ?_⟩, hmono, hprint, ?_, ?_, ?_⟩⟩
      · intro k e he
        cases he
      · exact working_newJournal fsync log
      · simp only [newJournal, hcontent]
        exact logOf_nil py
      · exact fun v _ => AgreeAt.refl v _
  | some data =>
      obtain ⟨data', hdata', hintact⟩ := load_run_of_ok hcontent hload
      obtain ⟨fs, tail, hlog⟩ := logOf_of_load hexact hintact
      have hrun := load_run_of_logOf hexact hlog
      rw [hintact] at hrun
      simp only [Prod.mk.injEq, Except.ok.injEq, LogFile.intact,
        LogFile.mk.injEq, Option.some.injEq, and_true] at hrun
      obtain ⟨-, rfl, rfl⟩ := hrun
      have hclock := extends_loaded clock maxmemory policy fs
      refine ⟨fs, ⟨?_, ?_, ?_, working_newJournal fsync log', ?_, ?_⟩⟩
      · exact serving_loaded clock maxmemory policy hlog.readable
      · exact hclock.monotone hmono
      · exact printable_of_extends hclock hprint
      · simp only [newJournal, hdata']
        exact hlog.kept.2
      · exact tracks_loaded clock maxmemory policy fs

theorem monotone_frozen (t : Int) : (Clock.frozen t).Monotone :=
  fun _ _ _ => le_rfl

theorem printable_frozen {t : Int} (h : py.Reads t.natAbs) :
    Printable py (.frozen t) :=
  fun _ => h

/-- A server that starts without a log. -/
def freshStart (clock : Clock) (maxmemory : Int) (policy : MaxmemoryPolicy)
    (fsync : FsyncPolicy) (outcomes : Nat → IoOutcome) :
    KeyValueStore × AppendOnlyFile :=
  (init clock maxmemory policy,
    newJournal fsync ⟨none, false, false, false, false⟩ outcomes)

theorem recover_absent (clock : Clock) (maxmemory : Int)
    (policy : MaxmemoryPolicy) (fsync : FsyncPolicy) :
    recover py fsync outcomes (init clock maxmemory policy)
        ⟨none, false, false, false, false⟩ =
      .ok (freshStart clock maxmemory policy fsync outcomes) := by
  rfl

/-- Three keys are set; under a limit of two entries the last write evicts. -/
def threeWrites : List Event :=
  [.request [ascii "SET", ascii "a", ascii "1"],
   .request [ascii "SET", ascii "b", ascii "2"],
   .request [ascii "SET", ascii "c", ascii "3"]]

theorem readable_threeWrites :
    ∀ event ∈ threeWrites, ReadableEvent .default event := by
  intro event hevent
  simp only [threeWrites, List.mem_cons, List.not_mem_nil,
    or_false] at hevent
  rcases hevent with rfl | rfl | rfl
  · exact ⟨by decide, by decide⟩
  · exact ⟨by decide, by decide⟩
  · exact ⟨by decide, by decide⟩

/-- Loaded into any fresh store, the bytes raise nothing, and at the times of
`V` the store then shows what the map shows. -/
def Reloads (py : Interpreter) (content : Bytes) (V : Int → Prop)
    (m : TimedMap Bytes Bytes Int) : Prop :=
  ∀ (clock : Clock) (maxmemory : Int) (policy : MaxmemoryPolicy),
    ∃ result s log,
      (load py).run (init clock maxmemory policy,
        LogFile.intact content) = (.ok result, (s, log)) ∧
      ∀ v, V v → s.clock.Reached v → AgreeAt v s.keyspace m

theorem reloads_of_logOf {content tail : Bytes} {fs : List Write}
    {V : Int → Prop} {m : TimedMap Bytes Bytes Int}
    (h : LogOf py content fs tail)
    (hm : ∀ v, V v → AgreeAt v (replay fs fun _ => none) m) :
    Reloads py content V m := by
  intro clock maxmemory policy
  have hexact := exact_init clock maxmemory policy
  refine ⟨_, _, _, load_run_of_logOf hexact h, ?_⟩
  intro v hv hreached
  exact (tracks_loaded clock maxmemory policy fs v hreached).trans (hm v hv)

end Recovery

end Server
end PyRedis
