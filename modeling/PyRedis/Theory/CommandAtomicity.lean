import PyRedis.Theory.ServerRuns

/-!
# What a crash leaves of a command

A command is recorded by one record, except that a write is preceded by one
removal for each key evicted for it, and each of these records is flushed on
its own.  So a process that dies in the middle of such a command leaves a log
that has some of the evictions and not the write: what is recovered is the
keyspace of a boundary between two commands, less the first of the keys that
the next command evicted.
-/

namespace PyRedis
namespace Server

open Foundation Commands KeyValueStore Aof AppendOnlyFile

section Cuts

variable {py : Interpreter} {s : KeyValueStore}

/-- Keys whose evictions were recorded for a write that was not: none at all,
or the first of the victims of the next event. -/
inductive LostTo (py : Interpreter) (s : KeyValueStore) :
    List Event → List Bytes → Prop where
  | nothing (later : List Event) : LostTo py s later []
  | victims {event : Event} {later : List Event} {victims : List Bytes}
      {key value : Bytes} {d : Option Int}
      (h : asked py s event =
        victims.map (fun k => .drop [k]) ++ [.put key value d]) (n : Nat) :
      LostTo py s (event :: later) (victims.take n)

theorem drop_nil_apply (m : TimedMap Bytes Bytes Int) :
    (Fact.drop []).apply m = m := by
  funext k
  simp [Fact.apply, Fact.actOn]

/-- A list of facts that is not all of what an event asked for removes the
first of its victims, and does nothing else. -/
theorem replay_of_cut {event : Event}
    {gs : List Write} (later : List Event) (hgs : gs <+: asked py s event)
    (hcut : gs ≠ asked py s event) :
    ∃ lost, LostTo py s (event :: later) lost ∧
      ∀ m, replay gs m = (Fact.drop lost).apply m := by
  have hnothing : gs = [] → ∃ lost, LostTo py s (event :: later) lost ∧
      ∀ m, replay gs m = (Fact.drop lost).apply m := by
    intro hnil
    refine ⟨[], LostTo.nothing _, fun m => ?_⟩
    rw [hnil, replay_nil, drop_nil_apply]
  cases event with
  | request parts =>
      have hasking := @asking_execute py parts s
      rcases hrun : (execute py parts).run s with ⟨e | effect, t⟩
      · have hasked : asked py s (.request parts) = [] := by
          simp only [asked, hrun]
        rw [hasked] at hgs
        exact hnothing (List.prefix_nil.mp hgs)
      · have hasked : asked py s (.request parts) = effect.facts := by
          simp only [asked, hrun]
        have hasks := hasking.ok hrun
        cases hasks with
        | nothing reply _ =>
            rw [hasked] at hgs
            exact hnothing (List.prefix_nil.mp hgs)
        | fact f reply _ =>
            rw [hasked] at hgs hcut
            rcases List.prefix_cons_iff.mp hgs with hnil | ⟨rest, rfl, hrest⟩
            · exact hnothing hnil
            · rw [List.prefix_nil.mp hrest] at hcut
              exact absurd rfl hcut
        | write victims key value d reply _ =>
            have hevicts := hasked
            rw [hasked] at hgs hcut
            obtain ⟨n, rfl⟩ : ∃ n, gs =
                (victims.take n).map (fun k => .drop [k]) := by
              rcases List.prefix_concat_iff.mp hgs with hall | hremovals
              · exact absurd hall hcut
              · refine ⟨gs.length, ?_⟩
                rw [List.map_take]
                exact List.prefix_iff_eq_take.mp hremovals
            exact ⟨_, LostTo.victims hevicts n, replay_drops _⟩
  | sweep limit =>
      exact hnothing (List.prefix_nil.mp hgs)
  | fsync =>
      exact hnothing (List.prefix_nil.mp hgs)

variable {outcomes : Nat → IoOutcome} {content : Bytes}
variable {fs : List Write} {state : KeyValueStore × AppendOnlyFile}

/-- A cut inside the records of one event. -/
theorem Logged.cut (h : Logged py outcomes content fs state) {event : Event}
    (hevent : ReadableEvent py event) (n : Nat)
    (hn : n < (encodeFacts (asked py state.1 event)).length)
    (later : List Event) :
    ∃ lost, LostTo py state.1 (event :: later) lost ∧
      Reloads py
        (content ++ (encodeFacts (asked py state.1 event)).take n)
        state.1.clock.Reached
        ((Fact.drop lost).apply state.1.keyspace) := by
  have hstep := h.step hevent
  have hwhole : whole n (asked py state.1 event) <+:
      asked py state.1 event := Decoder.wholly_prefix encodeFact n _
  have hproper : whole n (asked py state.1 event) ≠
      asked py state.1 event := by
    intro hall
    have hbytes := (Decoder.wholly_flatMap_prefix encodeFact n
      (asked py state.1 event)).length_le
    rw [show Decoder.wholly encodeFact n (asked py state.1 event) =
      asked py state.1 event from hall, List.length_take] at hbytes
    change _ < (List.flatMap encodeFact _).length at hn
    omega
  obtain ⟨lost, hlost, hreplay⟩ :=
    replay_of_cut later hwhole hproper
  obtain ⟨c, hc, hmore⟩ := h.log.extend
  rw [List.append_nil] at hc
  subst hc
  refine ⟨lost, hlost,
    reloads_of_logOf (hmore _ hstep.facts n) fun v hv => ?_⟩
  have htake := List.prefix_iff_eq_take.mp hwhole
  rw [replay_append, ← hreplay, htake]
  exact (h.tracks.replay_take h.monotone hstep.evolves _ hv).symm

end Cuts

section Crashes

variable {py : Interpreter} {outcomes : Nat → IoOutcome}

theorem Reloads.mono {content : Bytes} {V W : Int → Prop}
    {m : TimedMap Bytes Bytes Int} (h : Reloads py content V m)
    (hW : ∀ v, W v → V v) : Reloads py content W m := by
  intro clock maxmemory policy
  obtain ⟨result, s, log, hload, hshows⟩ := h clock maxmemory policy
  exact ⟨result, s, log, hload, fun v hv => hshows v (hW v hv)⟩

/-- The run from a logged state: the event that the cut falls into is found by
comparing lengths. -/
theorem Logged.crash {content : Bytes} {fs : List Write}
    {state : KeyValueStore × AppendOnlyFile} {events : List Event}
    (hcalls : ¬ CallFails outcomes)
    (h : Logged py outcomes content fs state)
    (hevents : ∀ event ∈ events, ReadableEvent py event) {cut : Bytes}
    (hkept : content <+: cut)
    (hcut : cut <+: (afterEvents py state events).2.file.content) :
    ∃ before later lost, events = before ++ later ∧
      LostTo py (afterEvents py state before).1 later lost ∧
      Reloads py cut (afterEvents py state events).1.clock.Reached
        ((Fact.drop lost).apply (afterEvents py state before).1.keyspace) := by
  induction events generalizing content fs state with
  | nil =>
      have hfinal : (afterEvents py state []).2.file.content = content :=
        h.working.content
      rw [hfinal] at hcut
      obtain rfl : content = cut :=
        List.Sublist.antisymm hkept.sublist hcut.sublist
      refine ⟨[], [], [], rfl, LostTo.nothing [], ?_⟩
      rw [drop_nil_apply]
      exact reloads_of_logOf h.log fun v hv => (h.tracks v hv).symm
  | cons event events ih =>
      have hevent := hevents event (by simp)
      have hlater : ∀ e ∈ events, ReadableEvent py e :=
        fun e he => hevents e (List.mem_cons_of_mem _ he)
      obtain hnext | ⟨hfails, -⟩ := (h.run_event hevent).2
      · obtain ⟨hclock, gs, hafter⟩ := hnext.run_events hcalls hlater
        have hbytes : content ++ encodeFacts (asked py state.1 event) <+:
            (afterEvents py state (event :: events)).2.file.content := by
          refine ⟨encodeFacts gs, ?_⟩
          exact hafter.working.content.symm
        by_cases hlen : cut.length <
            (content ++ encodeFacts (asked py state.1 event)).length
        · -- the crash is inside this event
          have hinside := List.prefix_of_prefix_length_le hcut hbytes
            (by omega)
          obtain ⟨rest, rfl⟩ := hkept
          rw [List.prefix_append_right_inj] at hinside
          rw [List.length_append, List.length_append] at hlen
          obtain ⟨lost, hlost, hreloads⟩ := h.cut hevent
            rest.length (by omega) events
          rw [← List.prefix_iff_eq_take.mp hinside] at hreloads
          refine ⟨[], event :: events, lost, rfl, hlost, ?_⟩
          exact hreloads.mono fun v hv =>
            ((h.extends_event hevent).trans hclock).reached hv
        · have hbehind := List.prefix_of_prefix_length_le hbytes hcut
            (by omega)
          obtain ⟨before, later, lost, rfl, hlost, hreloads⟩ :=
            ih hnext hlater hbehind hcut
          exact ⟨event :: before, later, lost, rfl, hlost, hreloads⟩
      · exact absurd hfails hcalls

/-- **A crash recovers a boundary between two commands, less some of the keys
that the next one evicted.** -/
theorem crash_recovers_boundary {fsync : FsyncPolicy} {clock : Clock}
    {maxmemory : Int} {policy : MaxmemoryPolicy} {log : LogFile}
    {start : KeyValueStore × AppendOnlyFile} {events : List Event}
    (hmono : clock.Monotone) (hprint : Printable py clock)
    (hcalls : ∀ i, (outcomes i).fails = false)
    (hstart : recover py fsync outcomes (init clock maxmemory policy) log =
      .ok start)
    (hevents : ∀ event ∈ events, ReadableEvent py event) {cut : Bytes}
    (hkept : start.2.file.content <+: cut)
    (hcut : cut <+: (afterEvents py start events).2.file.content) :
    ∃ before later lost, events = before ++ later ∧
      LostTo py (afterEvents py start before).1 later lost ∧
      Reloads py cut (afterEvents py start events).1.clock.Reached
        ((Fact.drop lost).apply
          (afterEvents py start before).1.keyspace) := by
  have hworks : ¬ CallFails outcomes := by
    rintro ⟨i, hi⟩
    rw [hcalls i] at hi
    cases hi
  obtain ⟨fs, hlogged⟩ := logged_of_recover hmono hprint hstart
  exact hlogged.crash hworks hevents hkept hcut

/-- The server under a limit of two entries. -/
def tightStart : KeyValueStore × AppendOnlyFile :=
  freshStart (.frozen 0) 132 .allkeysLru .no fun _ => ⟨0, false⟩

/-- The log of three writes, cut between the removal of the key evicted for
the third one and that write itself. -/
def evictionCut : Bytes :=
  (afterEvents .default tightStart threeWrites).2.file.content.take 74

theorem crash_after_eviction :
    ∃ before later lost, threeWrites = before ++ later ∧
      LostTo .default (afterEvents .default tightStart before).1 later lost ∧
      Reloads .default evictionCut
        (afterEvents .default tightStart threeWrites).1.clock.Reached
        ((Fact.drop lost).apply
          (afterEvents .default tightStart before).1.keyspace) :=
  crash_recovers_boundary (monotone_frozen 0) (printable_frozen (by decide))
    (fun _ => rfl) (recover_absent _ _ _ _) readable_threeWrites
    List.nil_prefix (List.take_prefix _ _)

/-- The keyspace that this cut recovers is not that of any boundary: the key
is gone that was evicted for a write that is not recovered. -/
theorem eviction_recovered_without_its_write :
    ¬ ∃ before later, threeWrites = before ++ later ∧
      Reloads .default evictionCut (fun v => v = 0)
        (afterEvents .default tightStart before).1.keyspace := by
  rintro ⟨before, later, hsplit, hreloads⟩
  obtain ⟨result, s, recovered, hload, hshows⟩ :=
    hreloads (.frozen 0) 0 .noeviction
  have hs : s = ((load .default).run (init (.frozen 0) 0 .noeviction,
      LogFile.intact evictionCut)).2.1 := by
    rw [hload]
  have hreached : s.clock.Reached 0 := by
    have hreadings : s.clock.readings = fun _ => 0 := by
      rw [hs]
      rfl
    intro i _
    rw [hreadings]
  have hagree := hshows 0 rfl hreached
  have hbefore : before = threeWrites.take before.length := by
    rw [hsplit, List.take_left]
  have hlength : before.length < 4 := by
    have hlengths := congrArg List.length hsplit
    rw [List.length_append, show threeWrites.length = 3 from rfl] at hlengths
    omega
  have hdiffers : ∀ n, n < 4 →
      ∃ k ∈ [ascii "a", ascii "b", ascii "c"],
        liveEntry 0 (((load .default).run
          (init (.frozen 0) 0 .noeviction,
            LogFile.intact evictionCut)).2.1.keyspace k) ≠
        liveEntry 0 ((afterEvents .default tightStart
          (threeWrites.take n)).1.keyspace k) := by
    decide +kernel
  obtain ⟨k, -, hk⟩ := hdiffers before.length hlength
  rw [← hs, ← hbefore] at hk
  exact hk (agreeAt_iff.mp hagree k)

end Crashes

end Server
end PyRedis
