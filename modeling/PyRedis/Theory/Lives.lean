import PyRedis.Theory.PowerFailure

/-!
# One life after another

Whatever happens in a life of the server, and however it ends, the file it
leaves is a beginning of the records of some facts.  So the next life finds a
log that it can load, if the operating system lets it; and if the life before
was not cut short, it goes on with the keyspace that this one had.
-/

namespace PyRedis

open Foundation

section Handed

/-- Everything a file was handed: what is in it and what is still held back. -/
def BinaryFile.handed (f : BinaryFile) : Bytes :=
  f.content ++ f.buffered

theorem BinaryFile.handed_moveOut (f : BinaryFile) (n : Nat) :
    (f.moveOut n).handed = f.handed := by
  simp only [handed, moveOut, List.append_assoc, List.take_append_drop]

namespace DurableFile

/-- Whether it returns or raises, the computation hands these bytes to the
file. -/
def Hands {ε α : Type} (bytes : Bytes) (x : Fallible ε DurableFile α) :
    Prop :=
  ∀ d, (x.run d).2.journal.file.handed = d.journal.file.handed ++ bytes

theorem Hands.pure {ε α : Type} (a : α) :
    Hands [] (pure a : Fallible ε DurableFile α) :=
  fun _ => (List.append_nil _).symm

/-- What comes behind the bytes hands nothing more. -/
theorem Hands.bind {ε α β : Type} {bytes : Bytes}
    {x : Fallible ε DurableFile α} {k : α → Fallible ε DurableFile β}
    (hx : Hands bytes x) (hk : ∀ a, Hands [] (k a)) :
    Hands bytes (x >>= k) := by
  intro d
  have hfirst := hx d
  rw [Fallible.run_bind]
  rcases hrun : x.run d with ⟨e | a, d'⟩
  · rwa [hrun] at hfirst
  · rw [hrun] at hfirst
    have hlast := hk a d'
    rw [List.append_nil] at hlast
    exact hlast.trans hfirst

theorem hands_write (record : Bytes) :
    Hands record (onFile (BinaryFile.write record)) := by
  intro d
  have hmoved := BinaryFile.handed_moveOut
    { d.journal.file with buffered := d.journal.file.buffered ++ record }
    d.journal.file.outcome.moved
  have hheld : BinaryFile.handed { d.journal.file with
      buffered := d.journal.file.buffered ++ record } =
      d.journal.file.handed ++ record :=
    (List.append_assoc _ _ _).symm
  exact hmoved.trans hheld

theorem hands_flush : Hands [] (onFile BinaryFile.flush) := by
  intro d
  rw [List.append_nil]
  have hrun : ((onFile BinaryFile.flush).run d).2.journal.file =
      (BinaryFile.flush.run d.journal.file).2 := rfl
  rw [hrun]
  simp only [BinaryFile.flush, Fallible.run]
  split_ifs
  · exact BinaryFile.handed_moveOut _ _
  · exact BinaryFile.handed_moveOut _ _

theorem hands_fsync : Hands [] fsync := by
  have hcall : Hands [] (onFile BinaryFile.fsync) := by
    intro d
    rw [List.append_nil]
    exact BinaryFile.handed_moveOut d.journal.file 0
  exact hcall.bind fun _ d => (List.append_nil _).symm

theorem Hands.attempt {bytes : Bytes} {x : Fallible Unit DurableFile Unit}
    (hx : Hands bytes x) (action : String) :
    Hands bytes (attempt action x) := by
  intro d
  have hafter := hx d
  rcases attempt_cases action x d with ⟨d', hrun, hdone⟩ |
    ⟨e, d', hrun, hdone⟩
  · rw [hrun] at hafter
    rwa [hdone]
  · rw [hrun] at hafter
    rw [hdone]
    exact hafter

/-- A journal that has not failed is handed the record, whatever the calls
answer. -/
theorem append_handed {d : DurableFile} (h : d.journal.hasFailed = false)
    (record : Bytes) :
    ((append record).run d).2.journal.file.handed =
      d.journal.file.handed ++ record := by
  simp only [append, Fallible.run_bind, Fallible.run_get, h,
    Bool.false_eq_true, if_false]
  refine Hands.attempt ?_ "append" d
  refine (hands_write record).bind fun _ => hands_flush.bind fun _ => ?_
  split_ifs
  · exact hands_fsync
  · exact Hands.pure ()

theorem hands_sync : Hands [] sync := by
  intro d
  simp only [sync, Fallible.run_bind, Fallible.run_get, Fallible.run_ite]
  split_ifs
  · exact (List.append_nil _).symm
  · exact (hands_flush.bind fun _ => hands_fsync).attempt "fsync" d

theorem Hands.suppress {x : Fallible Unit DurableFile Unit}
    (hx : Hands [] x) : Hands [] (suppress x) := by
  intro d
  have hafter := hx d
  simp only [DurableFile.suppress, Fallible.run_catching]
  rcases hrun : x.run d with ⟨e | _, d'⟩
  · rwa [hrun] at hafter
  · rwa [hrun] at hafter

/-- Some of the records, in order, from the first one on. -/
theorem recordAll_handed (fs : List Write) (d : DurableFile) :
    ∃ i, ((Commands.recordAll fs).run d).2.journal.file.handed =
      d.journal.file.handed ++ Aof.encodeFacts (fs.take i) := by
  induction fs generalizing d with
  | nil =>
      exact ⟨0, (List.append_nil _).symm⟩
  | cons f fs ih =>
      simp only [Commands.recordAll, Fallible.forEach, Fallible.run_bind]
      have happend : (Journal.append (Commands.encodeFact f) :
          Fallible Exc DurableFile Unit) =
          append (Commands.encodeFact f) := rfl
      rw [happend]
      cases hfailed : d.journal.hasFailed with
      | true =>
          have hrun : (append (Commands.encodeFact f)).run d =
              (.error (.persistence
                "journal has failed; restart to recover"), d) := by
            simp [append, hfailed]
          rw [hrun]
          exact ⟨0, (List.append_nil _).symm⟩
      | false =>
          have hhanded := append_handed hfailed (Commands.encodeFact f)
          rcases hrun : (append (Commands.encodeFact f)).run d with
            ⟨e | _, d'⟩
          · rw [hrun] at hhanded
            refine ⟨1, ?_⟩
            simpa [Aof.encodeFacts] using hhanded
          · rw [hrun] at hhanded
            obtain ⟨i, hrest⟩ := ih d'
            refine ⟨i + 1, ?_⟩
            simp only [Commands.recordAll] at hrest
            rw [hrest, hhanded, List.take_succ_cons, List.append_assoc,
              Aof.encodeFacts, Aof.encodeFacts, List.flatMap_cons]

end DurableFile

end Handed

namespace Server

open Commands KeyValueStore Aof AppendOnlyFile

section Runs

variable {py : Interpreter} {outcomes : Nat → IoOutcome}

/-- An event hands its file some of the records it asks for. -/
theorem handle_handed (py : Interpreter) (event : Event) (s : KeyValueStore)
    (d : DurableFile) :
    ∃ i, ((handle py event).run (s, d)).2.2.journal.file.handed =
      d.journal.file.handed ++ encodeFacts ((asked py s event).take i) := by
  have hnothing : d.journal.file.handed = d.journal.file.handed ++
      encodeFacts ((asked py s event).take 0) :=
    (List.append_nil _).symm
  cases event with
  | request parts =>
      have hstate : ((handle py (.request parts)).run (s, d)).2 =
          ((dispatch py parts).run (s, d)).2 := by
        simp only [handle, Fallible.run_bind]
        rcases (dispatch py parts).run (s, d) with ⟨e | reply, p⟩ <;> rfl
      rw [hstate]
      by_cases hrefused : (isMutation py parts && Journal.failed d) = true
      · rw [dispatch_run, if_pos hrefused]
        exact ⟨0, hnothing⟩
      · rw [dispatch_concluded hrefused]
        simp only [asked]
        rcases (execute py parts).run s with ⟨e | effect, t⟩
        · exact ⟨0, (List.append_nil _).symm⟩
        · exact DurableFile.recordAll_handed effect.facts d
  | sweep limit =>
      refine ⟨0, Eq.trans ?_ hnothing⟩
      simp only [handle, onStore, Fallible.run_bind, Fallible.run_onFst]
      rcases (sweepExpired limit).run s with ⟨e | n, t⟩ <;> rfl
  | fsync =>
      refine ⟨0, Eq.trans ?_ hnothing⟩
      have hsync := DurableFile.hands_sync d
      simp only [handle, Fallible.run_bind, fsyncCycle_run]
      rw [List.append_nil] at hsync
      cases suppressed _ <;> exact hsync

/-- **A run hands its file the records of some facts, and nothing else.** -/
theorem Logged.handed {fs : List Write} {s : KeyValueStore} {d : DurableFile}
    (h : Logged py outcomes (encodeFacts fs) fs (s, d.journal))
    {events : List Event}
    (hevents : ∀ event ∈ events, ReadableEvent py event) :
    ∃ gs : List Write, (∀ g ∈ gs, ReadableFact py g) ∧
      (afterEvents py (s, d) events).2.journal.file.handed =
        encodeFacts gs := by
  have hstart : d.journal.file.handed = encodeFacts fs := by
    have hcontent : d.journal.file.content = encodeFacts fs :=
      h.working.content
    have hflushed : d.journal.file.buffered = [] := h.working.flushed
    rw [BinaryFile.handed, hcontent, hflushed, List.append_nil]
  induction events generalizing fs s d with
  | nil =>
      exact ⟨fs, h.log.readable, hstart⟩
  | cons event events ih =>
      have hevent := hevents event (by simp)
      have hlater : ∀ e ∈ events, ReadableEvent py e :=
        fun e he => hevents e (List.mem_cons_of_mem _ he)
      have hstep := h.step hevent
      obtain ⟨i, hhanded⟩ := handle_handed py event s d
      have hshadow := shadow_run py s d [event]
      rw [afterEvents_cons, afterEvents_nil, afterEvents_cons,
        afterEvents_nil] at hshadow
      rw [afterEvents_cons]
      generalize hstate : ((handle py event).run (s, d)).2 = state at *
      obtain ⟨t, d'⟩ := state
      obtain ⟨hstore, hjournal⟩ := hshadow
      simp only at hstore hjournal hhanded
      obtain ⟨honward, hnext | ⟨-, n, hbroken⟩⟩ := h.run_event hevent
      · have hnext' : Logged py outcomes
            (encodeFacts (fs ++ asked py s event)) (fs ++ asked py s event)
            (t, d'.journal) := by
          rw [encodeFacts, List.flatMap_append, hstore, hjournal]
          exact hnext
        refine ih hnext' hlater ?_
        have hcontent : d'.journal.file.content =
            encodeFacts (fs ++ asked py s event) := hnext'.working.content
        have hflushed : d'.journal.file.buffered = [] :=
          hnext'.working.flushed
        rw [BinaryFile.handed, hcontent, hflushed, List.append_nil]
      · have hclock := h.extends_event hevent
        rw [← honward] at hstep
        obtain ⟨-, -, hsame⟩ := run_events_of_failed hbroken.failed
          (hstep.serving h.serving)
          (printable_of_extends hclock h.printable) hlater
        have hrest := (shadow_run py t d' events).2
        rw [hstore, hjournal, hsame, ← hjournal] at hrest
        refine ⟨fs ++ (asked py s event).take i, ?_, ?_⟩
        · intro g hg
          rcases List.mem_append.mp hg with hold | hnew
          · exact h.log.readable g hold
          · exact hstep.facts g (List.mem_of_mem_take hnew)
        · rw [hstore, hrest, hhanded, hstart, encodeFacts, encodeFacts,
            encodeFacts, List.flatMap_append]

end Runs

section Recovery

variable {py : Interpreter} {data tail : Bytes} {fs : List Write}
variable {s : KeyValueStore}

end Recovery

section Lives

variable {py : Interpreter} {content : Option Bytes} {life : Life}

/-- A call of the operating system fails while the log is read, repaired or
opened. -/
def Life.Refused (life : Life) : Prop :=
  life.readFails = true ∨ life.truncateFails = true ∨
    life.fsyncFails = true ∨ life.openFails = true

end Lives

end Server
end PyRedis
