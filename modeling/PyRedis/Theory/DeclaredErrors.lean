import PyRedis.Core.Server
import PyRedis.Theory.IntegerParsing
import PyRedis.Theory.LogReplay
import PyRedis.Theory.RequestGrammar

/-!
# Malformed input and the declared errors

Whatever bytes come from a client or from a log, the parsers should end in the
errors their callers are ready for: a client gets one protocol error, and a
server refuses a log with one exit code.  They do, but for a number with more
digits than `int` converts, in a header of either format or in the deadline of
a record.
-/

namespace PyRedis

open Foundation

namespace Aof

open KeyValueStore

section Deadlines

variable {py : Interpreter} {parts : List Bytes}

theorem readFact_of_overlong (h : OverlongDeadline py parts) (offset : Nat) :
    readFact py ⟨offset, parts⟩ = .error .value := by
  cases h with
  | set name key value option raw h hoption hraw =>
      have hcount := (@count_eq_value_iff py raw offset
        "malformed PXAT deadline").mpr hraw
      simp [readFact, h, hoption, hcount, bind, Except.bind]
  | expireAt name key raw h hraw =>
      have hcount := (@count_eq_value_iff py raw offset "bad deadline").mpr hraw
      simp [readFact, h, hcount, bind, Except.bind, ascii]

end Deadlines

section Replay

variable (py : Interpreter)

/-- A log that scans, and in which a deadline that is too long comes before
any record that is corrupt. -/
inductive OverlongReplay : Bytes → Prop
  | mk (words : List Bytes) (before : List (List Bytes)) (parts : List Bytes)
      (later : List (List Bytes)) (rest : Bytes)
      (hwords : List.Forall₂ (RecordOf py) words (before ++ parts :: later))
      (hbefore : ∀ p ∈ before, ∃ f, States py p f)
      (hparts : OverlongDeadline py parts) (hrest : OpenRecord py rest) :
      OverlongReplay (words.flatten ++ rest)

variable {py} {records : List Record} {data : Bytes} {s : KeyValueStore}

theorem readFacts_value_iff (hne : ∀ r ∈ records, r.parts ≠ []) :
    (readFacts py records).2 = some .value ↔
      ∃ before parts later,
        records.map Record.parts = before ++ parts :: later ∧
        (∀ p ∈ before, ∃ f, States py p f) ∧ OverlongDeadline py parts := by
  induction records with
  | nil =>
      simp [readFacts]
  | cons record records ih =>
      obtain ⟨hrecord, hothers⟩ := List.forall_mem_cons.mp hne
      obtain ⟨offset, parts⟩ := record
      simp only [readFacts, List.map_cons]
      constructor
      · intro h
        rcases readFact_verdict py offset hrecord with
          ⟨f, hstates, hf⟩ | ⟨hlong, -⟩ | ⟨reason, hbad⟩
        · rw [hf] at h
          obtain ⟨before, last, later, hmap, hbefore, hlast⟩ := (ih hothers).mp h
          refine ⟨parts :: before, last, later, by rw [hmap]; rfl, ?_, hlast⟩
          exact List.forall_mem_cons.mpr ⟨⟨f, hstates⟩, hbefore⟩
        · exact ⟨[], parts, _, rfl, by simp, hlong⟩
        · rw [hbad] at h
          cases h
      · rintro ⟨before, last, later, hmap, hbefore, hlast⟩
        cases before with
        | nil =>
            obtain ⟨rfl, -⟩ := List.cons_eq_cons.mp hmap
            rw [readFact_of_overlong hlast]
        | cons first before =>
            obtain ⟨rfl, hrest⟩ := List.cons_eq_cons.mp hmap
            obtain ⟨hfirst, hbefore⟩ := List.forall_mem_cons.mp hbefore
            obtain ⟨f, hstates⟩ := hfirst
            rw [readFact_of_states hstates]
            exact (ih hothers).mpr
              ⟨before, last, later, hrest, hbefore, hlast⟩

theorem readFacts_error {e : Exc} (hne : ∀ r ∈ records, r.parts ≠ [])
    (h : (readFacts py records).2 = some e) : CorruptOrValue e := by
  induction records with
  | nil =>
      cases h
  | cons record records ih =>
      obtain ⟨hrecord, hothers⟩ := List.forall_mem_cons.mp hne
      obtain ⟨offset, parts⟩ := record
      simp only [readFacts] at h
      rcases readFact_verdict py offset hrecord with
        ⟨f, -, hf⟩ | ⟨-, hlong⟩ | ⟨reason, hbad⟩
      · rw [hf] at h
        exact ih hothers h
      · rw [hlong] at h
        cases h
        exact Or.inr rfl
      · rw [hbad] at h
        cases h
        exact Or.inl ⟨_, _, rfl⟩

/-- A record that was scanned has parts. -/
theorem parts_ne_nil_of_scan {scanned : Scan}
    (h : scan py data = .ok scanned) : ∀ r ∈ scanned.records, r.parts ≠ [] := by
  obtain ⟨items, tail, hscans, hitems, -⟩ := scans_of_scan h
  have hparts := hscans.forall (P := fun parts => parts ≠ [])
    fun offset x parts rest hdone => (readableRecord_of_done hdone).nonempty
  intro r hr
  rw [hitems] at hr
  obtain ⟨item, hitem, rfl⟩ := List.mem_map.mp hr
  exact hparts item hitem

theorem load_error (hs : Exact s) {e : Exc}
    (h : ((load py).run (s, LogFile.intact data)).1 = .error e) :
    scan py data = .error e ∨ ∃ scanned, scan py data = .ok scanned ∧
      (readFacts py scanned.records).2 = some e := by
  cases hscan : scan py data with
  | error e' =>
      rw [load_run_of_fails (scan_error hscan)] at h
      cases h
      exact Or.inl rfl
  | ok scanned =>
      rw [load_run_of_scan hs hscan] at h
      refine Or.inr ⟨scanned, rfl, ?_⟩
      cases hfacts : (readFacts py scanned.records).2 with
      | none =>
          rw [hfacts] at h
          cases h
      | some e' =>
          rw [hfacts] at h
          cases h
          rfl

theorem load_corruptOrValue (hs : Exact s) {e : Exc}
    (h : ((load py).run (s, LogFile.intact data)).1 = .error e) :
    CorruptOrValue e := by
  rcases load_error hs h with hscan | ⟨scanned, hscan, hfacts⟩
  · exact scan_corruptOrValue hscan
  · exact readFacts_error (parts_ne_nil_of_scan hscan) hfacts

/-- **When the replay raises `ValueError`.** -/
theorem load_value_iff (hs : Exact s) :
    ((load py).run (s, LogFile.intact data)).1 = .error .value ↔
      OverlongLog py data ∨ OverlongReplay py data := by
  constructor
  · intro h
    rcases load_error hs h with hscan | ⟨scanned, hscan, hfacts⟩
    · exact Or.inl (scan_eq_value_iff.mp hscan)
    · obtain ⟨before, parts, later, hmap, hbefore, hparts⟩ :=
        (readFacts_value_iff (parts_ne_nil_of_scan hscan)).mp hfacts
      obtain ⟨words, rest, hwords, hrest, rfl⟩ :=
        scan_eq_ok_iff.mp ⟨scanned, hscan, hmap⟩
      exact Or.inr (OverlongReplay.mk words before parts later rest hwords
        hbefore hparts hrest)
  · rintro (hlog | hreplay)
    · rw [load_run_of_fails (fails_value_iff.mpr hlog)]
    · cases hreplay with
      | mk words before parts later rest hwords hbefore hparts hrest =>
          obtain ⟨scanned, hscan, hmap⟩ :=
            scan_eq_ok_iff.mpr ⟨words, rest, hwords, hrest, rfl⟩
          have hfacts : (readFacts py scanned.records).2 = some .value :=
            (readFacts_value_iff (parts_ne_nil_of_scan hscan)).mpr
              ⟨before, parts, later, hmap, hbefore, hparts⟩
          rw [load_run_of_scan hs hscan, hfacts]

end Replay

end Aof

namespace Server

open Aof Connection Resp KeyValueStore
open Commands (longOnes)

section Promises

/-- A scan that does not return finds the log corrupt. -/
def DeclaresScan (py : Interpreter) (data : Bytes) : Prop :=
  ∀ e, scan py data = .error e → Corrupt e

/-- A load that does not return finds the log corrupt, and a server that does
not start for it exits with the code for that. -/
structure DeclaresLoad (py : Interpreter) (data : Bytes) : Prop where
  loads : ∀ {s}, Exact s → ∀ e,
    ((load py).run (s, LogFile.intact data)).1 = .error e → Corrupt e
  exits : ∀ {s}, Exact s → ∀ policy outcomes e,
    recover py policy outcomes s (LogFile.intact data) = .error e →
      exitCode e = some exitPersistenceError

variable {py : Interpreter} {data : Bytes}

theorem declaresScan_iff :
    DeclaresScan py data ↔ ¬ OverlongLog py data := by
  rw [← scan_eq_value_iff]
  constructor
  · intro h hvalue
    obtain ⟨offset, reason, hcorrupt⟩ := h _ hvalue
    cases hcorrupt
  · intro h e he
    rcases scan_corruptOrValue he with hcorrupt | rfl
    · exact hcorrupt
    · exact absurd he h

/-- A server that does not start has not loaded its log or cannot open it. -/
theorem recover_error {policy : FsyncPolicy} {outcomes : Nat → IoOutcome}
    {s : KeyValueStore} {log : LogFile} {e : Exc}
    (h : recover py policy outcomes s log = .error e) :
    ((load py).run (s, log)).1 = .error e ∨ e = .persistence "cannot open" := by
  unfold recover openJournal at h
  rcases hload : (load py).run (s, log) with ⟨e' | result, t, log'⟩
  · rw [hload] at h
    cases h
    exact Or.inl rfl
  · rw [hload] at h
    cases hopen : log'.openFails with
    | true =>
        simp only [hopen, if_true, Except.error.injEq] at h
        exact Or.inr h.symm
    | false =>
        simp [hopen] at h

theorem declaresLoad_iff :
    DeclaresLoad py data ↔ ¬ (OverlongLog py data ∨ OverlongReplay py data) := by
  constructor
  · intro h hlong
    have hs := exact_init (.frozen 0) 0 .noeviction
    obtain ⟨offset, reason, hcorrupt⟩ :=
      h.loads hs _ ((load_value_iff hs).mpr hlong)
    cases hcorrupt
  · intro h
    have hloads : ∀ {s}, Exact s → ∀ e,
        ((load py).run (s, LogFile.intact data)).1 = .error e →
          Corrupt e := by
      intro s hs e he
      rcases load_corruptOrValue hs he with hcorrupt | rfl
      · exact hcorrupt
      · exact absurd ((load_value_iff hs).mp he) h
    refine ⟨hloads, ?_⟩
    intro s hs policy outcomes e he
    rcases recover_error he with he | rfl
    · obtain ⟨offset, reason, rfl⟩ := hloads hs e he
      rfl
    · rfl

/-- **Malformed input ends in the declared errors** exactly where no number in
the way has more digits than `int` converts: one read of a client's stream, a
session on it, the scan of a log, and its replay at the start of a server. -/
theorem malformed_input_declared_iff (py : Interpreter)
    (stream data : Bytes) :
    (DeclaresRead py stream ↔ ¬ OverlongRequest py stream) ∧
    (DeclaresSession py stream ↔ ¬ OverlongStream py stream) ∧
    (DeclaresScan py data ↔ ¬ OverlongLog py data) ∧
    (DeclaresLoad py data ↔
      ¬ (OverlongLog py data ∨ OverlongReplay py data)) :=
  ⟨declaresRead_iff py stream, declaresSession_iff py stream,
    declaresScan_iff, declaresLoad_iff⟩

/-- The header of as many parts as 4301 ones say. -/
def longHeader : Bytes :=
  42 :: longOnes ++ crlf

/-- A key with as late a deadline. -/
def longDeadline : Bytes :=
  encodeRecord [ascii "SET", ascii "k", ascii "v", ascii "PXAT", longOnes]

theorem overlong_longOnes : Overlong .default longOnes := by
  unfold Overlong
  decide +kernel

theorem overlongReplay_longDeadline :
    OverlongReplay .default longDeadline := by
  have hreadable : ReadableRecord .default
      [ascii "SET", ascii "k", ascii "v", ascii "PXAT", longOnes] := by
    refine ⟨by simp, Interpreter.reads_of_le_word _ (by decide), ?_⟩
    intro part hpart
    refine Interpreter.reads_of_le_word _ ?_
    revert part
    decide +kernel
  have hword := (takes_record 0).encodes_iff.mp (encodes_record hreadable 0)
  have hlong : OverlongDeadline .default
      [ascii "SET", ascii "k", ascii "v", ascii "PXAT", longOnes] :=
    .set _ _ _ _ _ (by decide) (by decide) overlong_longOnes
  have hreplay := OverlongReplay.mk [longDeadline] [] _ [] []
    (.cons hword .nil) (by simp) hlong (.header [] rfl)
  simpa using hreplay

/-- **Such numbers escape.** The session ends without a word, and the server
ends without its exit code. -/
theorem long_numbers_escape :
    handleConnection .default longHeader (init (.frozen 0) 0 .noeviction)
        (⟨⟩ : NullJournal) =
      some ⟨[], true, init (.frozen 0) 0 .noeviction, ⟨⟩⟩ ∧
    recover .default .always (fun _ => ⟨0, false⟩)
        (init (.frozen 0) 0 .noeviction) (LogFile.intact longDeadline) =
      .error .value ∧
    exitCode .value = none ∧
    ¬ DeclaresRead .default longHeader ∧
    ¬ DeclaresSession .default longHeader ∧
    ¬ DeclaresScan .default longHeader ∧
    ¬ DeclaresLoad .default longDeadline := by
  have hrequest : OverlongRequest .default longHeader :=
    .count _ ⟨_, [], (List.append_nil _).symm, by decide +kernel,
      overlong_longOnes⟩
  have hlog : OverlongLog .default longHeader :=
    .mk [] [] _ .nil
      (.count _ ⟨_, [], (List.append_nil _).symm, overlong_longOnes⟩)
  have hstream : OverlongStream .default longHeader :=
    .mk [] [] _ .nil hrequest
  have hread := readCommand_value_iff.mpr hrequest
  have hs := exact_init (.frozen 0) 0 .noeviction
  have hload := (load_value_iff hs).mpr (Or.inr overlongReplay_longDeadline)
  refine ⟨?_, ?_, rfl, ?_, ?_, ?_, ?_⟩
  · rw [handleConnection_of_arrives (.start longHeader) (by simp [hread]),
      hread]
    rfl
  · unfold recover
    rcases hrun : (load .default).run (init (.frozen 0) 0 .noeviction,
      LogFile.intact longDeadline) with ⟨e | result, s, log⟩
    · rw [hrun] at hload
      cases hload
      rfl
    · rw [hrun] at hload
      cases hload
  · exact fun h => (declaresRead_iff _ _).mp h hrequest
  · exact fun h => (declaresSession_iff _ _).mp h hstream
  · exact fun h => declaresScan_iff.mp h hlog
  · exact fun h => declaresLoad_iff.mp h (Or.inr overlongReplay_longDeadline)

end Promises

end Server
end PyRedis
