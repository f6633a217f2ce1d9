import PyRedis.Core.Server
import PyRedis.Theory.LogReplay

/-!
# The journal on a device that may fail

A journal that works holds back nothing.  Handed some bytes, it either takes
all of them or fails with a beginning of them in the file, and from then on
it takes none.
-/

namespace PyRedis

open Foundation

namespace AppendOnlyFile

section Bytes

/-- A journal none of whose calls has failed: every byte it was handed is in
the file. -/
structure Working (outcomes : Nat → IoOutcome) (content : Bytes)
    (j : AppendOnlyFile) : Prop where
  working : j.hasFailed = false
  flushed : j.file.buffered = []
  content : j.file.content = content
  outcomes : j.file.outcomes = outcomes

/-- A journal that has given up, with what had reached the file by then. -/
structure Broken (content : Bytes) (j : AppendOnlyFile) : Prop where
  failed : j.hasFailed = true
  content : j.file.content = content

/-- In the middle of a call: some of the bytes are in the file, and the others
are held back. -/
structure Between (outcomes : Nat → IoOutcome) (content bytes : Bytes)
    (j : AppendOnlyFile) : Prop where
  working : j.hasFailed = false
  split : ∃ n, j.file.content = content ++ bytes.take n ∧
    j.file.buffered = bytes.drop n
  outcomes : j.file.outcomes = outcomes

/-- A call has failed. -/
def CallFails (outcomes : Nat → IoOutcome) : Prop :=
  ∃ i, (outcomes i).fails = true

variable {outcomes : Nat → IoOutcome} {content bytes : Bytes}
variable {j : AppendOnlyFile}

theorem Between.moveOut (h : Between outcomes content bytes j) (n : Nat) :
    Between outcomes content bytes { j with file := j.file.moveOut n } := by
  obtain ⟨hworking, ⟨m, hcontent, hbuffered⟩, houtcomes⟩ := h
  refine ⟨hworking, ⟨m + n, ?_, ?_⟩, houtcomes⟩
  · simp only [BinaryFile.moveOut, hcontent, hbuffered, List.append_assoc,
      List.take_add]
  · simp only [BinaryFile.moveOut, hbuffered, List.drop_drop]

/-- With nothing held back, all the bytes are in the file. -/
theorem Between.taken (h : Between outcomes content bytes j)
    (hflushed : j.file.buffered = []) :
    Working outcomes (content ++ bytes) j := by
  obtain ⟨hworking, ⟨m, hcontent, hbuffered⟩, houtcomes⟩ := h
  refine ⟨hworking, hflushed, ?_, houtcomes⟩
  have hall : bytes.length ≤ m := by
    rw [hflushed] at hbuffered
    exact List.drop_eq_nil_iff.mp hbuffered.symm
  rw [hcontent, List.take_of_length_le hall]

theorem Working.between (h : Working outcomes content j) :
    Between outcomes content [] j :=
  ⟨h.working, ⟨0, by simp [h.content], by simp [h.flushed]⟩, h.outcomes⟩

/-- The steps of a call, whether they return or raise. -/
abbrev Calls (outcomes : Nat → IoOutcome) (content bytes : Bytes)
    (flushed : Bool) (x : Fallible Unit AppendOnlyFile Unit)
    (j : AppendOnlyFile) : Prop :=
  Fallible.Triple x j
    (fun _ j' => Between outcomes content bytes j' ∧
      (flushed = true → j'.file.buffered = []))
    (fun _ j' => Between outcomes content bytes j' ∧ CallFails outcomes)

theorem calls_write (h : Working outcomes content j) (record : Bytes) :
    Calls outcomes content record false (onFile (BinaryFile.write record))
      j := by
  have hheld : Between outcomes content record
      { j with file := { j.file with
        buffered := j.file.buffered ++ record } } :=
    ⟨h.working, ⟨0, by simp [h.content], by simp [h.flushed]⟩, h.outcomes⟩
  have hmoved := hheld.moveOut j.file.outcome.moved
  by_cases hfails : j.file.outcome.fails = true
  · have hcall : CallFails outcomes := ⟨j.file.calls, by
      rw [← h.outcomes]
      exact hfails⟩
    exact Fallible.Triple.of_error
      (by simp [onFile, BinaryFile.write, hfails, Fallible.run]; rfl)
      ⟨hmoved, hcall⟩
  · exact Fallible.Triple.of_ok
      (by simp [onFile, BinaryFile.write, hfails, Fallible.run]; rfl)
      ⟨hmoved, by simp⟩

theorem calls_flush (h : Between outcomes content bytes j) :
    Calls outcomes content bytes true (onFile BinaryFile.flush) j := by
  by_cases hfails : j.file.outcome.fails = true
  · have hcall : CallFails outcomes := ⟨j.file.calls, by
      rw [← h.outcomes]
      exact hfails⟩
    exact Fallible.Triple.of_error
      (by simp [onFile, BinaryFile.flush, hfails, Fallible.run]; rfl)
      ⟨h.moveOut j.file.outcome.moved, hcall⟩
  · exact Fallible.Triple.of_ok
      (by simp [onFile, BinaryFile.flush, hfails, Fallible.run]; rfl)
      ⟨h.moveOut j.file.buffered.length, by simp [BinaryFile.moveOut]⟩

theorem calls_fsync (h : Between outcomes content bytes j)
    (hflushed : j.file.buffered = []) :
    Calls outcomes content bytes true (onFile BinaryFile.fsync) j := by
  by_cases hfails : j.file.outcome.fails = true
  · have hcall : CallFails outcomes := ⟨j.file.calls, by
      rw [← h.outcomes]
      exact hfails⟩
    exact Fallible.Triple.of_error
      (by simp [onFile, BinaryFile.fsync, hfails, Fallible.run]; rfl)
      ⟨h.moveOut 0, hcall⟩
  · exact Fallible.Triple.of_ok
      (by simp [onFile, BinaryFile.fsync, hfails, Fallible.run]; rfl)
      ⟨h.moveOut 0, by simp [BinaryFile.moveOut, hflushed]⟩

end Bytes

section Records

/-- What handing bytes to a working journal comes to. -/
inductive Writes (outcomes : Nat → IoOutcome) (content bytes : Bytes) :
    Except Exc Unit × AppendOnlyFile → Prop where
  | taken {j : AppendOnlyFile}
      (h : Working outcomes (content ++ bytes) j) :
      Writes outcomes content bytes (.ok (), j)
  | failed {j : AppendOnlyFile} {message : String} (n : Nat)
      (hcall : CallFails outcomes)
      (h : Broken (content ++ bytes.take n) j) :
      Writes outcomes content bytes (.error (.persistence message), j)

variable {outcomes : Nat → IoOutcome} {content bytes : Bytes}
variable {j : AppendOnlyFile}

/-- The failure of a call is the failure of the journal. -/
theorem attempt_run (action : String)
    {x : Fallible Unit AppendOnlyFile Unit}
    (h : Calls outcomes content bytes true x j) :
    Writes outcomes content bytes ((attempt action x).run j) := by
  rcases hx : x.run j with ⟨_ | _, j'⟩
  · obtain ⟨⟨-, ⟨n, hcontent, -⟩, -⟩, hcall⟩ := h.error hx
    have hrun : (attempt action x).run j =
        (.error (.persistence (action ++ " failed")),
          { j' with hasFailed := true }) := by
      simp only [Fallible.run, attempt, fail] at hx ⊢
      rw [hx]
    rw [hrun]
    exact Writes.failed n hcall ⟨rfl, hcontent⟩
  · obtain ⟨hbetween, hflushed⟩ := h.ok hx
    have hrun : (attempt action x).run j = (.ok (), j') := by
      simp only [Fallible.run, attempt] at hx ⊢
      rw [hx]
    rw [hrun]
    exact Writes.taken (hbetween.taken (hflushed rfl))

theorem append_run (h : Working outcomes content j) (record : Bytes) :
    Writes outcomes content record ((append record).run j) := by
  simp only [append, Fallible.run_bind, Fallible.run_get, h.working,
    Bool.false_eq_true, if_false]
  apply attempt_run
  refine Fallible.Triple.bind (calls_write h record) ?_
  intro _ j₁ h₁
  refine Fallible.Triple.bind (calls_flush h₁.1) ?_
  intro _ j₂ h₂
  split_ifs
  · exact calls_fsync h₂.1 (h₂.2 rfl)
  · exact Fallible.Triple.pure h₂

theorem sync_run (h : Working outcomes content j) :
    Writes outcomes content [] (sync.run j) := by
  simp only [sync, Fallible.run_bind, Fallible.run_get, h.working,
    Bool.false_eq_true, if_false]
  apply attempt_run
  refine Fallible.Triple.bind (calls_flush h.between) ?_
  intro _ j₁ h₁
  exact calls_fsync h₁.1 (h₁.2 rfl)

theorem sync_run_of_failed (h : j.hasFailed = true) :
    sync.run j = (.ok (), j) := by
  simp [sync, h]

/-- **Several records are one run of bytes**: the journal takes them all, or
fails with a beginning of them in the file. -/
theorem recordAll_run (h : Working outcomes content j) (fs : List Write) :
    Writes outcomes content (Aof.encodeFacts fs)
      ((Commands.recordAll fs).run j) := by
  induction fs generalizing content j with
  | nil =>
      refine Writes.taken ?_
      rwa [Aof.encodeFacts, List.flatMap_nil, List.append_nil]
  | cons f fs ih =>
      have hrun : (Commands.recordAll (f :: fs)).run j =
          match (append (Commands.encodeFact f)).run j with
          | (.ok _, j') => (Commands.recordAll fs).run j'
          | (.error e, j') => (.error e, j') := by
        simp only [Commands.recordAll, Fallible.forEach, Fallible.run_bind]
        have happend : (Journal.append (Commands.encodeFact f) :
            Fallible Exc AppendOnlyFile Unit) =
            append (Commands.encodeFact f) := rfl
        rw [happend]
        rcases (append (Commands.encodeFact f)).run j with ⟨e | _, j'⟩ <;> rfl
      have happend := append_run h (Commands.encodeFact f)
      rw [hrun]
      generalize (append (Commands.encodeFact f)).run j = result at happend
      cases happend with
      | @taken j' htaken =>
          have hrest := ih htaken
          simp only
          generalize (Commands.recordAll fs).run j' = result at hrest
          cases hrest with
          | taken hall =>
              refine Writes.taken ?_
              rwa [Aof.encodeFacts, List.flatMap_cons, ← List.append_assoc]
          | failed n hcall hbroken =>
              refine Writes.failed
                ((Commands.encodeFact f).length + n) hcall ?_
              rwa [Aof.encodeFacts, List.flatMap_cons,
                List.take_length_add_append, ← List.append_assoc]
      | failed n hcall hbroken =>
          refine Writes.failed (min n (Commands.encodeFact f).length)
            hcall ?_
          rwa [Aof.encodeFacts, List.flatMap_cons, List.take_append_of_le_length
            (min_le_right _ _), ← List.take_eq_take_min]

end Records

end AppendOnlyFile

end PyRedis
