import PyRedis.Theory.LogReplay

/-!
# What a refused log leaves behind

The framing of a log is checked before anything is applied, but the meaning of
its records is checked one by one while they are applied.  So a log that is
refused because some record means nothing has by then changed the store as the
records before it say.

`Word` is what a list of facts says about one key in the end.  A refused log
changes nothing exactly when these records have nothing new to say.
-/

namespace PyRedis
namespace Aof

open Foundation KeyValueStore Commands

section Words

/-- What facts say about a key in the end: nothing, that it is gone, what its
entry is, or only what its deadline is. -/
inductive Word where
  | nothing
  | gone
  | entry (e : Timed Bytes Int)
  | deadline (d : Option Int)
deriving DecidableEq

namespace Word

/-- A deadline on top of what was said. -/
def withDeadline (d : Option Int) : Word → Word
  | nothing => deadline d
  | gone => gone
  | entry e => entry ⟨e.value, d⟩
  | deadline _ => deadline d

/-- What is said about a key after one more fact. -/
def hear (k : Bytes) (w : Word) : Write → Word
  | .put key value d => if k = key then entry ⟨value, d⟩ else w
  | .expireAt key d => if k = key then w.withDeadline (some d) else w
  | .persist key => if k = key then w.withDeadline none else w
  | .drop keys => if k ∈ keys then gone else w
  | .dropAll => gone

/-- What becomes of an entry. -/
def amend : Word → Option (Timed Bytes Int) → Option (Timed Bytes Int)
  | nothing, o => o
  | gone, _ => none
  | entry e, _ => some e
  | deadline d, o => o.map (fun e => ⟨e.value, d⟩)

/-- The word is no news about an entry. -/
def Holds : Word → Option (Timed Bytes Int) → Prop
  | nothing, _ => True
  | gone, o => o = none
  | entry e, o => o = some e
  | deadline d, o => ∀ e, o = some e → e.deadline = d

theorem amend_withDeadline (w : Word) (d : Option Int)
    (o : Option (Timed Bytes Int)) :
    (w.withDeadline d).amend o =
      (w.amend o).map (fun e => ⟨e.value, d⟩) := by
  cases w with
  | deadline d' =>
      cases o <;> rfl
  | _ =>
      rfl

theorem amend_hear (k : Bytes) (w : Word) (f : Write)
    (o : Option (Timed Bytes Int)) :
    (w.hear k f).amend o = f.actOn k (w.amend o) := by
  cases f with
  | put key value d =>
      by_cases hk : k = key
      · simp [hear, Fact.actOn, hk, amend]
      · simp [hear, Fact.actOn, hk]
  | expireAt key d =>
      by_cases hk : k = key
      · simp [hear, Fact.actOn, hk, amend_withDeadline]
      · simp [hear, Fact.actOn, hk]
  | persist key =>
      by_cases hk : k = key
      · simp [hear, Fact.actOn, hk, amend_withDeadline]
      · simp [hear, Fact.actOn, hk]
  | drop keys =>
      by_cases hk : k ∈ keys
      · simp [hear, Fact.actOn, hk, amend]
      · simp [hear, Fact.actOn, hk]
  | dropAll =>
      rfl

/-- An entry is left as it is exactly when the word is no news about it. -/
theorem amend_eq_iff (w : Word) (o : Option (Timed Bytes Int)) :
    w.amend o = o ↔ w.Holds o := by
  cases w with
  | nothing =>
      simp [amend, Holds]
  | gone =>
      exact eq_comm
  | entry e =>
      exact eq_comm
  | deadline d =>
      cases o with
      | none =>
          simp [amend, Holds]
      | some e =>
          cases e with
          | mk value d' =>
              simp [amend, Holds, eq_comm]

end Word

/-- What a list of facts says about a key. -/
def word (k : Bytes) (fs : List Write) : Word :=
  fs.foldl (Word.hear k) .nothing

theorem replay_eq_amend (fs : List Write) (m : TimedMap Bytes Bytes Int)
    (k : Bytes) : replay fs m k = (word k fs).amend (m k) := by
  have hfold : ∀ (w : Word) (r : TimedMap Bytes Bytes Int),
      r k = w.amend (m k) →
      replay fs r k = (fs.foldl (Word.hear k) w).amend (m k) := by
    induction fs with
    | nil =>
        exact fun _ _ h => h
    | cons f fs ih =>
        intro w r h
        refine ih (w.hear k f) (f.apply r) ?_
        rw [Word.amend_hear, ← h]
        rfl
  exact hfold .nothing m rfl

end Words

section Refusals

variable {py : Interpreter} {s t : KeyValueStore} {file file' : LogFile}

/-- The facts that the records of a log state, up to the first record that
states none; none at all if the framing is damaged. -/
def factsBefore (py : Interpreter) (file : LogFile) : List Write :=
  match scan py (file.content.getD []) with
  | .error _ => []
  | .ok scanned => (readFacts py scanned.records).1

theorem truncate_run_error {size : Nat} {e : Exc}
    (h : (truncate size).run file = (.error e, file')) :
    e = .persistence "cannot repair" := by
  simp only [Fallible.run, truncate] at h
  split_ifs at h <;> cases h <;> rfl

/-- A refused log leaves the file alone, and the store changed by the records
before the one that was refused. -/
theorem load_run_of_corrupt (hs : Exact s) {offset : Nat} {reason : String}
    (h : (load py).run (s, file) =
      (.error (.corrupt offset reason), (t, file'))) :
    t = s.withFacts (factsBefore py file) ∧ file' = file := by
  by_cases hfile : file.content = none
  · rw [load_run_of_absent hfile] at h
    cases h
  simp only [load, Fallible.run_bind, Fallible.run_get, if_neg hfile,
    Fallible.run_onSnd] at h
  cases hread : file.readFails with
  | true =>
      have hbytes : readBytes.run file =
          (.error (.persistence "cannot read"), file) := by
        simp [Fallible.run, readBytes, hread]
      rw [hbytes] at h
      cases h
  | false =>
      have hbytes : readBytes.run file =
          (.ok (file.content.getD []), file) := by
        simp [Fallible.run, readBytes, hread]
      rw [hbytes] at h
      simp only at h
      cases hscan : scan py (file.content.getD []) with
      | error e =>
          rw [hscan] at h
          cases h
          refine ⟨?_, rfl⟩
          simp only [factsBefore, hscan]
          rfl
      | ok scanned =>
          rw [hscan] at h
          simp only [Fallible.run_ofExcept_ok, Fallible.run_onFst,
            forEach_applyRecord_run] at h
          simp only [factsBefore, hscan]
          cases hbad : (readFacts py scanned.records).2 with
          | some e =>
              rw [hbad] at h
              cases h
              exact ⟨rfl, rfl⟩
          | none =>
              -- nothing after the replay reports corruption
              rw [hbad] at h
              have ht := hs.withFacts (readFacts py scanned.records).1
              by_cases htorn : scanned.trailing = 0
              · simp only [htorn, ne_eq, not_true_eq_false, if_false,
                  Fallible.run_bind, Fallible.run_onFst,
                  dropExpired_run ht, dbsize_run ht.reclaimed] at h
                cases h
              · simp only [ne_eq, htorn, not_false_eq_true, if_true,
                  Fallible.run_bind, Fallible.run_onFst,
                  Fallible.run_onSnd] at h
                rcases hcut : (truncate scanned.consumed).run file with
                  ⟨e | _, file₁⟩
                · rw [hcut, truncate_run_error hcut] at h
                  cases h
                · rw [hcut] at h
                  simp only [dropExpired_run ht,
                    dbsize_run ht.reclaimed] at h
                  cases h

/-- **A refused log changes nothing exactly when the records before the one
that is refused say no more than the store holds already.** -/
theorem refused_log_changes_nothing_iff (hs : Exact s) {offset : Nat}
    {reason : String}
    (h : (load py).run (s, file) =
      (.error (.corrupt offset reason), (t, file'))) :
    (t.keyspace = s.keyspace ∧ file' = file) ↔
      ∀ k, (word k (factsBefore py file)).Holds (s.keyspace k) := by
  obtain ⟨rfl, rfl⟩ := load_run_of_corrupt hs h
  rw [keyspace_withFacts]
  have hkey : ∀ k, replay (factsBefore py file') s.keyspace k =
      s.keyspace k ↔ (word k (factsBefore py file')).Holds (s.keyspace k) := by
    intro k
    rw [replay_eq_amend, Word.amend_eq_iff]
  constructor
  · rintro ⟨hsame, -⟩ k
    exact (hkey k).mp (congrFun hsame k)
  · intro hholds
    exact ⟨funext fun k => (hkey k).mpr (hholds k), rfl⟩

/-- A key set, and then a record that means nothing. -/
def setThenJunk : Bytes :=
  encodeRecord [ascii "SET", ascii "k", ascii "v"] ++
    encodeRecord [ascii "JUNK"]

/-- The key is there although the log was refused. -/
theorem refused_log_sets_key :
    ((load .default).run (init (.frozen 0) 0 .noeviction,
        LogFile.intact setThenJunk)).1 =
      .error (.corrupt 27 "unknown record 'JUNK'") ∧
    (init (.frozen 0) 0 .noeviction).keyspace (ascii "k") = none ∧
    ((load .default).run (init (.frozen 0) 0 .noeviction,
        LogFile.intact setThenJunk)).2.1.keyspace (ascii "k") =
      some ⟨ascii "v", none⟩ := by
  decide +kernel

/-- The same with the key removed again before the bad record. -/
def setDropThenJunk : Bytes :=
  encodeRecord [ascii "SET", ascii "k", ascii "v"] ++
    encodeRecord [ascii "DEL", ascii "k"] ++ encodeRecord [ascii "JUNK"]

theorem refused_log_that_changes_nothing :
    ((load .default).run (init (.frozen 0) 0 .noeviction,
        LogFile.intact setDropThenJunk)).2.1.keyspace =
      (init (.frozen 0) 0 .noeviction).keyspace := by
  have hrefused : ((load .default).run (init (.frozen 0) 0 .noeviction,
      LogFile.intact setDropThenJunk)).1 =
      .error (.corrupt 47 "unknown record 'JUNK'") := by
    decide +kernel
  have hfacts : factsBefore .default (LogFile.intact setDropThenJunk) =
      [.put (ascii "k") (ascii "v") none, .drop [ascii "k"]] := by
    decide +kernel
  refine ((refused_log_changes_nothing_iff
    (exact_init (.frozen 0) 0 .noeviction)
    (Prod.ext hrefused rfl)).mpr ?_).1
  intro k
  rw [hfacts]
  by_cases hk : k = ascii "k"
  · simp [word, Word.hear, Word.Holds, hk]
  · simp [word, Word.hear, Word.Holds, hk]

end Refusals

end Aof
end PyRedis
