import PyRedis.Theory.Garbage
import PyRedis.Theory.Invariants
import PyRedis.Theory.RefusedLogs

/-!
# Replaying a log twice

The records of a log state facts, not changes.  So a list of records that is
applied on top of its own result changes nothing more, and a key that some
record sets, deletes or flushes ends up the same from whatever store the
replay starts: the last such record leaves nothing of what was there, and from
then on both replays do the same to the key.
-/

namespace PyRedis
namespace Aof

open Foundation KeyValueStore

section Words

/-- What was said once is no news. -/
theorem Word.amend_amend (w : Word) (o : Option (Timed Bytes Int)) :
    w.amend (w.amend o) = w.amend o := by
  cases w with
  | deadline d =>
      cases o <;> rfl
  | _ =>
      rfl

theorem replay_replay (fs : List Write) (m : TimedMap Bytes Bytes Int) :
    replay fs (replay fs m) = replay fs m := by
  funext k
  rw [replay_eq_amend, replay_eq_amend]
  exact Word.amend_amend (word k fs) (m k)

end Words

section Records

variable {py : Interpreter} {record : Record} {key : Bytes}

/-- The replay of the records of a log, in their order. -/
def replayRecords (py : Interpreter) (records : List Record) : StoreM Unit :=
  Fallible.forEach (applyRecord py) records

/-- There is a store to which the record can be applied. -/
def Accepted (py : Interpreter) (record : Record) : Prop :=
  ∃ s, ((applyRecord py record).run s).1 = .ok ()

/-- The record sets, deletes or flushes the key. -/
inductive Resets (key : Bytes) : Record → Prop
  | set {offset : Nat} {first value : Bytes} {rest : List Bytes}
      (hname : upper first = ascii "SET") :
      Resets key ⟨offset, first :: key :: value :: rest⟩
  | delete {offset : Nat} {first : Bytes} {keys : List Bytes}
      (hname : upper first = ascii "DEL") (hkey : key ∈ keys) :
      Resets key ⟨offset, first :: keys⟩
  | flush {offset : Nat} {first : Bytes} {rest : List Bytes}
      (hname : upper first = ascii "FLUSHDB") :
      Resets key ⟨offset, first :: rest⟩

/-- An accepted record states a fact. -/
theorem Accepted.fact (h : Accepted py record) :
    ∃ f, readFact py record = .ok f := by
  obtain ⟨s, hs⟩ := h
  rw [applyRecord_run] at hs
  cases hfact : readFact py record with
  | error e =>
      rw [hfact] at hs
      cases hs
  | ok f =>
      exact ⟨f, rfl⟩

/-- What a record that resets a key states leaves nothing of the key. -/
theorem Resets.overrides (h : Resets key record) {f : Write}
    (hfact : readFact py record = .ok f) : f.Overrides key := by
  intro o o'
  cases h with
  | @set offset first value rest hname =>
      have hstates : States py (first :: key :: value :: rest) f :=
        states_of_readFact (List.cons_ne_nil _ _) hfact
      cases hstates with
      | set _ _ _ _ =>
          simp [Fact.actOn]
      | setUntil _ _ _ option raw d _ _ _ =>
          simp [Fact.actOn]
      | expireAt _ _ _ d h _ =>
          exact absurd (hname.symm.trans h) (by decide)
      | drop _ _ _ h =>
          exact absurd (hname.symm.trans h) (by decide)
  | @delete offset first keys hname hkey =>
      have hstates : States py (first :: keys) f :=
        states_of_readFact (List.cons_ne_nil _ _) hfact
      cases hstates with
      | set _ _ _ h =>
          exact absurd (hname.symm.trans h) (by decide)
      | setUntil _ _ _ _ _ d h _ _ =>
          exact absurd (hname.symm.trans h) (by decide)
      | expireAt _ _ _ d h _ =>
          exact absurd (hname.symm.trans h) (by decide)
      | drop _ _ _ _ =>
          simp only [Fact.actOn, if_pos hkey]
      | persist _ _ h =>
          exact absurd (hname.symm.trans h) (by decide)
      | dropAll _ _ =>
          cases hkey
  | @flush offset first rest hname =>
      have hstates : States py (first :: rest) f :=
        states_of_readFact (List.cons_ne_nil _ _) hfact
      cases hstates with
      | set _ _ _ h =>
          exact absurd (hname.symm.trans h) (by decide)
      | setUntil _ _ _ _ _ d h _ _ =>
          exact absurd (hname.symm.trans h) (by decide)
      | expireAt _ _ _ d h _ =>
          exact absurd (hname.symm.trans h) (by decide)
      | drop _ _ _ h =>
          exact absurd (hname.symm.trans h) (by decide)
      | persist _ _ h =>
          exact absurd (hname.symm.trans h) (by decide)
      | dropAll _ _ =>
          rfl

/-- Accepted records all state facts, and a key that one of them resets is
overridden by one of the facts. -/
theorem readFacts_of_accepted {records : List Record}
    (h : ∀ record ∈ records, Accepted py record) :
    ∃ fs, readFacts py records = (fs, none) ∧
      ∀ key, (∃ record ∈ records, Resets key record) →
        ∃ f ∈ fs, f.Overrides key := by
  induction records with
  | nil =>
      refine ⟨[], rfl, ?_⟩
      rintro key ⟨record, hmem, -⟩
      cases hmem
  | cons record records ih =>
      obtain ⟨hrecord, hrecords⟩ := List.forall_mem_cons.mp h
      obtain ⟨f, hf⟩ := hrecord.fact
      obtain ⟨fs, hfs, hover⟩ := ih hrecords
      refine ⟨f :: fs, ?_, ?_⟩
      · simp only [readFacts, hf, hfs]
      · rintro key ⟨reset, hmem, hresets⟩
        rcases List.mem_cons.mp hmem with rfl | hmem
        · exact ⟨f, List.mem_cons_self, hresets.overrides hf⟩
        · obtain ⟨g, hg, hgover⟩ := hover key ⟨reset, hmem, hresets⟩
          exact ⟨g, List.mem_cons_of_mem f hg, hgover⟩

end Records

section Contents

variable {s t : KeyValueStore}

/-- The same keys, values and deadlines, and the same memory total. -/
structure SameContents (s t : KeyValueStore) : Prop where
  data : ∀ key, s.data.lookup key = t.data.lookup key
  expires : ∀ key, s.expires.lookup key = t.expires.lookup key
  memory : s.memory = t.memory

theorem sameContents_of_keyspace (hs : Exact s) (ht : Exact t)
    (h : s.keyspace = t.keyspace) : SameContents s t := by
  have hdata : ∀ key, s.data.lookup key = t.data.lookup key := by
    intro key
    rw [data_lookup_eq, data_lookup_eq, h]
  refine ⟨hdata, ?_, ?_⟩
  · intro key
    rw [hs.expires_lookup_eq, ht.expires_lookup_eq, h]
  · rw [hs.memory_eq, ht.memory_eq]
    exact OrderedDict.weight_congr cost hdata

end Contents

section Replays

/-- **Replay is idempotent, and forgets where it started.**  Accepted records
can be replayed into every store, the empty one among them.  Replayed again
on top they change no key, value or deadline and not the memory total; and
replayed into any other store they end with the same value and deadline for
every key that one of them sets, deletes or flushes. -/
theorem replay_idempotent {py : Interpreter} {records : List Record}
    (haccepted : ∀ record ∈ records, Accepted py record)
    {maxmemory maxmemory' : Int} {policy policy' : MaxmemoryPolicy}
    {s s' : KeyValueStore} (hs : Reachable py maxmemory policy true s)
    (hs' : Reachable py maxmemory' policy' true s') :
    ∃ t u t',
      (replayRecords py records).run s = (.ok (), t) ∧
      (replayRecords py records).run t = (.ok (), u) ∧ SameContents u t ∧
      (replayRecords py records).run s' = (.ok (), t') ∧
      ∀ key, (∃ record ∈ records, Resets key record) →
        t.data.lookup key = t'.data.lookup key ∧
          t.expires.lookup key = t'.expires.lookup key := by
  obtain ⟨fs, hfs, hover⟩ := readFacts_of_accepted haccepted
  have hrun : ∀ r : KeyValueStore,
      (replayRecords py records).run r = (.ok (), r.withFacts fs) := by
    intro r
    simp only [replayRecords, forEach_applyRecord_run, hfs]
  have ht := hs.exact.withFacts fs
  have ht' := hs'.exact.withFacts fs
  refine ⟨_, _, _, hrun s, hrun _, ?_, hrun s', ?_⟩
  · refine sameContents_of_keyspace (ht.withFacts fs) ht ?_
    simp only [keyspace_withFacts, replay_replay]
  · intro key hreset
    have hkey : (s.withFacts fs).keyspace key =
        (s'.withFacts fs).keyspace key := by
      simp only [keyspace_withFacts]
      exact replay_eq_of_overrides (hover key hreset) _ _
    constructor
    · rw [data_lookup_eq, data_lookup_eq, hkey]
    · rw [ht.expires_lookup_eq, ht'.expires_lookup_eq, hkey]

/-- A key set and made to stay, a deadline for a key that may be missing, and
two keys deleted. -/
def mixedRecords : List Record :=
  [⟨0, [ascii "SET", ascii "a", ascii "1", ascii "PXAT", ascii "50"]⟩,
    ⟨45, [ascii "PEXPIREAT", ascii "b", ascii "70"]⟩,
    ⟨76, [ascii "PERSIST", ascii "a"]⟩,
    ⟨98, [ascii "DEL", ascii "c", ascii "d"]⟩]

/-- A store that holds the second of these keys. -/
def storeWithKey : KeyValueStore :=
  ((Operation.effect .default
    (.restore (ascii "b") (ascii "2") (some 9))).run
      (init (.frozen 0) 0 .noeviction)).2

/-- They are replayed twice into an empty store, and once into another. -/
theorem mixed_records_replayed_twice :
    ∃ t u t',
      (replayRecords .default mixedRecords).run
        (init (.frozen 0) 0 .noeviction) = (.ok (), t) ∧
      (replayRecords .default mixedRecords).run t = (.ok (), u) ∧
      SameContents u t ∧
      (replayRecords .default mixedRecords).run storeWithKey = (.ok (), t') ∧
      ∀ key, (∃ record ∈ mixedRecords, Resets key record) →
        t.data.lookup key = t'.data.lookup key ∧
          t.expires.lookup key = t'.expires.lookup key := by
  have haccepted : ∀ record ∈ mixedRecords, Accepted .default record := by
    have hfacts : ∀ record ∈ mixedRecords,
        ((applyRecord .default record).run
          (init (.frozen 0) 0 .noeviction)).1 = .ok () := by
      decide +kernel
    exact fun record hmem => ⟨_, hfacts record hmem⟩
  exact replay_idempotent haccepted (.empty (.frozen 0))
    (.operation (.empty (.frozen 0)) _ fun _ => rfl)

end Replays

end Aof
end PyRedis
