import PyRedis.Theory.CommandSteps
import PyRedis.Theory.RecordFraming

/-!
# Replaying a log

`readFact` is the meaning of a record: the fact it states, or why it states
none.  Applying a record is applying its fact to the store, and the record of
a fact means that fact, so a log written by the server is replayed as the list
of facts that were recorded.

`load` in closed form: the records of the scan are applied until one means
nothing, and then the load is refused; otherwise the torn tail is cut off and
what has expired is dropped.
-/

namespace PyRedis
namespace KeyValueStore

open Foundation

/-- A store after `set_deadline`. -/
def amended (s : KeyValueStore) (key : Bytes) (d : Int) : KeyValueStore :=
  if key ∈ s.data then s.setExpires key d else s

/-- A store after a fact, expiry not looked at. -/
def withFact (s : KeyValueStore) : Write → KeyValueStore
  | .put key value d => (s.write key value).assignExpires key d
  | .expireAt key d => s.amended key d
  | .persist key => s.popExpires key
  | .drop keys => s.dropAll keys
  | .dropAll => s.cleared

def withFacts (s : KeyValueStore) (fs : List Write) : KeyValueStore :=
  fs.foldl withFact s

variable {s : KeyValueStore}

theorem Exact.withFact (h : Exact s) (f : Write) : Exact (s.withFact f) := by
  cases f with
  | put key value d =>
      exact h.restored key value d
  | expireAt key d =>
      change Exact (s.amended key d)
      unfold amended
      split_ifs with hk
      · exact h.setExpires hk d
      · exact h
  | persist key =>
      exact h.popExpires key
  | drop keys =>
      exact h.dropAll keys
  | dropAll =>
      exact Exact.cleared s

theorem settings_withFact (s : KeyValueStore) (f : Write) :
    (s.withFact f).settings = s.settings := by
  cases f with
  | put key value d =>
      simp [withFact]
  | expireAt key d =>
      simp only [withFact, amended]
      split_ifs <;> simp
  | persist key =>
      simp [withFact]
  | drop keys =>
      simp [withFact]
  | dropAll =>
      simp [withFact]

theorem clock_withFact (s : KeyValueStore) (f : Write) :
    (s.withFact f).clock = s.clock := by
  cases f with
  | put key value d =>
      cases d <;> rfl
  | expireAt key d =>
      simp only [withFact, amended]
      split_ifs <;> rfl
  | persist key =>
      rfl
  | drop keys =>
      exact (sameSettings_dropAll s keys).clock
  | dropAll =>
      rfl

theorem keyspace_withFact (s : KeyValueStore) (f : Write) :
    (s.withFact f).keyspace = f.apply s.keyspace := by
  cases f with
  | put key value d =>
      exact keyspace_assign s key value d
  | expireAt key d =>
      simp only [withFact, amended]
      split_ifs with hk
      · exact keyspace_setExpires s key d
      · funext j
        by_cases hj : j = key
        · subst hj
          have hnone := keyspace_eq_none_iff.mpr hk
          simp [Fact.apply, Fact.actOn, hnone]
        · simp [Fact.apply, Fact.actOn, hj]
  | persist key =>
      exact keyspace_popExpires s key
  | drop keys =>
      exact keyspace_dropAll s keys
  | dropAll =>
      exact keyspace_cleared s

theorem Exact.withFacts (h : Exact s) (fs : List Write) :
    Exact (s.withFacts fs) := by
  induction fs generalizing s with
  | nil =>
      exact h
  | cons f fs ih =>
      exact ih (h.withFact f)

theorem settings_withFacts (s : KeyValueStore) (fs : List Write) :
    (s.withFacts fs).settings = s.settings := by
  induction fs generalizing s with
  | nil =>
      rfl
  | cons f fs ih =>
      exact (ih (s.withFact f)).trans (settings_withFact s f)

theorem clock_withFacts (s : KeyValueStore) (fs : List Write) :
    (s.withFacts fs).clock = s.clock := by
  induction fs generalizing s with
  | nil =>
      rfl
  | cons f fs ih =>
      exact (ih (s.withFact f)).trans (clock_withFact s f)

theorem keyspace_withFacts (s : KeyValueStore) (fs : List Write) :
    (s.withFacts fs).keyspace = replay fs s.keyspace := by
  induction fs generalizing s with
  | nil =>
      rfl
  | cons f fs ih =>
      rw [replay_cons, ← keyspace_withFact]
      exact ih (s.withFact f)

end KeyValueStore

namespace Aof

open Foundation KeyValueStore Commands

section Meaning

/-- The fact a record states, or why it states none. -/
def readFact (py : Interpreter) (record : Record) : Except Exc Write :=
  match record.parts with
  | [] => .error .index
  | first :: args =>
      if upper first = ascii "SET" then
        match args with
        | [key, value] => .ok (.put key value none)
        | [key, value, option, raw] =>
            if upper option = ascii "PXAT" then do
              let deadline ←
                count py raw record.offset "malformed PXAT deadline"
              .ok (.put key value (some deadline))
            else .error (.corrupt record.offset "malformed SET record")
        | _ => .error (.corrupt record.offset "malformed SET record")
      else if upper first = ascii "PEXPIREAT" then
        match args with
        | [key, raw] => do
            let deadline ← count py raw record.offset "bad deadline"
            .ok (.expireAt key deadline)
        | _ => .error (.corrupt record.offset "malformed PEXPIREAT record")
      else if upper first = ascii "DEL" then
        match args with
        | [] => .error (.corrupt record.offset "malformed DEL record")
        | keys => .ok (.drop keys)
      else if upper first = ascii "PERSIST" then
        match args with
        | [key] => .ok (.persist key)
        | _ => .error (.corrupt record.offset "malformed PERSIST record")
      else if upper first = ascii "FLUSHDB" then
        match args with
        | [] => .ok .dropAll
        | _ => .error (.corrupt record.offset "malformed FLUSHDB record")
      else
        .error (.corrupt record.offset
          ("unknown record '" ++ Resp.printable (first.take 32) ++ "'"))

variable {py : Interpreter}

/-- Applying a record is applying the fact it states. -/
theorem applyRecord_run (py : Interpreter) (record : Record)
    (s : KeyValueStore) :
    (applyRecord py record).run s =
      match readFact py record with
      | .ok f => (.ok (), s.withFact f)
      | .error e => (.error e, s) := by
  obtain ⟨offset, parts⟩ := record
  cases parts with
  | nil =>
      rfl
  | cons first args =>
      simp only [applyRecord, readFact]
      by_cases hset : upper first = ascii "SET"
      · simp only [if_pos hset]
        rcases args with _ | ⟨key, _ | ⟨value, _ | ⟨option, _ |
          ⟨raw, _ | ⟨_, _⟩⟩⟩⟩⟩
        · rfl
        · rfl
        · rfl
        · rfl
        · simp only
          split_ifs
          · cases count py raw offset "malformed PXAT deadline" <;> rfl
          · rfl
        · rfl
      simp only [if_neg hset]
      by_cases hexpire : upper first = ascii "PEXPIREAT"
      · simp only [if_pos hexpire]
        rcases args with _ | ⟨key, _ | ⟨raw, _ | ⟨_, _⟩⟩⟩
        · rfl
        · rfl
        · simp only
          cases count py raw offset "bad deadline" <;> rfl
        · rfl
      simp only [if_neg hexpire]
      by_cases hdel : upper first = ascii "DEL"
      · simp only [if_pos hdel]
        cases args with
        | nil =>
            rfl
        | cons key keys =>
            exact discard_run s (key :: keys)
      simp only [if_neg hdel]
      by_cases hpersist : upper first = ascii "PERSIST"
      · simp only [if_pos hpersist]
        rcases args with _ | ⟨_, _ | ⟨_, _⟩⟩
        · rfl
        · rfl
        · rfl
      simp only [if_neg hpersist]
      by_cases hflush : upper first = ascii "FLUSHDB"
      · simp only [if_pos hflush]
        cases args <;> rfl
      · simp only [if_neg hflush]
        rfl

/-- The parts of a record and the fact it states. -/
inductive States (py : Interpreter) : List Bytes → Write → Prop
  | set (name key value : Bytes) (h : upper name = ascii "SET") :
      States py [name, key, value] (.put key value none)
  | setUntil (name key value option raw : Bytes) (d : Int)
      (h : upper name = ascii "SET") (hoption : upper option = ascii "PXAT")
      (hraw : py.int raw = some d) :
      States py [name, key, value, option, raw] (.put key value (some d))
  | expireAt (name key raw : Bytes) (d : Int)
      (h : upper name = ascii "PEXPIREAT") (hraw : py.int raw = some d) :
      States py [name, key, raw] (.expireAt key d)
  | drop (name key : Bytes) (keys : List Bytes)
      (h : upper name = ascii "DEL") :
      States py (name :: key :: keys) (.drop (key :: keys))
  | persist (name key : Bytes) (h : upper name = ascii "PERSIST") :
      States py [name, key] (.persist key)
  | dropAll (name : Bytes) (h : upper name = ascii "FLUSHDB") :
      States py [name] .dropAll

/-- The parts of a record with a deadline that is too long. -/
inductive OverlongDeadline (py : Interpreter) : List Bytes → Prop
  | set (name key value option raw : Bytes) (h : upper name = ascii "SET")
      (hoption : upper option = ascii "PXAT") (hraw : Overlong py raw) :
      OverlongDeadline py [name, key, value, option, raw]
  | expireAt (name key raw : Bytes) (h : upper name = ascii "PEXPIREAT")
      (hraw : Overlong py raw) : OverlongDeadline py [name, key, raw]

/-- What the parts of a record come to. -/
theorem readFact_verdict (py : Interpreter) (offset : Nat)
    {parts : List Bytes} (hne : parts ≠ []) :
    (∃ f, States py parts f ∧ readFact py ⟨offset, parts⟩ = .ok f) ∨
      (OverlongDeadline py parts ∧
        readFact py ⟨offset, parts⟩ = .error .value) ∨
      ∃ reason, readFact py ⟨offset, parts⟩ =
        .error (.corrupt offset reason) := by
  obtain ⟨name, args, rfl⟩ := List.exists_cons_of_ne_nil hne
  simp only [readFact]
  by_cases hset : upper name = ascii "SET"
  · simp only [if_pos hset]
    rcases args with _ | ⟨key, _ | ⟨value, _ | ⟨option, _ |
      ⟨raw, _ | ⟨_, _⟩⟩⟩⟩⟩
    · exact Or.inr (Or.inr ⟨_, rfl⟩)
    · exact Or.inr (Or.inr ⟨_, rfl⟩)
    · exact Or.inl ⟨_, .set name key value hset, rfl⟩
    · exact Or.inr (Or.inr ⟨_, rfl⟩)
    · simp only
      by_cases hoption : upper option = ascii "PXAT"
      · rw [if_pos hoption]
        rcases count_verdict py raw offset "malformed PXAT deadline" with
          ⟨n, hraw, hn⟩ | ⟨hraw, hn⟩ | hn
        · rw [hn]
          exact Or.inl ⟨_, .setUntil name key value option raw n hset hoption
            hraw, rfl⟩
        · rw [hn]
          exact Or.inr (Or.inl ⟨.set name key value option raw hset hoption
            hraw, rfl⟩)
        · rw [hn]
          exact Or.inr (Or.inr ⟨_, rfl⟩)
      · rw [if_neg hoption]
        exact Or.inr (Or.inr ⟨_, rfl⟩)
    · exact Or.inr (Or.inr ⟨_, rfl⟩)
  simp only [if_neg hset]
  by_cases hexpire : upper name = ascii "PEXPIREAT"
  · simp only [if_pos hexpire]
    rcases args with _ | ⟨key, _ | ⟨raw, _ | ⟨_, _⟩⟩⟩
    · exact Or.inr (Or.inr ⟨_, rfl⟩)
    · exact Or.inr (Or.inr ⟨_, rfl⟩)
    · simp only
      rcases count_verdict py raw offset "bad deadline" with
        ⟨n, hraw, hn⟩ | ⟨hraw, hn⟩ | hn
      · rw [hn]
        exact Or.inl ⟨_, .expireAt name key raw n hexpire hraw, rfl⟩
      · rw [hn]
        exact Or.inr (Or.inl ⟨.expireAt name key raw hexpire hraw, rfl⟩)
      · rw [hn]
        exact Or.inr (Or.inr ⟨_, rfl⟩)
    · exact Or.inr (Or.inr ⟨_, rfl⟩)
  simp only [if_neg hexpire]
  by_cases hdel : upper name = ascii "DEL"
  · simp only [if_pos hdel]
    cases args with
    | nil =>
        exact Or.inr (Or.inr ⟨_, rfl⟩)
    | cons key keys =>
        exact Or.inl ⟨_, .drop name key keys hdel, rfl⟩
  simp only [if_neg hdel]
  by_cases hpersist : upper name = ascii "PERSIST"
  · simp only [if_pos hpersist]
    rcases args with _ | ⟨key, _ | ⟨_, _⟩⟩
    · exact Or.inr (Or.inr ⟨_, rfl⟩)
    · exact Or.inl ⟨_, .persist name key hpersist, rfl⟩
    · exact Or.inr (Or.inr ⟨_, rfl⟩)
  simp only [if_neg hpersist]
  by_cases hflush : upper name = ascii "FLUSHDB"
  · simp only [if_pos hflush]
    cases args with
    | nil =>
        exact Or.inl ⟨_, .dropAll name hflush, rfl⟩
    | cons key keys =>
        exact Or.inr (Or.inr ⟨_, rfl⟩)
  · simp only [if_neg hflush]
    exact Or.inr (Or.inr ⟨_, rfl⟩)

theorem readFact_of_states {parts : List Bytes} {f : Write}
    (h : States py parts f) (offset : Nat) :
    readFact py ⟨offset, parts⟩ = .ok f := by
  cases h with
  | set name key value h =>
      simp [readFact, h]
  | setUntil name key value option raw d h hoption hraw =>
      simp [readFact, h, hoption, count_of_int hraw, bind, Except.bind]
  | expireAt name key raw d h hraw =>
      simp [readFact, h, count_of_int hraw, bind, Except.bind, ascii]
  | drop name key keys h =>
      simp [readFact, h, ascii]
  | persist name key h =>
      simp [readFact, h, ascii]
  | dropAll name h =>
      simp [readFact, h, ascii]

theorem states_of_readFact {record : Record} {f : Write}
    (hne : record.parts ≠ []) (h : readFact py record = .ok f) :
    States py record.parts f := by
  rcases readFact_verdict py record.offset hne with
    ⟨g, hg, hread⟩ | ⟨-, hvalue⟩ | ⟨reason, hbad⟩
  · rw [hread] at h
    cases h
    exact hg
  · rw [hvalue] at h
    cases h
  · rw [hbad] at h
    cases h

/-- **The record of a fact means that fact.** -/
theorem readFact_factParts {f : Write} (hf : ReadableFact py f)
    (offset : Nat) : readFact py ⟨offset, factParts f⟩ = .ok f := by
  cases f with
  | put key value d =>
      cases d with
      | none =>
          rfl
      | some d =>
          have hset : upper (ascii "SET") = ascii "SET" := by decide
          have hpxat : upper (ascii "PXAT") = ascii "PXAT" := by decide
          simp only [readFact, factParts, hset, hpxat, if_true,
            count_str (hf.deadline d rfl), bind, Except.bind]
  | expireAt key d =>
      have hset : ¬ upper (ascii "PEXPIREAT") = ascii "SET" := by decide
      have hself : upper (ascii "PEXPIREAT") = ascii "PEXPIREAT" := by decide
      simp only [readFact, factParts, if_neg hset, if_pos hself,
        count_str hf.2, bind, Except.bind]
  | persist key =>
      rfl
  | drop keys =>
      cases keys with
      | nil =>
          exact absurd rfl hf.1
      | cons key keys =>
          rfl
  | dropAll =>
      rfl

theorem readableRecord_factParts {f : Write} (hf : ReadableFact py f) :
    ReadableRecord py (factParts f) := by
  have hshort : ∀ n, n ≤ 64 → py.Reads n :=
    fun n hn => py.reads_of_le_word (by omega)
  cases f with
  | put key value d =>
      cases d with
      | none =>
          refine ⟨by simp [factParts], hshort _ (by simp [factParts]), ?_⟩
          intro p hp
          simp only [factParts, List.mem_cons, List.not_mem_nil,
            or_false] at hp
          rcases hp with rfl | rfl | rfl
          · exact hshort _ (by decide)
          · exact hf.key
          · exact hf.value
      | some d =>
          refine ⟨by simp [factParts], hshort _ (by simp [factParts]), ?_⟩
          intro p hp
          simp only [factParts, List.mem_cons, List.not_mem_nil,
            or_false] at hp
          rcases hp with rfl | rfl | rfl | rfl | rfl
          · exact hshort _ (by decide)
          · exact hf.key
          · exact hf.value
          · exact hshort _ (by decide)
          · exact (hf.deadline d rfl).length_str
  | expireAt key d =>
      refine ⟨by simp [factParts], hshort _ (by simp [factParts]), ?_⟩
      intro p hp
      simp only [factParts, List.mem_cons, List.not_mem_nil, or_false] at hp
      rcases hp with rfl | rfl | rfl
      · exact hshort _ (by decide)
      · exact hf.1
      · exact hf.2.length_str
  | persist key =>
      refine ⟨by simp [factParts], hshort _ (by simp [factParts]), ?_⟩
      intro p hp
      simp only [factParts, List.mem_cons, List.not_mem_nil, or_false] at hp
      rcases hp with rfl | rfl
      · exact hshort _ (by decide)
      · exact hf
  | drop keys =>
      refine ⟨by simp [factParts], hf.2.1, ?_⟩
      intro p hp
      rcases List.mem_cons.mp hp with rfl | hp
      · exact hshort _ (by decide)
      · exact hf.2.2 p hp
  | dropAll =>
      refine ⟨by simp [factParts], hshort _ (by simp [factParts]), ?_⟩
      intro p hp
      rw [List.mem_singleton.mp hp]
      exact hshort _ (by decide)

/-- A record that can be read back states a fact that can. -/
theorem readableFact_of_readFact {record : Record} {f : Write}
    (hrecord : ReadableRecord py record.parts)
    (h : readFact py record = .ok f) : ReadableFact py f := by
  have hstates := states_of_readFact hrecord.nonempty h
  generalize record.parts = parts at hrecord hstates
  have hpart := hrecord.part
  cases hstates with
  | set name key value h =>
      exact ⟨hpart key (by simp), hpart value (by simp), by simp⟩
  | setUntil name key value option raw d h hoption hraw =>
      refine ⟨hpart key (by simp), hpart value (by simp), ?_⟩
      intro x hx
      cases hx
      exact py.reads_of_int hraw
  | expireAt name key raw d h hraw =>
      exact ⟨hpart key (by simp), py.reads_of_int hraw⟩
  | drop name key keys h =>
      refine ⟨by simp, hrecord.count, ?_⟩
      exact fun k hk => hpart k (List.mem_cons_of_mem _ hk)
  | persist name key h =>
      exact hpart key (by simp)
  | dropAll name h =>
      trivial

/-- The encoding of a fact is a code word. -/
theorem encodes_fact {f : Write} (hf : ReadableFact py f) (offset : Nat) :
    Decoder.Encodes (recordDecoder py offset) (encodeFact f)
      (factParts f) :=
  encodes_record (readableRecord_factParts hf) offset

end Meaning

section Records

variable {py : Interpreter} {s : KeyValueStore}

/-- The facts of the records up to the first that states none, and why that
one does not. -/
def readFacts (py : Interpreter) : List Record → List Write × Option Exc
  | [] => ([], none)
  | record :: records =>
      match readFact py record with
      | .error e => ([], some e)
      | .ok f =>
          (f :: (readFacts py records).1, (readFacts py records).2)

/-- Records are applied until one means nothing. -/
theorem forEach_applyRecord_run (py : Interpreter) (records : List Record)
    (s : KeyValueStore) :
    (Fallible.forEach (applyRecord py) records).run s =
      (match (readFacts py records).2 with
        | none => .ok ()
        | some e => .error e,
        s.withFacts (readFacts py records).1) := by
  induction records generalizing s with
  | nil =>
      rfl
  | cons record records ih =>
      simp only [Fallible.forEach, Fallible.run_bind, applyRecord_run,
        readFacts]
      cases readFact py record with
      | error e =>
          rfl
      | ok f =>
          simp only [ih]
          rfl

/-- The records of facts are read as those facts. -/
theorem readFacts_located (fs : List Write)
    (hfs : ∀ f ∈ fs, ReadableFact py f) (offset : Nat) :
    readFacts py ((Decoder.located encodeRecord offset
      (fs.map factParts)).map toRecord) = (fs, none) := by
  induction fs generalizing offset with
  | nil =>
      rfl
  | cons f fs ih =>
      have hf := readFact_factParts (hfs f (by simp)) offset
      have hrest := ih (fun g hg => hfs g (List.mem_cons_of_mem _ hg))
        (offset + (encodeRecord (factParts f)).length)
      simp only [List.map_cons, Decoder.located, readFacts, toRecord, hf]
      rw [hrest]

end Records

section Logs

variable {py : Interpreter} {data tail : Bytes} {fs : List Write}

theorem readFacts_append {records : List Record}
    (h : readFacts py records = (fs, none)) (later : List Record) :
    readFacts py (records ++ later) =
      (fs ++ (readFacts py later).1, (readFacts py later).2) := by
  induction records generalizing fs with
  | nil =>
      cases h
      rfl
  | cons record records ih =>
      simp only [readFacts] at h
      simp only [List.cons_append, readFacts]
      cases hrecord : readFact py record with
      | error e =>
          simp [hrecord] at h
      | ok f =>
          simp only [hrecord, Prod.mk.injEq] at h
          obtain ⟨hfs, hnone⟩ := h
          rw [ih (Prod.ext rfl hnone), ← hfs]
          rfl

/-- The bytes are the records of some facts, and then a tail that is empty or
torn. -/
def LogOf (py : Interpreter) (data : Bytes) (fs : List Write)
    (tail : Bytes) : Prop :=
  ∃ items, Decoder.Scans (recordDecoder py) 0 data items tail ∧
    readFacts py (items.map toRecord) = (fs, none)

theorem logOf_nil (py : Interpreter) : LogOf py [] [] [] :=
  ⟨[], Decoder.Scans.nil 0, rfl⟩

/-- The facts whose records lie wholly within the first bytes of a log. -/
abbrev whole (n : Nat) (fs : List Write) : List Write :=
  Decoder.wholly encodeFact n fs

/-- The bytes of the records of some facts. -/
abbrev encodeFacts (fs : List Write) : Bytes :=
  fs.flatMap encodeFact

theorem flatMap_map_factParts (fs : List Write) :
    (fs.map factParts).flatMap encodeRecord = encodeFacts fs := by
  rw [List.flatMap_map]
  rfl

/-- **Any cut of further records extends a log by those left whole.** -/
theorem LogOf.extend (h : LogOf py data fs tail) :
    ∃ c, data = c ++ tail ∧
      ∀ gs : List Write, (∀ g ∈ gs, ReadableFact py g) → ∀ n,
        LogOf py (c ++ (encodeFacts gs).take n) (fs ++ whole n gs)
          (((encodeFacts gs).take n).drop
            (encodeFacts (whole n gs)).length) := by
  obtain ⟨items, hscan, hfacts⟩ := h
  obtain ⟨c, hc, hmore⟩ := hscan.split incremental_record productive_record
  refine ⟨c, hc, ?_⟩
  intro gs hgs n
  have hwords : ∀ parts ∈ gs.map factParts, ∀ offset,
      Decoder.Encodes (recordDecoder py offset) (encodeRecord parts)
        parts := by
    intro parts hparts offset
    obtain ⟨g, hg, rfl⟩ := List.mem_map.mp hparts
    exact encodes_fact (hgs g hg) offset
  have hcut := Decoder.scans_take incremental_record hwords
    (fun parts _ => encodeRecord_ne_nil parts) n (0 + c.length)
  have hwhole : Decoder.wholly encodeRecord n (gs.map factParts) =
      (whole n gs).map factParts := Decoder.wholly_map encodeRecord _ n gs
  rw [hwhole, flatMap_map_factParts, flatMap_map_factParts] at hcut
  refine ⟨_, hmore hcut, ?_⟩
  have hreadable : ∀ g ∈ whole n gs, ReadableFact py g :=
    fun g hg => hgs g ((Decoder.wholly_prefix encodeFact n gs).subset hg)
  rw [List.map_append, readFacts_append hfacts,
    readFacts_located (whole n gs) hreadable]

/-- Whatever log was loaded, its facts can be recorded again. -/
theorem LogOf.readable (h : LogOf py data fs tail) :
    ∀ f ∈ fs, ReadableFact py f := by
  obtain ⟨items, hscan, hfacts⟩ := h
  have hitems := hscan.forall
    fun _ _ _ _ hdone => readableRecord_of_done hdone
  clear hscan
  induction items generalizing fs with
  | nil =>
      cases hfacts
      simp
  | cons item items ih =>
      simp only [List.map_cons, readFacts] at hfacts
      cases hitem : readFact py (toRecord item) with
      | error e =>
          simp [hitem] at hfacts
      | ok g =>
          simp only [hitem, Prod.mk.injEq] at hfacts
          obtain ⟨rfl, hnone⟩ := hfacts
          intro f hf
          rcases List.mem_cons.mp hf with rfl | hf
          · exact readableFact_of_readFact (hitems item (by simp)) hitem
          · exact ih (Prod.ext rfl hnone)
              (fun i hi => hitems i (List.mem_cons_of_mem _ hi)) f hf

/-- Records appended to a log that is not torn. -/
theorem LogOf.append (h : LogOf py data fs []) {gs : List Write}
    (hgs : ∀ g ∈ gs, ReadableFact py g) :
    LogOf py (data ++ encodeFacts gs) (fs ++ gs) [] := by
  obtain ⟨c, hc, hmore⟩ := h.extend
  rw [List.append_nil] at hc
  subst hc
  have := hmore gs hgs (encodeFacts gs).length
  rwa [whole, Decoder.wholly_eq_self encodeFact le_rfl, List.take_length,
    List.drop_length] at this

theorem LogOf.kept (h : LogOf py data fs tail) :
    data = data.take (data.length - tail.length) ++ tail ∧
      LogOf py (data.take (data.length - tail.length)) fs [] := by
  obtain ⟨c, rfl, hmore⟩ := h.extend
  have := hmore [] (by simp) 0
  simp only [List.length_append, Nat.add_sub_cancel, List.take_left]
  simpa [whole, Decoder.wholly] using this

end Logs

section Load

variable {py : Interpreter} {s : KeyValueStore} {file : LogFile}
variable {data : Bytes}

/-- A log that exists, on a device that works. -/
def LogFile.intact (content : Bytes) : LogFile :=
  ⟨some content, false, false, false, false⟩

theorem load_run_of_absent (hfile : file.content = none) :
    (load py).run (s, file) = (.ok ⟨0, 0, 0, 0⟩, (s, file)) := by
  simp [load, hfile]

theorem readBytes_run (data : Bytes) :
    readBytes.run (LogFile.intact data) = (.ok data, LogFile.intact data) := by
  rfl

theorem truncate_run (data : Bytes) (size : Nat) :
    (truncate size).run (LogFile.intact data) =
      (.ok (), LogFile.intact (data.take size)) := by
  rfl

/-- A log whose framing is damaged is refused at once. -/
theorem load_run_of_fails {e : Exc}
    (h : Decoder.Fails (recordDecoder py) 0 data e) (s : KeyValueStore) :
    (load py).run (s, LogFile.intact data) =
      (.error e, (s, LogFile.intact data)) := by
  have hfile : ¬ (LogFile.intact data).content = none := by
    simp [LogFile.intact]
  simp only [load, Fallible.run_bind, Fallible.run_get, if_neg hfile,
    Fallible.run_onSnd, readBytes_run, scan_of_fails h,
    Fallible.run_ofExcept_error]

/-- A log that scans is refused when a record means nothing, and the records
before that one have been applied by then; otherwise it is loaded. -/
theorem load_run_of_scan (hs : Exact s) {scanned : Scan}
    (hscan : scan py data = .ok scanned) :
    (load py).run (s, LogFile.intact data) =
      match (readFacts py scanned.records).2 with
      | some e =>
          (.error e, (s.withFacts (readFacts py scanned.records).1,
            LogFile.intact data))
      | none =>
          (.ok ⟨scanned.records.length,
            (s.withFacts (readFacts py
              scanned.records).1).reclaimed.reclaimed.data.size,
            ((s.withFacts (readFacts py scanned.records).1).expiredKeys
              s.clock.now).length,
            scanned.trailing⟩,
            ((s.withFacts (readFacts py
              scanned.records).1).reclaimed.reclaimed,
              LogFile.intact (if scanned.trailing ≠ 0 then
                data.take scanned.consumed else data))) := by
  have hfile : ¬ (LogFile.intact data).content = none := by
    simp [LogFile.intact]
  have ht := hs.withFacts (readFacts py scanned.records).1
  have hclock := clock_withFacts s (readFacts py scanned.records).1
  simp only [load, Fallible.run_bind, Fallible.run_get, if_neg hfile,
    Fallible.run_onSnd, readBytes_run, hscan, Fallible.run_ofExcept_ok,
    Fallible.run_onFst, forEach_applyRecord_run]
  cases (readFacts py scanned.records).2 with
  | some e =>
      rfl
  | none =>
      by_cases htorn : scanned.trailing = 0
      · simp only [htorn, ne_eq, not_true_eq_false, if_false,
          Fallible.run_bind, Fallible.run_onFst, dropExpired_run ht,
          dbsize_run ht.reclaimed, Fallible.run_pure, hclock]
      · simp only [ne_eq, htorn, not_false_eq_true, if_true,
          Fallible.run_bind, Fallible.run_onFst, Fallible.run_onSnd,
          truncate_run, dropExpired_run ht, dbsize_run ht.reclaimed,
          Fallible.run_pure, hclock]

/-- A store after a log of facts has been loaded into it: both the count of
the expired keys and the count of all keys collect what has expired. -/
def loaded (s : KeyValueStore) (fs : List Write) : KeyValueStore :=
  (s.withFacts fs).reclaimed.reclaimed

/-- What `load` reports for such a log. -/
def loadReport (s : KeyValueStore) (fs : List Write) (repaired : Nat) :
    LoadResult where
  records := fs.length
  keys := (loaded s fs).data.size
  expired := ((s.withFacts fs).expiredKeys s.clock.now).length
  repaired := repaired

theorem length_readFacts {fs : List Write} {records : List Record}
    (h : readFacts py records = (fs, none)) :
    records.length = fs.length := by
  induction records generalizing fs with
  | nil =>
      cases h
      rfl
  | cons record records ih =>
      simp only [readFacts] at h
      cases hrecord : readFact py record with
      | error e =>
          simp [hrecord] at h
      | ok f =>
          simp only [hrecord, Prod.mk.injEq] at h
          rw [← h.1, List.length_cons, List.length_cons,
            ih (Prod.ext rfl h.2)]

/-- **A log of facts is loaded as those facts**, less its torn tail. -/
theorem load_run_of_logOf (hs : Exact s) {fs : List Write} {tail : Bytes}
    (h : LogOf py data fs tail) :
    (load py).run (s, LogFile.intact data) =
      (.ok (loadReport s fs tail.length), (loaded s fs,
        LogFile.intact (data.take (data.length - tail.length)))) := by
  obtain ⟨items, hscan, hfacts⟩ := h
  rw [load_run_of_scan hs (scan_of_scans hscan), hfacts]
  have hlen := length_readFacts hfacts
  simp only [loadReport, loaded, hlen]
  by_cases htail : tail.length = 0
  · simp [htail]
  · simp [htail]

/-- A log without a torn tail is left as it is. -/
theorem load_run_of_clean (hs : Exact s) {fs : List Write}
    (h : LogOf py data fs []) :
    (load py).run (s, LogFile.intact data) =
      (.ok (loadReport s fs 0), (loaded s fs, LogFile.intact data)) := by
  have := load_run_of_logOf hs h
  rwa [List.length_nil, Nat.sub_zero, List.take_length] at this

/-- A load that succeeds has met no failing call, so it went as on a device
that works. -/
theorem load_run_of_ok {result : LoadResult} {t : KeyValueStore}
    {file' : LogFile} (hfile : file.content = some data)
    (h : (load py).run (s, file) = (.ok result, (t, file'))) :
    ∃ data', file'.content = some data' ∧
      (load py).run (s, LogFile.intact data) =
        (.ok result, (t, LogFile.intact data')) := by
  obtain ⟨content, readFails, truncateFails, fsyncFails, openFails⟩ := file
  simp only at hfile
  subst hfile
  have hsome : ∀ a b c d,
      ¬ (⟨some data, a, b, c, d⟩ : LogFile).content = none := by
    simp
  have hread : ∀ b c d, readBytes.run (⟨some data, false, b, c, d⟩ : LogFile) =
      (.ok data, ⟨some data, false, b, c, d⟩) := fun _ _ _ => rfl
  have hcut : ∀ d n, (truncate n).run
      (⟨some data, false, false, false, d⟩ : LogFile) =
      (.ok (), ⟨some (data.take n), false, false, false, d⟩) := fun _ _ => rfl
  unfold LogFile.intact
  simp only [load, Fallible.run_bind, Fallible.run_get,
    if_neg (hsome _ _ _ _), Fallible.run_onSnd, hread] at h ⊢
  cases readFails with
  | true =>
      cases h
  | false =>
      simp only [hread] at h
      cases hscan : scan py data with
      | error e =>
          rw [hscan] at h
          cases h
      | ok scanned =>
          rw [hscan] at h
          simp only [Fallible.run_ofExcept_ok, Fallible.run_onFst] at h ⊢
          generalize (Fallible.forEach (applyRecord py)
            scanned.records).run s = replayed at h ⊢
          obtain ⟨e | _, u⟩ := replayed
          · cases h
          simp only at h ⊢
          by_cases htorn : scanned.trailing = 0
          · simp only [htorn, ne_eq, not_true_eq_false, if_false,
              Fallible.run_bind, Fallible.run_onFst] at h ⊢
            generalize dropExpired.run u = dropped at h ⊢
            obtain ⟨e | _, u⟩ := dropped
            · cases h
            simp only at h ⊢
            generalize dbsize.run u = counted at h ⊢
            obtain ⟨e | _, u⟩ := counted
            · cases h
            cases h
            exact ⟨data, rfl, rfl⟩
          · simp only [htorn, ne_eq, not_false_eq_true, if_true,
              Fallible.run_bind, Fallible.run_onFst, Fallible.run_onSnd]
              at h ⊢
            cases truncateFails with
            | true =>
                cases h
            | false =>
                cases fsyncFails with
                | true =>
                    cases h
                | false =>
                    simp only [hcut] at h ⊢
                    generalize dropExpired.run u = dropped at h ⊢
                    obtain ⟨e | _, u⟩ := dropped
                    · cases h
                    simp only at h ⊢
                    generalize dbsize.run u = counted at h ⊢
                    obtain ⟨e | _, u⟩ := counted
                    · cases h
                    cases h
                    exact ⟨data.take scanned.consumed, rfl, rfl⟩

/-- What `load` does not refuse is a log of facts. -/
theorem logOf_of_load (hs : Exact s) {result : LoadResult}
    {t : KeyValueStore × LogFile}
    (h : (load py).run (s, LogFile.intact data) = (.ok result, t)) :
    ∃ fs tail, LogOf py data fs tail := by
  rcases scans_or_fails py data with ⟨items, tail, hscan⟩ | ⟨e, hfail⟩
  · rcases hfacts : readFacts py (items.map toRecord) with ⟨fs, _ | e⟩
    · exact ⟨fs, tail, items, hscan, hfacts⟩
    · rw [load_run_of_scan hs (scan_of_scans hscan), hfacts] at h
      cases h
  · rw [load_run_of_fails hfail] at h
    cases h

end Load

end Aof
end PyRedis
