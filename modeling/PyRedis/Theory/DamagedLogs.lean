import PyRedis.Theory.DamagedRecords

/-!
# A log with one byte replaced

A byte somewhere before the last record has been replaced.  Unless it makes the
length of a part read as another one, the log is refused or all its records are
there.  A misread length swallows what follows: if the length runs past the end
of the log, or up to the end of a later record, complete records are lost.
-/

namespace PyRedis
namespace Aof

open Foundation KeyValueStore Commands

variable {py : Interpreter} {b : UInt8} {s : KeyValueStore}

/-- The load refuses the log as corrupt, or it reports `n` records and repairs
nothing. -/
def Survives (py : Interpreter) (s : KeyValueStore) (n : Nat)
    (log : Bytes) : Prop :=
  match ((load py).run (s, LogFile.intact log)).1 with
  | .ok result => result.records = n ∧ result.repaired = 0
  | .error e => ∃ offset reason, e = .corrupt offset reason

section Outcomes

variable {before fs : List Write} {y tail log : Bytes}
variable {items : List (Nat × List Bytes)}

theorem encodes_facts (hfs : ∀ f ∈ fs, ReadableFact py f) :
    ∀ parts ∈ fs.map factParts, ∀ offset,
      Decoder.Encodes (recordDecoder py offset) (encodeRecord parts)
        parts := by
  intro parts hparts offset
  obtain ⟨f, hf, rfl⟩ := List.mem_map.mp hparts
  exact encodes_fact (hfs f hf) offset

/-- What follows the records of some facts is scanned after them. -/
theorem scans_behind (hbefore : ∀ f ∈ before, ReadableFact py f)
    (h : Decoder.Scans (recordDecoder py) (encodeFacts before).length y
      items tail) :
    Decoder.Scans (recordDecoder py) 0 (encodeFacts before ++ y)
      (Decoder.located encodeRecord 0 (before.map factParts) ++ items)
      tail := by
  have hscan := Decoder.scans_all (encodes_facts hbefore)
    (fun parts _ => encodeRecord_ne_nil parts) 0
  rw [flatMap_map_factParts] at hscan
  obtain ⟨c, hc, hmore⟩ := hscan.split incremental_record productive_record
  rw [List.append_nil] at hc
  rw [hc] at h ⊢
  rw [← Nat.zero_add c.length] at h
  exact hmore h

theorem refused_behind (hbefore : ∀ f ∈ before, ReadableFact py f)
    (h : Refused py (encodeFacts before).length y) :
    Refused py 0 (encodeFacts before ++ y) := by
  obtain ⟨o, reason, hfail⟩ := h
  refine ⟨o, reason, ?_⟩
  rw [← Nat.zero_add (encodeFacts before).length,
    ← flatMap_map_factParts] at hfail
  rw [← flatMap_map_factParts]
  exact Decoder.Fails.after (encodes_facts hbefore)
    (fun parts _ => encodeRecord_ne_nil parts) hfail

theorem survives_of_refused (h : Refused py 0 log) (n : Nat) :
    Survives py s n log := by
  obtain ⟨o, reason, hfail⟩ := h
  unfold Survives
  rw [load_run_of_fails hfail]
  exact ⟨o, reason, rfl⟩

section Read

variable {later : List Write} {parts : List Bytes}
variable (hbefore : ∀ f ∈ before, ReadableFact py f)
variable (hlater : ∀ f ∈ later, ReadableFact py f) (hy : y ≠ [])
variable (hread : recordDecoder py (encodeFacts before).length y =
  .done parts (encodeFacts later))

include hbefore hlater hy hread

/-- The records of some facts, then bytes that are read as any record, then
the records of further facts. -/
theorem scans_of_read :
    ∃ items, Decoder.Scans (recordDecoder py) 0
        (encodeFacts before ++ y) items [] ∧
      readFacts py (items.map toRecord) =
        match readFact py ⟨(encodeFacts before).length, parts⟩ with
        | .ok g => (before ++ g :: later, none)
        | .error e => (before, some e) := by
  have hrest := Decoder.scans_all (encodes_facts hlater)
    (fun parts _ => encodeRecord_ne_nil parts)
    ((encodeFacts before).length + (y.length - (encodeFacts later).length))
  rw [flatMap_map_factParts] at hrest
  refine ⟨_, scans_behind hbefore (Decoder.Scans.step hy hread hrest), ?_⟩
  rw [List.map_append, readFacts_append (readFacts_located before hbefore 0),
    List.map_cons]
  simp only [readFacts, toRecord]
  cases readFact py ⟨(encodeFacts before).length, parts⟩ with
  | ok g =>
      simp only [readFacts_located later hlater]
  | error e =>
      simp only [List.append_nil]

/-- If the record in the middle states a fact, the log is one of facts. -/
theorem logOf_of_read
    (hfact : ∀ offset, ∃ g, readFact py ⟨offset, parts⟩ = .ok g) :
    ∃ g, LogOf py (encodeFacts before ++ y) (before ++ g :: later) [] := by
  obtain ⟨items, hscan, hfacts⟩ :=
    scans_of_read hbefore hlater hy hread
  obtain ⟨g, hg⟩ := hfact (encodeFacts before).length
  rw [hg] at hfacts
  exact ⟨g, items, hscan, hfacts⟩

/-- If it states one or is refused, the log survives. -/
theorem survives_of_read (hs : Exact s)
    (hfact : ∀ offset, (∃ g, readFact py ⟨offset, parts⟩ = .ok g) ∨
      ∃ reason, readFact py ⟨offset, parts⟩ =
        .error (.corrupt offset reason)) :
    Survives py s (before.length + (later.length + 1))
      (encodeFacts before ++ y) := by
  obtain ⟨items, hscan, hfacts⟩ :=
    scans_of_read hbefore hlater hy hread
  unfold Survives
  rcases hfact (encodeFacts before).length with ⟨g, hg⟩ | ⟨reason, hbad⟩
  · rw [hg] at hfacts
    rw [load_run_of_clean hs ⟨items, hscan, hfacts⟩]
    exact ⟨by simp [loadReport], rfl⟩
  · rw [hbad] at hfacts
    rw [load_run_of_scan hs (scan_of_scans hscan), hfacts]
    exact ⟨_, reason, rfl⟩

end Read

end Outcomes

section Misreading

/-- In a damaged log of facts the length of a part reads as `n`, which it is
not. -/
structure Misread (py : Interpreter) (fs : List Write)
    (damaged : Bytes) where
  before : List Write
  fact : Write
  later : List Write
  ps : List Bytes
  p : Bytes
  qs : List Bytes
  raw : Bytes
  n : Nat
  facts : fs = before ++ fact :: later
  parts : factParts fact = ps ++ p :: qs
  reads : py.int raw = some (n : Int)
  wrong : n ≠ p.length
  bytes : damaged = encodeFacts before ++
    (42 :: str (factParts fact).length ++ (crlf ++
      (ps.flatMap Resp.encodeBulkString ++ (36 :: raw ++ (crlf ++
        (p ++ (crlf ++ (qs.flatMap Resp.encodeBulkString ++
          encodeFacts later))))))))

namespace Misread

variable {fs : List Write} {damaged : Bytes}

/-- What stands behind the length that is misread. -/
def behind (m : Misread py fs damaged) : Bytes :=
  m.p ++ (crlf ++
    (m.qs.flatMap Resp.encodeBulkString ++ encodeFacts m.later))

/-- The length runs past the end of the log, or up to the end while parts are
still to come. -/
def RunsPast (m : Misread py fs damaged) : Prop :=
  m.behind.length < m.n + 2 ∨ m.behind.length = m.n + 2 ∧ m.qs ≠ []

/-- The length ends in front of a CRLF, and behind that the log ends or goes on
with the marker that is wanted there. -/
def Resumes (m : Misread py fs damaged) : Prop :=
  (m.behind.drop m.n).take 2 = crlf ∧
    (m.behind.drop (m.n + 2) = [] ∨
      (m.behind.drop (m.n + 2)).head? =
        some (if m.qs = [] then 42 else 36))

/-- The part is the last one of its record and may hold anything, and its
length ends where a later record does. -/
def Swallows (m : Misread py fs damaged) : Prop :=
  deadlineOf m.fact = none ∧ m.ps ≠ [] ∧ m.qs = [] ∧
    ∃ lost left, lost ≠ [] ∧ m.later = lost ++ left ∧
      m.n = m.p.length + (encodeFacts lost).length

/-- The damaged record, and the rest of the log. -/
def word (m : Misread py fs damaged) : Bytes :=
  42 :: str (factParts m.fact).length ++ (crlf ++
    (m.ps.flatMap Resp.encodeBulkString ++
      (36 :: m.raw ++ (crlf ++ m.behind))))

theorem bytes_eq (m : Misread py fs damaged) :
    damaged = encodeFacts m.before ++ m.word :=
  m.bytes

theorem word_ne_nil (m : Misread py fs damaged) : m.word ≠ [] := by
  simp [word]

section Reading

variable (hfs : ∀ f ∈ fs, ReadableFact py f)
variable (m : Misread py fs damaged)

include hfs

theorem readable_before : ∀ f ∈ m.before, ReadableFact py f := by
  intro f hf
  refine hfs f ?_
  rw [m.facts]
  exact List.mem_append_left _ hf

theorem readable_later : ∀ f ∈ m.later, ReadableFact py f := by
  intro f hf
  refine hfs f ?_
  rw [m.facts]
  exact List.mem_append_right _ (List.mem_cons_of_mem _ hf)

theorem readable_fact : ReadableFact py m.fact := by
  have hmem : m.fact ∈ m.before ++ m.fact :: m.later := by simp
  rw [← m.facts] at hmem
  exact hfs m.fact hmem

/-- The record is read as its first parts, and then a payload of the wrong
length. -/
theorem recordDecoder_word (offset : Nat) :
    ∃ o, recordDecoder py offset m.word =
        (Decoder.times (partDecoder py) (m.qs.length + 1) o
          (36 :: m.raw ++ (crlf ++ m.behind))).map (m.ps ++ ·) ∧
      partDecoder py o (36 :: m.raw ++ (crlf ++ m.behind)) =
        bodyDecoder o m.n m.behind := by
  have hparts := readableRecord_factParts (m.readable_fact hfs)
  rw [m.parts] at hparts
  obtain ⟨o, hread⟩ := recordDecoder_from_part hparts offset
    (36 :: m.raw ++ (crlf ++ m.behind))
  rw [← m.parts] at hread
  exact ⟨o, hread, partDecoder_of_int m.reads o m.behind⟩

end Reading

end Misread

end Misreading

section Ends

/-- The bytes of parts end with a CRLF. -/
theorem crlf_suffix_parts {x : Bytes} (hx : crlf <:+ x) (qs : List Bytes) :
    crlf <:+ x ++ qs.flatMap Resp.encodeBulkString := by
  induction qs generalizing x with
  | nil =>
      simpa using hx
  | cons q qs ih =>
      rw [List.flatMap_cons, ← List.append_assoc]
      refine ih ?_
      rw [encodeBulkString_eq]
      exact ⟨x ++ (36 :: str q.length ++ (crlf ++ q)), by simp⟩

theorem crlf_suffix_facts {x : Bytes} (hx : crlf <:+ x) (fs : List Write) :
    crlf <:+ x ++ encodeFacts fs := by
  induction fs generalizing x with
  | nil =>
      simpa using hx
  | cons f fs ih =>
      rw [encodeFacts, List.flatMap_cons, ← List.append_assoc]
      refine ih ?_
      rw [encodeFact, encodeRecord_eq, ← List.append_assoc,
        ← List.append_assoc]
      exact crlf_suffix_parts (List.suffix_append _ _) _

/-- Behind a CRLF in bytes that end with one, there is nothing left or another
one. -/
theorem crlf_suffix_drop {x : Bytes} {n : Nat} (hx : crlf <:+ x)
    (hn : (x.drop n).take 2 = crlf) :
    x.drop (n + 2) = [] ∨ ∃ u, x.drop (n + 2) = u ++ crlf := by
  obtain ⟨u, rfl⟩ := hx
  rcases Nat.lt_trichotomy u.length (n + 1) with hlt | heq | hgt
  · left
    rw [List.drop_eq_nil_iff, List.length_append]
    have : crlf.length = 2 := rfl
    omega
  · -- the LF would be where the last CR is
    have hat := congrArg (fun l => l[1]?) hn
    simp only [List.getElem?_take, List.getElem?_drop, crlf] at hat
    rw [List.getElem?_append_right (by omega), heq, Nat.sub_self] at hat
    exact absurd hat (by decide)
  · right
    exact ⟨u.drop (n + 2), List.drop_append_of_le_length (by omega)⟩

end Ends

namespace Misread

variable {fs : List Write} {damaged : Bytes}
variable (hfs : ∀ f ∈ fs, ReadableFact py f)
variable (m : Misread py fs damaged)

theorem crlf_suffix_behind : crlf <:+ m.behind := by
  unfold behind
  rw [← List.append_assoc, ← List.append_assoc]
  exact crlf_suffix_facts
    (crlf_suffix_parts (List.suffix_append m.p crlf) m.qs) m.later

include hfs

/-- A length that runs past the end looks like a torn record. -/
theorem recordDecoder_of_runsPast (h : m.RunsPast) (offset : Nat) :
    recordDecoder py offset m.word = .more := by
  obtain ⟨o, hread, hpart⟩ := m.recordDecoder_word hfs offset
  rcases h with hless | ⟨heq, hqs⟩
  · rw [bodyDecoder_more hless] at hpart
    rw [hread, Decoder.times_more hpart, Decoded.map]
  · have hend : (m.behind.drop m.n).take 2 = crlf := by
      obtain ⟨u, hu⟩ := m.crlf_suffix_behind
      have hlen := congrArg List.length hu
      rw [List.length_append] at hlen
      have hcrlf : crlf.length = 2 := rfl
      have hn : u.length = m.n := by omega
      rw [← hu, ← hn, List.drop_left]
      rfl
    obtain ⟨q, qs, hq⟩ := List.exists_cons_of_ne_nil hqs
    have hnil : m.behind.drop (m.n + 2) = [] :=
      List.drop_eq_nil_of_le heq.le
    have hmore : ∀ o, partDecoder py o [] = .more := fun _ => rfl
    rw [bodyDecoder_of_room heq.ge, if_pos hend, hnil] at hpart
    rw [hread, hq, List.length_cons]
    simp only [Decoder.times, Decoder.andThen, hpart, hmore, Decoded.map]

/-- A length that leads nowhere is noticed. -/
theorem refused_of_not_resumes (hpast : ¬ m.RunsPast) (h : ¬ m.Resumes)
    (offset : Nat) : Refused py offset m.word := by
  obtain ⟨o, hread, hpart⟩ := m.recordDecoder_word hfs offset
  have hroom : m.n + 2 ≤ m.behind.length :=
    not_lt.mp fun hless => hpast (Or.inl hless)
  rw [bodyDecoder_of_room hroom] at hpart
  by_cases hend : (m.behind.drop m.n).take 2 = crlf
  · rw [if_pos hend] at hpart
    have hstop : m.behind.drop (m.n + 2) ≠ [] ∧
        (m.behind.drop (m.n + 2)).head? ≠
          some (if m.qs = [] then 42 else 36) := by
      constructor
      · exact fun hnil => h ⟨hend, Or.inl hnil⟩
      · exact fun hhead => h ⟨hend, Or.inr hhead⟩
    obtain ⟨hnil, hhead⟩ := hstop
    obtain ⟨u, hu⟩ :=
      (crlf_suffix_drop m.crlf_suffix_behind hend).resolve_left hnil
    obtain ⟨i, hi⟩ := findCrlf_isSome u []
    rw [List.append_nil, ← hu] at hi
    by_cases hqs : m.qs = []
    · -- the record is over, and no record begins behind it
      rw [if_pos hqs] at hhead
      have hdone : recordDecoder py offset m.word =
          .done (m.ps ++ [m.behind.take m.n])
            (m.behind.drop (m.n + 2)) := by
        rw [hread, hqs]
        simp only [List.length_nil, Decoder.times, Decoder.andThen, hpart,
          Decoded.map]
      exact Refused.step m.word_ne_nil hdone (refused_of_head hi hhead)
    · -- a part is still to come, and none begins there
      rw [if_neg hqs] at hhead
      obtain ⟨q, qs, hq⟩ := List.exists_cons_of_ne_nil hqs
      obtain ⟨o', reason, hbad⟩ : ∃ o' reason, partDecoder py
          (o + ((36 :: m.raw ++ (crlf ++ m.behind)).length -
            (m.behind.drop (m.n + 2)).length))
          (m.behind.drop (m.n + 2)) = .fail (.corrupt o' reason) :=
        partDecoder_refuses hi hhead _
      refine Refused.here o' reason m.word_ne_nil ?_
      rw [hread, hq, List.length_cons]
      simp only [Decoder.times, Decoder.andThen, hpart, hbad, Decoded.map]
  · rw [if_neg hend] at hpart
    refine Refused.here o "bulk string is not terminated" m.word_ne_nil ?_
    rw [hread, Decoder.times_fail hpart, Decoded.map]

theorem refused (hpast : ¬ m.RunsPast) (h : ¬ m.Resumes) :
    Refused py 0 damaged := by
  have := refused_behind (m.readable_before hfs)
    (m.refused_of_not_resumes hfs hpast h (encodeFacts m.before).length)
  rwa [← m.bytes_eq] at this

/-- A length that runs past the end makes the load throw away everything from
the damaged record on. -/
theorem load_of_runsPast (hs : Exact s) (h : m.RunsPast) :
    (load py).run (s, LogFile.intact damaged) =
      (.ok (loadReport s m.before m.word.length),
        (loaded s m.before, LogFile.intact (encodeFacts m.before))) := by
  have htorn := Decoder.Scans.torn m.word_ne_nil
    (m.recordDecoder_of_runsPast hfs h (encodeFacts m.before).length)
  have hscan := scans_behind (m.readable_before hfs) htorn
  rw [List.append_nil, ← m.bytes_eq] at hscan
  have hfacts := readFacts_located m.before (m.readable_before hfs) 0
  have hkept : ∀ data, data = encodeFacts m.before ++ m.word →
      data.take (data.length - m.word.length) = encodeFacts m.before := by
    rintro data rfl
    rw [List.length_append, Nat.add_sub_cancel, List.take_left]
  rw [load_run_of_logOf hs ⟨_, hscan, hfacts⟩, hkept damaged m.bytes_eq]

/-- A length that ends where a later record does makes one record of several. -/
theorem logOf_of_swallows (h : m.Swallows) :
    ∃ g left, LogOf py damaged (m.before ++ g :: left) [] ∧
      left.length < m.later.length := by
  obtain ⟨hopen, hps, hqs, lost, left, hlost, hlater, hn⟩ := h
  have hleft : ∀ f ∈ left, ReadableFact py f := by
    intro f hf
    refine m.readable_later hfs f ?_
    rw [hlater]
    exact List.mem_append_right _ hf
  obtain ⟨u, hu⟩ :=
    crlf_suffix_facts (List.suffix_append m.p crlf) lost
  have hlen : u.length = m.n := by
    have := congrArg List.length hu
    simp only [List.length_append] at this
    omega
  have hbehind : m.behind = u ++ (crlf ++ encodeFacts left) := by
    rw [← List.append_assoc, hu, behind, hqs, hlater]
    simp only [List.flatMap_nil, List.nil_append, List.append_assoc,
      encodeFacts, List.flatMap_append]
  have hroom : m.n + 2 ≤ m.behind.length := by
    simp only [hbehind, List.length_append, hlen, crlf, List.length_cons,
      List.length_nil]
    omega
  have hend : (m.behind.drop m.n).take 2 = crlf := by
    rw [hbehind, ← hlen, List.drop_left]
    rfl
  have hrest : m.behind.drop (m.n + 2) = encodeFacts left := by
    rw [hbehind, ← hlen, ← List.drop_drop, List.drop_left]
    rfl
  obtain ⟨o, hread, hpart⟩ :=
    m.recordDecoder_word hfs (encodeFacts m.before).length
  rw [bodyDecoder_of_room hroom, if_pos hend, hrest] at hpart
  have hdone : recordDecoder py (encodeFacts m.before).length m.word =
      .done (m.ps ++ [m.behind.take m.n]) (encodeFacts left) := by
    rw [hread, hqs]
    simp only [List.length_nil, Decoder.times, Decoder.andThen, hpart,
      Decoded.map]
  have hparts := m.parts
  rw [hqs] at hparts
  obtain ⟨g, hlog⟩ := logOf_of_read (m.readable_before hfs) hleft
    m.word_ne_nil hdone fun offset =>
      readFact_of_open (m.readable_fact hfs) hopen hparts hps _ offset
  rw [← m.bytes_eq] at hlog
  refine ⟨g, left, hlog, ?_⟩
  have hpos := List.length_pos_of_ne_nil hlost
  rw [hlater, List.length_append]
  omega

end Misread

/-- Records begin with their marker and a line. -/
theorem facts_begin {fs : List Write} (h : fs ≠ []) :
    ∃ u z, encodeFacts fs = 42 :: u ++ crlf ++ z := by
  obtain ⟨f, fs, rfl⟩ := List.exists_cons_of_ne_nil h
  refine ⟨str (factParts f).length,
    (factParts f).flatMap Resp.encodeBulkString ++ encodeFacts fs, ?_⟩
  rw [encodeFacts, List.flatMap_cons, encodeFact, encodeRecord_eq]
  simp only [List.append_assoc]

/-- A record in which a byte has been replaced, with records behind it. -/
theorem survives_of_replaced (hs : Exact s) {before later : List Write}
    {f : Write} {w : Bytes}
    (hfs : ∀ g ∈ before ++ f :: later, WritableFact py g)
    (hlater : later ≠ []) (hw : Replaced b (encodeFact f) w)
    (hclean : ∀ m : Misread py (before ++ f :: later)
      (encodeFacts before ++ (w ++ encodeFacts later)),
        ¬ m.RunsPast ∧ ¬ m.Resumes) :
    Survives py s (before.length + (later.length + 1))
      (encodeFacts before ++ (w ++ encodeFacts later)) := by
  have hread : ∀ g ∈ before ++ f :: later, ReadableFact py g :=
    fun g hg => (hfs g hg).readable
  have hbefore : ∀ g ∈ before, ReadableFact py g :=
    fun g hg => hread g (List.mem_append_left _ hg)
  have hbehind : ∀ g ∈ later, ReadableFact py g :=
    fun g hg => hread g (List.mem_append_right _ (List.mem_cons_of_mem f hg))
  have hf : WritableFact py f := hfs f (by simp)
  obtain ⟨u, z, hbegin⟩ := facts_begin hlater
  obtain ⟨i, hi⟩ := findCrlf_isSome (42 :: u) z
  rw [← hbegin] at hi
  have hne : w ++ encodeFacts later ≠ [] := by
    simp [hbegin]
  rcases recordVerdict (readableRecord_factParts hf.readable) hw hi
    (by simp [hbegin]) (encodeFacts before).length with
    hrefused | ⟨parts', near, hdone⟩ |
      ⟨ps, p, qs, raw, n, hparts, hn, hwrong, rfl⟩
  · exact survives_of_refused (refused_behind hbefore hrefused) _
  · exact survives_of_read hbefore hbehind hne hdone hs
      (readFact_of_near hf near)
  · have hbytes : encodeFacts before ++
        (42 :: str (factParts f).length ++ (crlf ++
          (ps.flatMap Resp.encodeBulkString ++
            (36 :: raw ++ (crlf ++ (p ++ crlf))) ++
              qs.flatMap Resp.encodeBulkString)) ++ encodeFacts later) =
        encodeFacts before ++ (42 :: str (factParts f).length ++ (crlf ++
          (ps.flatMap Resp.encodeBulkString ++ (36 :: raw ++ (crlf ++
            (p ++ (crlf ++ (qs.flatMap Resp.encodeBulkString ++
              encodeFacts later)))))))) := by
      simp only [List.append_assoc, List.cons_append]
    obtain ⟨m⟩ : Nonempty (Misread py (before ++ f :: later) _) :=
      ⟨⟨before, f, later, ps, p, qs, raw, n, rfl, hparts, hn, hwrong,
        hbytes⟩⟩
    obtain ⟨hpast, hresumes⟩ := hclean m
    exact survives_of_refused (m.refused hread hpast hresumes) _

/-- **What a replaced byte can do.**  A log of facts in which one byte before
the last record has been replaced is refused or complete, unless a length now
reads as another one and leads to where reading can go on; and complete
records are lost when it runs past the end or ends where a later record
does. -/
theorem damaged_log_survives_unless_misread (hs : Exact s)
    {fs : List Write} (hfs : ∀ f ∈ fs, WritableFact py f) {i : Nat}
    (hi : i < (encodeFacts fs.dropLast).length) (b : UInt8) :
    ((∀ m : Misread py fs ((encodeFacts fs).set i b),
        ¬ m.RunsPast ∧ ¬ m.Resumes) →
      Survives py s fs.length ((encodeFacts fs).set i b)) ∧
    ∀ m : Misread py fs ((encodeFacts fs).set i b),
      m.RunsPast ∨ m.Swallows →
        ¬ Survives py s fs.length ((encodeFacts fs).set i b) := by
  have hread : ∀ f ∈ fs, ReadableFact py f := fun f hf => (hfs f hf).readable
  constructor
  · intro hclean
    obtain ⟨init, last, rfl⟩ : ∃ init last, fs = init ++ [last] := by
      rcases fs.eq_nil_or_concat with rfl | ⟨init, last, rfl⟩
      · simp [encodeFacts] at hi
      · exact ⟨init, last, by simp⟩
    rw [List.dropLast_concat] at hi
    obtain ⟨before, f, later, w, rfl, hw, hset⟩ :=
      (Replaced.set hi b).flatMap_cases
    have hfacts : before ++ f :: later ++ [last] =
        before ++ f :: (later ++ [last]) := by
      simp
    have hlog : (encodeFacts (before ++ f :: (later ++ [last]))).set i b =
        encodeFacts before ++ (w ++ encodeFacts (later ++ [last])) := by
      rw [← hfacts, encodeFacts, List.flatMap_append,
        List.set_append_left _ _ hi, hset, encodeFacts, encodeFacts,
        List.flatMap_append]
      simp only [List.append_assoc]
    rw [hfacts] at hfs hclean ⊢
    rw [hlog] at hclean ⊢
    have := survives_of_replaced hs hfs (by simp) hw hclean
    simpa [Nat.add_assoc] using this
  · rintro m (hpast | hswallows) hsurvives
    · unfold Survives at hsurvives
      rw [m.load_of_runsPast hread hs hpast] at hsurvives
      exact m.word_ne_nil (List.length_eq_zero_iff.mp hsurvives.2)
    · obtain ⟨g, left, hlog, hless⟩ := m.logOf_of_swallows hread hswallows
      unfold Survives at hsurvives
      rw [load_run_of_clean hs hlog] at hsurvives
      have hcount : (m.before ++ g :: left).length = fs.length :=
        hsurvives.1
      have hlen := congrArg List.length m.facts
      simp only [List.length_append, List.length_cons] at hcount hlen
      omega

/-- A key set to ten bytes, another key deleted, a third one set. -/
def setDropSet : List Write :=
  [.put (ascii "k") (ascii "0123456789") none, .drop [ascii "j"],
    .put (ascii "m") (ascii "w") none]

/-- The length 10 of the first value has become 90: the load reports success
and empties the file. -/
theorem damage_truncates_log :
    22 ≤ (encodeFacts setDropSet.dropLast).length ∧
    ((load .default).run (init (.frozen 0) 0 .noeviction,
        LogFile.intact ((encodeFacts setDropSet).set 21 57))).1 =
      .ok ⟨0, 0, 0, 84⟩ ∧
    ((load .default).run (init (.frozen 0) 0 .noeviction,
        LogFile.intact ((encodeFacts setDropSet).set 21 57))).2.2.content =
      some [] := by
  decide +kernel

/-- The length has become 30: the deletion is read as part of the value. -/
theorem damage_swallows_deletion :
    ¬ Survives .default (init (.frozen 0) 0 .noeviction) 3
      ((encodeFacts setDropSet).set 21 51) := by
  have hwritable : ∀ f ∈ setDropSet, WritableFact .default f := by
    intro f hf
    simp only [setDropSet, List.mem_cons, List.not_mem_nil, or_false] at hf
    rcases hf with rfl | rfl | rfl
    · exact ⟨⟨by decide, by decide, by simp⟩, fun _ h => by cases h⟩
    · exact ⟨⟨by simp, by decide, by decide⟩, fun _ h => by cases h⟩
    · exact ⟨⟨by decide, by decide, by simp⟩, fun _ h => by cases h⟩
  refine (damaged_log_survives_unless_misread
    (exact_init (.frozen 0) 0 .noeviction) hwritable (i := 21)
    (by decide +kernel) 51).2
    ⟨[], .put (ascii "k") (ascii "0123456789") none,
      [.drop [ascii "j"], .put (ascii "m") (ascii "w") none],
      [ascii "SET", ascii "k"], ascii "0123456789", [], ascii "30", 30,
      rfl, rfl, by decide +kernel, by decide, by decide +kernel⟩
    (Or.inr ⟨rfl, by simp, rfl, [.drop [ascii "j"]],
      [.put (ascii "m") (ascii "w") none], by simp, rfl,
      by decide +kernel⟩)

end Aof
end PyRedis
