import PyRedis.Foundation.Replacement
import PyRedis.Theory.LogReplay

/-!
# One byte of a record replaced

What the scanner makes of a record one byte of which has been replaced.  A
damaged line still ends where it did, unless its CRLF is what was damaged, and
then it runs on and cannot be read as a number.  So the damage is noticed, or
the record is read with at most that byte changed, or the length of one part
reads as another one.
-/

namespace PyRedis

open Foundation

section Lines

open Resp

/-- A line without LF ends at the CRLF that follows it. -/
theorem findCrlf_append_of_lf {line : Bytes} (h : lf ∉ line) (y : Bytes) :
    findCrlf (line ++ crlf ++ y) = some line.length := by
  induction line with
  | nil =>
      simp [findCrlf, crlf]
  | cons b line ih =>
      have hline : lf ∉ line := fun hm => h (List.mem_cons_of_mem _ hm)
      have hrest := ih hline
      cases line with
      | nil =>
          simp [findCrlf, crlf, cr, lf]
      | cons c line =>
          have hc : c ≠ lf := fun hc => hline (by simp [hc])
          simp only [List.cons_append] at hrest ⊢
          simp only [findCrlf, hc, and_false, if_false, hrest,
            Option.map_some, List.length_cons]

/-- A CRLF is where it was found. -/
theorem findCrlf_eq_some {x : Bytes} {i : Nat} (h : findCrlf x = some i) :
    x[i]? = some cr ∧ x[i + 1]? = some lf := by
  induction x using findCrlf.induct generalizing i with
  | case1 =>
      cases h
  | case2 =>
      cases h
  | case3 a b rest hab =>
      simp only [findCrlf, hab, and_self, if_true, Option.some.injEq] at h
      subst h
      simp [hab.1, hab.2]
  | case4 a b rest hab ih =>
      simp only [findCrlf, if_neg hab, Option.map_eq_some_iff] at h
      obtain ⟨j, hj, rfl⟩ := h
      exact ih hj

/-- Bytes that hold a CRLF have a first one. -/
theorem findCrlf_isSome (x y : Bytes) :
    ∃ i, findCrlf (x ++ crlf ++ y) = some i := by
  induction x with
  | nil =>
      exact ⟨0, by simp [findCrlf, crlf]⟩
  | cons a x ih =>
      obtain ⟨i, hi⟩ := ih
      cases hx : x ++ crlf ++ y with
      | nil =>
          rw [hx] at hi
          cases hi
      | cons c z =>
          rw [hx] at hi
          simp only [List.cons_append, hx, findCrlf, hi, Option.map_some]
          split_ifs
          · exact ⟨0, rfl⟩
          · exact ⟨i + 1, rfl⟩

variable {ε : Type} {b : UInt8} {line : Bytes}

/-- A line that had neither CR nor LF is still found when a byte of it has
been replaced. -/
theorem encodes_replaced_line {line' : Bytes} (hcr : cr ∉ line)
    (hlf : lf ∉ line) (h : Replaced b line line') :
    Decoder.Encodes (lineDecoder ε) (line' ++ crlf) line' := by
  by_cases hb : b = lf
  · refine encodes_line ?_
    intro hmem
    rcases h.mem hmem with heq | hmem
    · rw [hb] at heq
      exact absurd heq (by decide)
    · exact hcr hmem
  · refine encodes_of_findCrlf (findCrlf_append_of_lf ?_)
    intro hmem
    rcases h.mem hmem with heq | hmem
    · exact hb heq.symm
    · exact hlf hmem

/-- A CRLF is not found inside a line that has no CR. -/
theorem length_le_of_findCrlf {y : Bytes} {i : Nat} (hcr : cr ∉ line)
    (h : findCrlf (line ++ y) = some i) : line.length ≤ i := by
  by_contra hlt
  have hat := (findCrlf_eq_some h).1
  rw [List.getElem?_append_left (by omega)] at hat
  exact hcr (List.mem_of_getElem? hat)

/-- When the CRLF behind a line is damaged, the line runs on to the next one
and holds what is left of the first. -/
theorem line_runs_on {m : UInt8} {raw t : Bytes} (y z : Bytes)
    (hcr : cr ∉ m :: raw) (ht : Replaced b crlf t) (hne : t ≠ crlf) :
    ∃ raw' rest,
      lineDecoder ε (m :: raw ++ (t ++ (y ++ crlf ++ z))) =
        .done (m :: raw') rest ∧ (cr ∈ raw' ∨ lf ∈ raw') := by
  obtain ⟨i, hi⟩ := findCrlf_isSome (m :: raw ++ (t ++ y)) z
  have hx : m :: raw ++ (t ++ y) ++ crlf ++ z =
      m :: raw ++ (t ++ (y ++ crlf ++ z)) := by
    simp only [List.append_assoc]
  rw [hx] at hi
  generalize y ++ crlf ++ z = w at hi ⊢
  obtain ⟨hat, hnext⟩ := findCrlf_eq_some hi
  have hle := length_le_of_findCrlf hcr hi
  rw [List.length_cons] at hle
  obtain ⟨k, rfl⟩ := Nat.exists_eq_add_of_le' (Nat.le_of_add_left_le hle)
  have hfound : lineDecoder ε (m :: raw ++ (t ++ w)) =
      .done (m :: (raw ++ (t ++ w)).take k)
        ((raw ++ (t ++ w)).drop (k + 2)) := by
    simp only [lineDecoder, hi]
    rfl
  have hkept : ∀ j c, j < k → (raw ++ (t ++ w))[j]? = some c →
      c ∈ (raw ++ (t ++ w)).take k := by
    intro j c hj hc
    refine List.mem_of_getElem? (i := j) ?_
    rw [List.getElem?_take, if_pos hj, hc]
  refine ⟨_, _, hfound, ?_⟩
  have hfirst : ∀ c d : UInt8, (raw ++ ([c, d] ++ w))[raw.length]? = some c := by
    simp
  have hsecond : ∀ c d : UInt8,
      (raw ++ ([c, d] ++ w))[raw.length + 1]? = some d := by
    simp
  change (raw ++ (t ++ w))[k]? = some cr at hat
  change (raw ++ (t ++ w))[k + 1]? = some lf at hnext
  cases ht with
  | head _ _ =>
      -- the CR is damaged, and the LF after it cannot begin a CRLF
      have hat₁ : k ≠ raw.length := by
        rintro rfl
        rw [hfirst, Option.some.injEq] at hat
        exact hne (by rw [hat]; rfl)
      have hat₂ : k ≠ raw.length + 1 := by
        rintro rfl
        rw [hsecond] at hat
        exact absurd hat (by decide)
      exact Or.inr (hkept (raw.length + 1) lf (by omega) (hsecond b lf))
  | tail _ ht =>
      cases ht with
      | head _ _ =>
          have hat₁ : k ≠ raw.length := by
            rintro rfl
            rw [hsecond, Option.some.injEq] at hnext
            exact hne (by rw [hnext]; rfl)
          exact Or.inl (hkept raw.length cr (by omega) (hfirst cr b))
      | tail _ ht =>
          cases ht

end Lines

namespace Aof

variable {py : Interpreter} {b : UInt8}

section Headers

variable {raw line : Bytes} {x rest : Bytes}

theorem count_of_mem {c : UInt8} (hc : c ∈ raw)
    (hdigit : Decimal.isDigit c = false) (hminus : c ≠ Decimal.minus)
    (offset : Nat) (reason : String) :
    count py raw offset reason = .error (.corrupt offset reason) := by
  have hdigits : ¬ isDigits (Decimal.splitSign raw).2 = true := by
    intro h
    simp only [isDigits, Bool.and_eq_true, List.all_eq_true] at h
    have hmem : c ∈ (Decimal.splitSign raw).2 := by
      cases raw with
      | nil =>
          simp at hc
      | cons a raw =>
          simp only [Decimal.splitSign]
          split_ifs with ha
          · rcases List.mem_cons.mp hc with rfl | hc
            · exact absurd ha hminus
            · exact hc
          · exact hc
    rw [h.2 c hmem] at hdigit
    cases hdigit
  simp only [count, if_neg hdigits]

/-- What is left of a line end is not part of a number. -/
theorem count_of_line_end (h : cr ∈ raw ∨ lf ∈ raw) (offset : Nat)
    (reason : String) :
    count py raw offset reason = .error (.corrupt offset reason) := by
  rcases h with h | h
  · exact count_of_mem h (by decide) (by decide) offset reason
  · exact count_of_mem h (by decide) (by decide) offset reason

theorem cr_not_mem_of_int {n : Int} (h : py.int raw = some n) : cr ∉ raw := by
  intro hmem
  have hok := count_of_int h 0 ""
  rw [count_of_line_end (Or.inl hmem)] at hok
  cases hok

theorem bulkLength_cases (line : Bytes)
    (h : py.Converts line.tail.length) (offset : Nat) :
    (∃ raw, ∃ n : Nat, line = 36 :: raw ∧ py.int raw = some (n : Int)) ∨
      ∃ reason, bulkLength py offset line =
        .error (.corrupt offset reason) := by
  rw [bulkLength_eq]
  rcases headerNumber_verdict py 36 "$" "invalid bulk length" (· < 0) offset
    line with ⟨raw, n, rfl, hint, hlow, -⟩ | ⟨raw, rfl, hlong, -⟩ | hbad
  · obtain ⟨m, rfl⟩ := Int.eq_ofNat_of_zero_le (not_lt.mp hlow)
    exact Or.inl ⟨raw, m, rfl, hint⟩
  · exact absurd h (not_converts_of_overlong hlong)
  · exact Or.inr hbad

theorem multibulkLength_cases (line : Bytes)
    (h : py.Converts line.tail.length) (offset : Nat) :
    (∃ raw, ∃ n : Nat, line = 42 :: raw ∧ py.int raw = some (n : Int) ∧
        0 < n) ∨
      ∃ reason, multibulkLength py offset line =
        .error (.corrupt offset reason) := by
  rw [multibulkLength_eq]
  rcases headerNumber_verdict py 42 "*" "invalid multibulk length" (· ≤ 0)
    offset line with
    ⟨raw, n, rfl, hint, hlow, -⟩ | ⟨raw, rfl, hlong, -⟩ | hbad
  · obtain ⟨m, rfl⟩ := Int.eq_ofNat_of_zero_le (not_le.mp hlow).le
    exact Or.inl ⟨raw, m, rfl, hint, by omega⟩
  · exact absurd h (not_converts_of_overlong hlong)
  · exact Or.inr hbad

end Headers

section Parts

variable {p w : Bytes}

theorem not_mem_header {m c : UInt8} (hm : c ≠ m)
    (hc : Decimal.isDigit c = false) (n : Nat) : c ∉ m :: str n := by
  intro hmem
  rcases List.mem_cons.mp hmem with rfl | hmem
  · exact hm rfl
  · rw [Decimal.natText_isDigit hmem] at hc
    cases hc

theorem encodeBulkString_eq (p : Bytes) :
    Resp.encodeBulkString p =
      36 :: str p.length ++ (crlf ++ (p ++ crlf)) := by
  simp [Resp.encodeBulkString, ascii]

/-- The bytes differ from the others in one place at most. -/
def Near (b : UInt8) (p p' : Bytes) : Prop :=
  p' = p ∨ Replaced b p p'

theorem Near.length_eq {p' : Bytes} (h : Near b p p') :
    p'.length = p.length := by
  rcases h with rfl | h
  · rfl
  · exact h.length_eq

/-- What becomes of a part when a byte of its bulk string is replaced: the
damage is noticed, or the part is read with at most that byte changed, or its
length reads as another one. -/
inductive PartVerdict (py : Interpreter) (b : UInt8) (offset : Nat)
    (p w y : Bytes) : Prop
  | refused (o : Nat) (reason : String)
      (h : partDecoder py offset (w ++ y) = .fail (.corrupt o reason))
  | kept (p' : Bytes) (near : Near b p p')
      (h : partDecoder py offset (w ++ y) = .done p' y)
  | misread (raw : Bytes) (n : Nat) (hn : py.int raw = some (n : Int))
      (hne : n ≠ p.length)
      (hw : w = 36 :: raw ++ (crlf ++ (p ++ crlf)))

theorem partDecoder_of_int {raw : Bytes} {n : Nat}
    (h : py.int raw = some (n : Int)) (offset : Nat) (x : Bytes) :
    partDecoder py offset (36 :: raw ++ (crlf ++ x)) =
      bodyDecoder offset n x := by
  have hline : lineDecoder Exc (36 :: raw ++ (crlf ++ x)) =
      .done (36 :: raw) x := by
    rw [← List.append_assoc]
    refine encodes_line ?_ x
    intro hmem
    rcases List.mem_cons.mp hmem with hcr | hmem
    · exact absurd hcr (by decide)
    · exact cr_not_mem_of_int h hmem
  rw [partDecoder_of_line hline, bulkLength_of_int h]

/-- A payload of the right length is cut off at its end. -/
theorem bodyDecoder_append {n : Nat} (hn : n = p.length) {t : Bytes}
    (ht : t.length = 2) (offset : Nat) (y : Bytes) :
    bodyDecoder offset n (p ++ (t ++ y)) =
      if t = crlf then .done p y
      else .fail (.corrupt offset "bulk string is not terminated") := by
  subst hn
  have hroom : p.length + 2 ≤ (p ++ (t ++ y)).length := by
    rw [List.length_append, List.length_append, ht]
    omega
  have hend : (t ++ y).take 2 = t := by
    rw [← ht, List.take_left]
  have hrest : (p ++ (t ++ y)).drop (p.length + 2) = y := by
    rw [← ht, ← List.drop_drop, List.drop_left, List.drop_left]
  rw [bodyDecoder_of_room hroom, List.drop_left, hend, List.take_left,
    hrest]

/-- **One byte of a bulk string replaced.** -/
theorem partVerdict (hp : py.Reads p.length)
    (h : Replaced b (Resp.encodeBulkString p) w) (offset : Nat) (y : Bytes) :
    PartVerdict py b offset p w y := by
  have hcr := not_mem_header (m := 36) (c := cr) (by decide) (by decide)
    p.length
  have hlf := not_mem_header (m := 36) (c := lf) (by decide) (by decide)
    p.length
  have hint : py.int (str p.length) = some (p.length : Int) :=
    int_str py (by simpa using hp)
  have hwhole : partDecoder py offset
      (36 :: str p.length ++ (crlf ++ (p ++ crlf)) ++ y) = .done p y := by
    rw [← encodeBulkString_eq]
    exact encodes_part hp offset y
  rw [encodeBulkString_eq] at h
  rcases h.append_cases with ⟨line, hline, rfl⟩ | ⟨z, hz, rfl⟩
  · -- a byte of the header
    have hread := encodes_replaced_line (ε := Exc) hcr hlf hline
      (p ++ (crlf ++ y))
    have hx : line ++ (crlf ++ (p ++ crlf)) ++ y =
        line ++ crlf ++ (p ++ (crlf ++ y)) := by
      simp only [List.append_assoc]
    have hlen : line.tail.length = (str p.length).length := by
      rw [List.length_tail, hline.length_eq, List.length_cons,
        Nat.add_sub_cancel]
    rcases bulkLength_cases line
      (by rw [hlen]; exact hp) offset with ⟨raw, n, rfl, hn⟩ | ⟨reason, hbad⟩
    · by_cases hsame : n = p.length
      · refine .kept p (Or.inl rfl) ?_
        rw [hx, partDecoder_of_line hread, bulkLength_of_int hn]
        simp only [bodyDecoder_append hsame (t := crlf) rfl, if_true]
      · exact .misread raw n hn hsame rfl
    · refine .refused offset reason ?_
      rw [hx, partDecoder_of_line hread, hbad]
  rcases hz.append_cases with ⟨t, ht, rfl⟩ | ⟨u, hu, rfl⟩
  · -- a byte of the CRLF behind the header
    by_cases hsame : t = crlf
    · subst hsame
      exact .kept p (Or.inl rfl) hwhole
    obtain ⟨raw, rest, hread, hleft⟩ :=
      line_runs_on (ε := Exc) p y hcr ht hsame
    have hx : 36 :: str p.length ++ (t ++ (p ++ crlf)) ++ y =
        36 :: str p.length ++ (t ++ (p ++ crlf ++ y)) := by
      simp only [List.append_assoc]
    have hbad : bulkLength py offset (36 :: raw) =
        .error (.corrupt offset "invalid bulk length") := by
      simp [bulkLength, count_of_line_end hleft, bind, Except.bind]
    refine .refused offset "invalid bulk length" ?_
    rw [hx, partDecoder_of_line hread, hbad]
  rcases hu.append_cases with ⟨p', hp', rfl⟩ | ⟨t, ht, rfl⟩
  · -- a byte of the payload
    refine .kept p' (Or.inr hp') ?_
    have hx : 36 :: str p.length ++ (crlf ++ (p' ++ crlf)) ++ y =
        36 :: str p.length ++ (crlf ++ (p' ++ (crlf ++ y))) := by
      simp only [List.append_assoc]
    rw [hx, partDecoder_of_int hint,
      bodyDecoder_append hp'.length_eq.symm (t := crlf) rfl, if_pos rfl]
  · -- a byte of the terminator
    have hx : 36 :: str p.length ++ (crlf ++ (p ++ t)) ++ y =
        36 :: str p.length ++ (crlf ++ (p ++ (t ++ y))) := by
      simp only [List.append_assoc]
    by_cases hsame : t = crlf
    · subst hsame
      exact .kept p (Or.inl rfl) hwhole
    · refine .refused offset "bulk string is not terminated" ?_
      rw [hx, partDecoder_of_int hint,
        bodyDecoder_append rfl (t := t) ht.length_eq, if_neg hsame]

end Parts

section Records

variable {parts : List Bytes} {x y w : Bytes}

theorem encodeRecord_eq (parts : List Bytes) :
    encodeRecord parts =
      42 :: str parts.length ++
        (crlf ++ parts.flatMap Resp.encodeBulkString) := by
  simp [encodeRecord, Resp.encodeArray, ascii]

theorem partDecoder_refuses {i : Nat} (hx : Resp.findCrlf x = some i)
    (hhead : x.head? ≠ some 36) (offset : Nat) :
    ∃ o reason, partDecoder py offset x = .fail (.corrupt o reason) := by
  have hline : lineDecoder Exc x = .done (x.take i) (x.drop (i + 2)) :=
    lineDecoder_of_some hx
  have hbad : (x.take i).head? ≠ some 36 := by
    rw [List.head?_take]
    split_ifs <;> simp [hhead]
  refine ⟨offset, Resp.unexpected "$" (x.take i), ?_⟩
  rw [partDecoder_of_line hline]
  simp only [bulkLength, hbad, ne_eq, not_false_eq_true, if_true]

/-- Scanning on from here ends in `AofCorruptError`. -/
def Refused (py : Interpreter) (offset : Nat) (x : Bytes) : Prop :=
  ∃ o reason, Decoder.Fails (recordDecoder py) offset x (.corrupt o reason)

theorem Refused.here {offset : Nat} (o : Nat) (reason : String)
    (hx : x ≠ []) (h : recordDecoder py offset x = .fail (.corrupt o reason)) :
    Refused py offset x :=
  ⟨o, reason, Decoder.Fails.here hx h⟩

theorem Refused.step {offset : Nat} (hx : x ≠ [])
    (h : recordDecoder py offset x = .done parts y)
    (next : ∀ o, Refused py o y) : Refused py offset x := by
  obtain ⟨o, reason, hfail⟩ := next (offset + (x.length - y.length))
  exact ⟨o, reason, Decoder.Fails.step hx h hfail⟩

/-- What does not begin with the marker of a record is refused. -/
theorem refused_of_head {i : Nat} (hx : Resp.findCrlf x = some i)
    (hhead : x.head? ≠ some 42) (offset : Nat) : Refused py offset x := by
  have hline : lineDecoder Exc x = .done (x.take i) (x.drop (i + 2)) :=
    lineDecoder_of_some hx
  have hbad : (x.take i).head? ≠ some 42 := by
    rw [List.head?_take]
    split_ifs <;> simp [hhead]
  refine Refused.here offset (Resp.unexpected "*" (x.take i)) ?_ ?_
  · rintro rfl
    cases hx
  · rw [recordDecoder_of_line hline]
    simp only [multibulkLength, hbad, ne_eq, not_false_eq_true, if_true]

/-- The parts differ from the others in one byte of one of them at most. -/
def NearParts (b : UInt8) (parts parts' : List Bytes) : Prop :=
  ∃ ps p p' qs, parts = ps ++ p :: qs ∧ parts' = ps ++ p' :: qs ∧ Near b p p'

theorem NearParts.refl (h : parts ≠ []) : NearParts b parts parts := by
  obtain ⟨p, qs, rfl⟩ := List.exists_cons_of_ne_nil h
  exact ⟨[], p, p, qs, rfl, rfl, Or.inl rfl⟩

/-- What becomes of a record when a byte of it is replaced: the damage is
noticed there or at what follows, or the record is read with at most that byte
changed, or the length of one part reads as another one. -/
inductive RecordVerdict (py : Interpreter) (b : UInt8) (offset : Nat)
    (parts : List Bytes) (w y : Bytes) : Prop
  | refused (h : Refused py offset (w ++ y))
  | kept (parts' : List Bytes) (near : NearParts b parts parts')
      (h : recordDecoder py offset (w ++ y) = .done parts' y)
  | misread (ps : List Bytes) (p : Bytes) (qs : List Bytes) (raw : Bytes)
      (n : Nat) (hparts : parts = ps ++ p :: qs)
      (hn : py.int raw = some (n : Int)) (hne : n ≠ p.length)
      (hw : w = 42 :: str parts.length ++ (crlf ++
        (ps.flatMap Resp.encodeBulkString ++
          (36 :: raw ++ (crlf ++ (p ++ crlf))) ++
            qs.flatMap Resp.encodeBulkString)))

/-- The parts behind the header of a record. -/
theorem recordDecoder_of_int {raw : Bytes} {n : Nat}
    (h : py.int raw = some (n : Int)) (hpos : 0 < n) (offset : Nat) (x : Bytes) :
    ∃ o, recordDecoder py offset (42 :: raw ++ (crlf ++ x)) =
      Decoder.times (partDecoder py) n o x := by
  have hline : lineDecoder Exc (42 :: raw ++ (crlf ++ x)) =
      .done (42 :: raw) x := by
    rw [← List.append_assoc]
    refine encodes_line ?_ x
    intro hmem
    rcases List.mem_cons.mp hmem with hcr | hmem
    · exact absurd hcr (by decide)
    · exact cr_not_mem_of_int h hmem
  exact ⟨_, by rw [recordDecoder_of_line hline,
    multibulkLength_of_int h hpos]; rfl⟩

theorem encodes_parts {py : Interpreter} {parts : List Bytes}
    (h : ∀ p ∈ parts, py.Reads p.length) :
    ∀ p ∈ parts, ∀ offset,
      Decoder.Encodes (partDecoder py offset) (Resp.encodeBulkString p) p :=
  fun p hp offset => encodes_part (h p hp) offset

theorem parts_begin (h : parts ≠ []) (y : Bytes) :
    ∃ u z, parts.flatMap Resp.encodeBulkString ++ y =
      36 :: u ++ crlf ++ z := by
  obtain ⟨p, qs, rfl⟩ := List.exists_cons_of_ne_nil h
  refine ⟨str p.length,
    p ++ crlf ++ (qs.flatMap Resp.encodeBulkString ++ y), ?_⟩
  rw [List.flatMap_cons, encodeBulkString_eq]
  simp only [List.append_assoc]

/-- A count that is wrong is noticed at what follows. -/
theorem recordVerdict_of_count {raw : Bytes} {m i : Nat}
    (hparts : ReadableRecord py parts) (hm : py.int raw = some (m : Int))
    (hpos : 0 < m) (hy : Resp.findCrlf y = some i)
    (hhead : y.head? ≠ some 36) (offset : Nat)
    (hw : w = 42 :: raw ++ (crlf ++ parts.flatMap Resp.encodeBulkString)) :
    RecordVerdict py b offset parts w y := by
  subst hw
  have hx : 42 :: raw ++ (crlf ++ parts.flatMap Resp.encodeBulkString) ++ y =
      42 :: raw ++ (crlf ++ (parts.flatMap Resp.encodeBulkString ++ y)) := by
    simp only [List.append_assoc]
  have hne : 42 :: raw ++ (crlf ++
      (parts.flatMap Resp.encodeBulkString ++ y)) ≠ [] := by
    simp
  have henc := encodes_parts hparts.part
  obtain ⟨o, hread⟩ := recordDecoder_of_int hm hpos offset
    (parts.flatMap Resp.encodeBulkString ++ y)
  rcases lt_trichotomy m parts.length with hless | rfl | hmore
  · -- the parts left over do not begin a record
    have hfirst : (parts.take m).length = m := by
      rw [List.length_take, Nat.min_eq_left hless.le]
    have hsplit : parts.flatMap Resp.encodeBulkString ++ y =
        (parts.take m).flatMap Resp.encodeBulkString ++
          ((parts.drop m).flatMap Resp.encodeBulkString ++ y) := by
      rw [← List.append_assoc, ← List.flatMap_append, List.take_append_drop]
    have hdone := Decoder.encodes_times (parts.take m)
      (fun p hp => henc p (List.mem_of_mem_take hp)) o
      ((parts.drop m).flatMap Resp.encodeBulkString ++ y)
    rw [hfirst, ← hsplit] at hdone
    have hleft : parts.drop m ≠ [] := by
      rw [ne_eq, List.drop_eq_nil_iff]
      omega
    obtain ⟨u, z, hbegin⟩ := parts_begin hleft y
    obtain ⟨k, hk⟩ := findCrlf_isSome (36 :: u) z
    rw [← hbegin] at hk
    refine .refused ?_
    rw [hx]
    exact Refused.step hne (hread.trans hdone)
      (refused_of_head hk (by simp [hbegin]))
  · refine .kept parts (NearParts.refl hparts.nonempty) ?_
    rw [hx, hread, Decoder.encodes_times parts henc o y]
  · -- the next record does not begin with a part
    obtain ⟨k, rfl⟩ := Nat.exists_eq_add_of_lt hmore
    obtain ⟨o', reason, hbad⟩ := partDecoder_refuses hy hhead
      (o + (parts.flatMap Resp.encodeBulkString).length)
    refine .refused ?_
    rw [hx]
    refine Refused.here o' reason hne ?_
    rw [hread, Nat.add_assoc, Decoder.times_after parts henc,
      Decoder.times_fail hbad, Decoded.map]

/-- A record whose first parts are intact is read on from the next part. -/
theorem recordDecoder_from_part {ps qs : List Bytes} {p : Bytes}
    (hparts : ReadableRecord py (ps ++ p :: qs)) (offset : Nat) (x : Bytes) :
    ∃ o, recordDecoder py offset
        (42 :: str (ps ++ p :: qs).length ++
          (crlf ++ (ps.flatMap Resp.encodeBulkString ++ x))) =
      (Decoder.times (partDecoder py) (qs.length + 1) o x).map
        (ps ++ ·) := by
  have hint : py.int (str (ps ++ p :: qs).length) =
      some ((ps ++ p :: qs).length : Int) :=
    int_str py (by simpa only [Int.natAbs_natCast] using hparts.count)
  have hps := encodes_parts fun q hq =>
    hparts.part q (List.mem_append_left (p :: qs) hq)
  obtain ⟨o, hread⟩ := recordDecoder_of_int hint
    (List.length_pos_of_ne_nil hparts.nonempty) offset
    (ps.flatMap Resp.encodeBulkString ++ x)
  refine ⟨o + (ps.flatMap Resp.encodeBulkString).length, ?_⟩
  rw [hread, List.length_append, List.length_cons]
  exact Decoder.times_after ps hps (qs.length + 1) x o

/-- **One byte of a record replaced.** -/
theorem recordVerdict {i : Nat} (hparts : ReadableRecord py parts)
    (h : Replaced b (encodeRecord parts) w) (hy : Resp.findCrlf y = some i)
    (hhead : y.head? ≠ some 36) (offset : Nat) :
    RecordVerdict py b offset parts w y := by
  have hcr := not_mem_header (m := 42) (c := cr) (by decide) (by decide)
    parts.length
  have hlf := not_mem_header (m := 42) (c := lf) (by decide) (by decide)
    parts.length
  have hint : py.int (str parts.length) = some (parts.length : Int) :=
    int_str py (by simpa using hparts.count)
  have hpos := List.length_pos_of_ne_nil hparts.nonempty
  rw [encodeRecord_eq] at h
  rcases h.append_cases with ⟨line, hline, rfl⟩ | ⟨z, hz, rfl⟩
  · -- a byte of the header
    have hread := encodes_replaced_line (ε := Exc) hcr hlf hline
      (parts.flatMap Resp.encodeBulkString ++ y)
    have hx : line ++ (crlf ++ parts.flatMap Resp.encodeBulkString) ++ y =
        line ++ crlf ++ (parts.flatMap Resp.encodeBulkString ++ y) := by
      simp only [List.append_assoc]
    have hlen : line.tail.length = (str parts.length).length := by
      rw [List.length_tail, hline.length_eq, List.length_cons,
        Nat.add_sub_cancel]
    rcases multibulkLength_cases line
      (by rw [hlen]; exact hparts.count) offset with
      ⟨raw, m, rfl, hm, hm0⟩ | ⟨reason, hbad⟩
    · exact recordVerdict_of_count hparts hm hm0 hy hhead offset rfl
    · refine .refused (Refused.here offset reason ?_ ?_)
      · simp [crlf]
      · rw [hx, recordDecoder_of_line hread, hbad]
  rcases hz.append_cases with ⟨t, ht, rfl⟩ | ⟨u, hu, rfl⟩
  · -- a byte of the CRLF behind the header
    by_cases hsame : t = crlf
    · subst hsame
      exact recordVerdict_of_count hparts hint hpos hy hhead offset rfl
    obtain ⟨u, z, hbegin⟩ := parts_begin hparts.nonempty y
    obtain ⟨raw, rest, hread, hleft⟩ :=
      line_runs_on (ε := Exc) (36 :: u) z hcr ht hsame
    have hx : 42 :: str parts.length ++
        (t ++ parts.flatMap Resp.encodeBulkString) ++ y =
        42 :: str parts.length ++ (t ++ (36 :: u ++ crlf ++ z)) := by
      rw [← hbegin]
      simp only [List.append_assoc]
    have hbad : multibulkLength py offset (42 :: raw) =
        .error (.corrupt offset "invalid multibulk length") := by
      simp [multibulkLength, count_of_line_end hleft, bind, Except.bind]
    refine .refused (Refused.here offset "invalid multibulk length"
      (by simp) ?_)
    rw [hx, recordDecoder_of_line hread, hbad]
  · -- a byte of a part
    obtain ⟨ps, p, qs, v, rfl, hv, rfl⟩ := hu.flatMap_cases
    have hx : 42 :: str (ps ++ p :: qs).length ++ (crlf ++
        (ps.flatMap Resp.encodeBulkString ++ v ++
          qs.flatMap Resp.encodeBulkString)) ++ y =
        42 :: str (ps ++ p :: qs).length ++ (crlf ++
          (ps.flatMap Resp.encodeBulkString ++
            (v ++ (qs.flatMap Resp.encodeBulkString ++ y)))) := by
      simp only [List.append_assoc]
    obtain ⟨o, hread⟩ := recordDecoder_from_part hparts offset
      (v ++ (qs.flatMap Resp.encodeBulkString ++ y))
    rw [← hx] at hread
    have hqs := encodes_parts fun q hq => hparts.part q
      (List.mem_append_right ps (List.mem_cons_of_mem p hq))
    rcases partVerdict (hparts.part p (by simp)) hv o
      (qs.flatMap Resp.encodeBulkString ++ y) with
      ⟨o', reason, hbad⟩ | ⟨p', near, hdone⟩ | ⟨raw, n, hn, hne, rfl⟩
    · refine .refused (Refused.here o' reason ?_ ?_)
      · simp
      · rw [hread, Decoder.times_fail hbad, Decoded.map]
    · refine .kept (ps ++ p' :: qs) ⟨ps, p, p', qs, rfl, rfl, near⟩ ?_
      rw [hread]
      simp only [Decoder.times, Decoder.andThen, hdone,
        Decoder.encodes_times qs hqs _ y, Decoded.map]
    · exact .misread ps p qs raw n rfl hn hne rfl

end Records

section Facts

open Commands KeyValueStore

/-- The deadline that stands in the record of a fact. -/
def deadlineOf : Write → Option Int
  | .put _ _ d => d
  | .expireAt _ d => some d
  | _ => none

/-- A fact the server can record: `int` reads its record back, and it takes
any text as long as that of the deadline, which is at most 20 bytes for a
64-bit number. -/
structure WritableFact (py : Interpreter) (f : Write) : Prop where
  readable : ReadableFact py f
  deadline : ∀ d, deadlineOf f = some d → py.Converts (str d).length

theorem readFact_total {first : Bytes} {args : List Bytes}
    (hset : ∀ key value option raw, upper first = ascii "SET" →
      args = [key, value, option, raw] → py.Converts raw.length)
    (hexpire : ∀ key raw, upper first = ascii "PEXPIREAT" →
      args = [key, raw] → py.Converts raw.length) (offset : Nat) :
    (∃ g, readFact py ⟨offset, first :: args⟩ = .ok g) ∨
      ∃ reason, readFact py ⟨offset, first :: args⟩ =
        .error (.corrupt offset reason) := by
  rcases readFact_verdict py offset (List.cons_ne_nil first args) with
    ⟨f, -, hf⟩ | ⟨hlong, -⟩ | hbad
  · exact Or.inl ⟨f, hf⟩
  · generalize hparts : first :: args = parts at hlong
    cases hlong with
    | set name key value option raw h hoption hraw =>
        cases hparts
        exact absurd (hset key value option raw h rfl)
          (not_converts_of_overlong hraw)
    | expireAt name key raw h hraw =>
        cases hparts
        exact absurd (hexpire key raw h rfl) (not_converts_of_overlong hraw)
  · exact Or.inr hbad

theorem NearParts.forall₂ {parts parts' : List Bytes}
    (h : NearParts b parts parts') : List.Forall₂ (Near b) parts parts' := by
  obtain ⟨ps, p, p', qs, rfl, rfl, hp⟩ := h
  have hrefl : ∀ l : List Bytes, List.Forall₂ (Near b) l l :=
    fun l => List.forall₂_same.mpr fun _ _ => Or.inl rfl
  exact List.rel_append (hrefl ps) (List.Forall₂.cons hp (hrefl qs))

/-- No single byte makes the name of one record that of another of the same
length. -/
theorem upper_ne_set_of_near_del {first : Bytes}
    (h : Near b (ascii "DEL") first) : upper first ≠ ascii "SET" := by
  rcases h with rfl | h
  · decide
  · have hdel : ascii "DEL" = [68, 69, 76] := rfl
    have hset : ascii "SET" = [83, 69, 84] := rfl
    rw [hdel] at h
    rw [hset]
    cases h with
    | head _ _ =>
        have h76 : upperByte 76 = 76 := by decide
        simp [upper, h76]
    | tail _ _ =>
        have h68 : upperByte 68 = 68 := by decide
        simp [upper, h68]

theorem length_upper (raw : Bytes) : (upper raw).length = raw.length :=
  List.length_map upperByte

/-- A record of a fact with one byte of one part replaced states a fact, or it
is noticed that it states none. -/
theorem readFact_of_near {f : Write} (hf : WritableFact py f)
    {parts' : List Bytes} (h : NearParts b (factParts f) parts')
    (offset : Nat) :
    (∃ g, readFact py ⟨offset, parts'⟩ = .ok g) ∨
      ∃ reason, readFact py ⟨offset, parts'⟩ =
        .error (.corrupt offset reason) := by
  have hall := h.forall₂
  have hshort : ∀ {name first : Bytes}, Near b name first →
      name.length ≠ 9 → upper first ≠ ascii "PEXPIREAT" := by
    intro name first hnear hlen heq
    have := congrArg List.length heq
    rw [length_upper, hnear.length_eq] at this
    exact hlen this
  cases f with
  | put key value d =>
      cases d with
      | none =>
          obtain ⟨first, _, hfirst, hrest, rfl⟩ :=
            List.forall₂_cons_left_iff.mp hall
          refine readFact_total ?_ ?_ offset
          · rintro _ _ _ _ - rfl
            have := hrest.length_eq
            simp at this
          · intro _ _ hname
            exact absurd hname (hshort hfirst (by decide))
      | some d =>
          obtain ⟨first, _, hfirst, hrest, rfl⟩ :=
            List.forall₂_cons_left_iff.mp hall
          refine readFact_total ?_ ?_ offset
          · rintro _ _ _ raw - rfl
            simp only [List.forall₂_cons] at hrest
            rw [hrest.2.2.2.1.length_eq]
            exact hf.deadline d rfl
          · intro _ _ hname
            exact absurd hname (hshort hfirst (by decide))
  | expireAt key d =>
      obtain ⟨first, _, hfirst, hrest, rfl⟩ :=
        List.forall₂_cons_left_iff.mp hall
      refine readFact_total ?_ ?_ offset
      · rintro _ _ _ _ - rfl
        have := hrest.length_eq
        simp at this
      · rintro _ raw - rfl
        simp only [List.forall₂_cons] at hrest
        rw [hrest.2.1.length_eq]
        exact hf.deadline d rfl
  | persist key =>
      obtain ⟨first, _, hfirst, hrest, rfl⟩ :=
        List.forall₂_cons_left_iff.mp hall
      refine readFact_total ?_ ?_ offset
      · rintro _ _ _ _ - rfl
        have := hrest.length_eq
        simp at this
      · rintro _ _ - rfl
        have := hrest.length_eq
        simp at this
  | drop keys =>
      obtain ⟨first, _, hfirst, hrest, rfl⟩ :=
        List.forall₂_cons_left_iff.mp hall
      refine readFact_total ?_ ?_ offset
      · intro _ _ _ _ hname
        exact absurd hname (upper_ne_set_of_near_del hfirst)
      · intro _ _ hname
        exact absurd hname (hshort hfirst (by decide))
  | dropAll =>
      obtain ⟨first, _, hfirst, hrest, rfl⟩ :=
        List.forall₂_cons_left_iff.mp hall
      refine readFact_total ?_ ?_ offset
      · rintro _ _ _ _ - rfl
        have := hrest.length_eq
        simp at this
      · rintro _ _ - rfl
        have := hrest.length_eq
        simp at this

/-- The last part of a record that has no deadline may hold anything. -/
theorem readFact_of_open {f : Write} (hf : ReadableFact py f)
    (hd : deadlineOf f = none) {ps : List Bytes} {p : Bytes}
    (hparts : factParts f = ps ++ [p]) (hps : ps ≠ []) (q : Bytes)
    (offset : Nat) : ∃ g, readFact py ⟨offset, ps ++ [q]⟩ = .ok g := by
  have hfirst : ps = (factParts f).dropLast := by
    rw [hparts, List.dropLast_concat]
  subst hfirst
  cases f with
  | put key value d =>
      cases d with
      | none =>
          exact ⟨_, rfl⟩
      | some d =>
          cases hd
  | expireAt key d =>
      cases hd
  | persist key =>
      exact ⟨_, rfl⟩
  | drop keys =>
      cases keys with
      | nil =>
          exact absurd rfl hf.1
      | cons key keys =>
          have hne : (key :: keys).dropLast ++ [q] ≠ [] := by simp
          obtain ⟨k, l, hl⟩ := List.exists_cons_of_ne_nil hne
          have hparts' : (factParts (.drop (key :: keys))).dropLast ++ [q] =
              ascii "DEL" :: k :: l := by
            rw [← hl]
            rfl
          rw [hparts']
          exact ⟨_, rfl⟩
  | dropAll =>
      exact absurd rfl hps

end Facts

end Aof
end PyRedis
