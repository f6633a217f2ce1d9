import PyRedis.Core.Aof
import PyRedis.Foundation.Decoder

/-!
# The framing of the log

The scanner of a log as an incremental decoder.  A line, a bulk string and a
record are decoders built from each other; `readRecord` at an offset is
the record decoder on what lies behind the offset, and the loop of `scan` is
its repetition.

The encoding of a record is a code word whatever its parts hold, because a
payload is taken by its length and never searched.
-/

namespace PyRedis

open Foundation

section Lines

open Resp

theorem findCrlf_append {line : Bytes} (h : cr ∉ line) (y : Bytes) :
    findCrlf (line ++ crlf ++ y) = some line.length := by
  induction line with
  | nil =>
      simp [findCrlf, crlf]
  | cons b line ih =>
      have hb : b ≠ cr := fun hb => h (by simp [hb])
      have hline : cr ∉ line := fun hm => h (List.mem_cons_of_mem _ hm)
      have hrest := ih hline
      cases line with
      | nil =>
          simp [findCrlf, crlf, hb]
      | cons c line =>
          simp only [List.cons_append] at hrest ⊢
          simp only [findCrlf, hb, false_and, if_false, hrest,
            Option.map_some, List.length_cons]

/-- Where a CRLF was found is where it will be found. -/
theorem findCrlf_take_append {x : Bytes} {i : Nat}
    (h : findCrlf x = some i) (y : Bytes) :
    findCrlf (x.take (i + 2) ++ y) = some i := by
  induction x using findCrlf.induct generalizing i with
  | case1 =>
      cases h
  | case2 =>
      cases h
  | case3 a b rest hab =>
      simp only [findCrlf, hab, and_self, if_true, Option.some.injEq] at h
      subst h
      simp [findCrlf, hab]
  | case4 a b rest hab ih =>
      simp only [findCrlf, if_neg hab, Option.map_eq_some_iff] at h
      obtain ⟨j, hj, rfl⟩ := h
      have hrest := ih hj
      simp only [List.take_succ_cons, List.cons_append] at hrest ⊢
      simp only [findCrlf, if_neg hab, hrest, Option.map_some]

theorem findCrlf_le {x : Bytes} {i : Nat} (h : findCrlf x = some i) :
    i + 2 ≤ x.length := by
  induction x using findCrlf.induct generalizing i with
  | case1 =>
      cases h
  | case2 =>
      cases h
  | case3 a b rest hab =>
      simp only [findCrlf, hab, and_self, if_true, Option.some.injEq] at h
      subst h
      simp
  | case4 a b rest hab ih =>
      simp only [findCrlf, if_neg hab, Option.map_eq_some_iff] at h
      obtain ⟨j, hj, rfl⟩ := h
      have := ih hj
      simp only [List.length_cons] at this ⊢
      omega

/-- A line up to its CRLF. -/
def lineDecoder (ε : Type) : Decoder UInt8 ε Bytes := fun x =>
  match findCrlf x with
  | none => .more
  | some i => .done (x.take i) (x.drop (i + 2))

variable {ε : Type}

theorem lineDecoder_done {x line rest : Bytes}
    (h : lineDecoder ε x = .done line rest) :
    ∃ i, findCrlf x = some i ∧ line = x.take i ∧ rest = x.drop (i + 2) := by
  unfold lineDecoder at h
  split at h
  · cases h
  · next i hi =>
      cases h
      exact ⟨i, hi, rfl, rfl⟩

theorem lineDecoder_of_some {x : Bytes} {i : Nat} (h : findCrlf x = some i) :
    lineDecoder ε x = .done (x.take i) (x.drop (i + 2)) := by
  simp only [lineDecoder, h]

/-- A line whose end is found whatever follows is a code word of itself. -/
theorem encodes_of_findCrlf {line : Bytes}
    (h : ∀ y, findCrlf (line ++ crlf ++ y) = some line.length) :
    Decoder.Encodes (lineDecoder ε) (line ++ crlf) line := by
  intro y
  have hdrop : (line ++ crlf ++ y).drop (line.length + 2) = y := by
    rw [List.drop_append_of_le_length (by simp [crlf])]
    simp [crlf]
  have htake : (line ++ crlf ++ y).take line.length = line := by
    rw [List.append_assoc, List.take_left]
  simp only [lineDecoder, h y, hdrop, htake]

theorem encodes_line {line : Bytes} (h : cr ∉ line) :
    Decoder.Encodes (lineDecoder ε) (line ++ crlf) line :=
  encodes_of_findCrlf (findCrlf_append h)

theorem incremental_line : Decoder.Incremental (lineDecoder ε) where
  done_local := by
    intro x line rest h
    obtain ⟨i, hi, rfl, rfl⟩ := lineDecoder_done h
    refine ⟨x.take (i + 2), (List.take_append_drop _ _).symm, ?_⟩
    intro y
    have hlen : (x.take (i + 2)).length = i + 2 := by
      rw [List.length_take]
      have := findCrlf_le hi
      omega
    simp only [lineDecoder, findCrlf_take_append hi]
    rw [List.take_append_of_le_length (by omega), List.take_take,
      List.drop_append_of_le_length (by omega)]
    simp
  fail_append := by
    intro x e h
    unfold lineDecoder at h
    split at h <;> cases h

theorem productive_line : Decoder.Productive (lineDecoder ε) := by
  intro x line rest h
  obtain ⟨i, hi, rfl, rfl⟩ := lineDecoder_done h
  have := findCrlf_le hi
  rw [List.length_drop]
  omega

end Lines

namespace Aof

section Decoders

variable (py : Interpreter)

/-- What the header of a bulk string says about its length. -/
def bulkLength (offset : Nat) (line : Bytes) : Except Exc Int :=
  if line.head? ≠ some 36 then
    .error (.corrupt offset (Resp.unexpected "$" line))
  else do
    let length ← count py line.tail offset "invalid bulk length"
    if length < 0 then .error (.corrupt offset "invalid bulk length")
    else .ok length

/-- A payload without its terminator. -/
def payload (offset : Nat) (length : Int) (body : Bytes) :
    Except Exc Bytes :=
  if body.drop length.toNat ≠ crlf then
    .error (.corrupt offset "bulk string is not terminated")
  else .ok (body.take length.toNat)

def partDecoder (offset : Nat) : Decoder UInt8 Exc Bytes :=
  (lineDecoder Exc).andThen fun line _ =>
    (Decoder.ofExcept (bulkLength py offset line)).andThen fun length _ =>
      (Decoder.take (length.toNat + crlf.length)).andThen fun body _ =>
        Decoder.ofExcept (payload offset length body)

/-- What the header of a record says about the number of its parts. -/
def multibulkLength (offset : Nat) (header : Bytes) : Except Exc Int :=
  if header.head? ≠ some 42 then
    .error (.corrupt offset (Resp.unexpected "*" header))
  else do
    let n ← count py header.tail offset "invalid multibulk length"
    if n ≤ 0 then .error (.corrupt offset "invalid multibulk length")
    else .ok n

def recordDecoder (offset : Nat) : Decoder UInt8 Exc (List Bytes) :=
  (lineDecoder Exc).andThen fun header used =>
    (Decoder.ofExcept (multibulkLength py offset header)).andThen fun n _ =>
      Decoder.times (partDecoder py) n.toNat (offset + used)

variable {py}

theorem incremental_part (offset : Nat) :
    Decoder.Incremental (partDecoder py offset) :=
  Decoder.incremental_andThen incremental_line fun _ _ =>
    Decoder.incremental_andThen (Decoder.incremental_ofExcept _) fun _ _ =>
      Decoder.incremental_andThen (Decoder.incremental_take _) fun _ _ =>
        Decoder.incremental_ofExcept _

theorem incremental_record (offset : Nat) :
    Decoder.Incremental (recordDecoder py offset) :=
  Decoder.incremental_andThen incremental_line fun _ _ =>
    Decoder.incremental_andThen (Decoder.incremental_ofExcept _) fun _ _ =>
      Decoder.incremental_times incremental_part _ _

theorem productive_record (offset : Nat) :
    Decoder.Productive (recordDecoder py offset) :=
  productive_line.andThen fun _ _ =>
    Decoder.incremental_andThen (Decoder.incremental_ofExcept _) fun _ _ =>
      Decoder.incremental_times incremental_part _ _

end Decoders

section Headers

variable {py : Interpreter} {raw line : Bytes} {offset : Nat}

/-- A number is read, or it is too long, or the log is corrupt. -/
theorem count_verdict (py : Interpreter) (raw : Bytes) (offset : Nat)
    (reason : String) :
    (∃ n, py.int raw = some n ∧ count py raw offset reason = .ok n) ∨
      (Overlong py raw ∧ count py raw offset reason = .error .value) ∨
      count py raw offset reason = .error (.corrupt offset reason) := by
  unfold count
  split_ifs with hdigits
  · rcases int_or_overlong py hdigits with ⟨n, hn⟩ | hlong
    · rw [hn]
      exact Or.inl ⟨n, rfl, rfl⟩
    · rw [int_eq_none_of_overlong hlong]
      exact Or.inr (Or.inl ⟨hlong, rfl⟩)
  · exact Or.inr (Or.inr rfl)

theorem count_eq_ok_iff {reason : String} {n : Int} :
    count py raw offset reason = .ok n ↔ py.int raw = some n := by
  constructor
  · intro h
    rcases count_verdict py raw offset reason with
      ⟨m, hm, hok⟩ | ⟨-, hvalue⟩ | hbad
    · rw [hok] at h
      cases h
      exact hm
    · rw [hvalue] at h
      cases h
    · rw [hbad] at h
      cases h
  · intro h
    have hdigits := (int_eq_some_iff.mp h).1
    simp only [count, hdigits, if_true, h]

theorem count_of_int {n : Int} (h : py.int raw = some n) (offset : Nat)
    (reason : String) : count py raw offset reason = .ok n :=
  count_eq_ok_iff.mpr h

/-- The number in a header line, unless it is too low. -/
def headerNumber (py : Interpreter) (kind : UInt8) (wanted reason : String)
    (low : Int → Prop) [DecidablePred low] (offset : Nat) (line : Bytes) :
    Except Exc Int :=
  if line.head? ≠ some kind then
    .error (.corrupt offset (Resp.unexpected wanted line))
  else do
    let n ← count py line.tail offset reason
    if low n then .error (.corrupt offset reason) else .ok n

theorem bulkLength_eq (py : Interpreter) :
    bulkLength py = headerNumber py 36 "$" "invalid bulk length" (· < 0) :=
  rfl

theorem multibulkLength_eq (py : Interpreter) :
    multibulkLength py =
      headerNumber py 42 "*" "invalid multibulk length" (· ≤ 0) :=
  rfl

variable {kind : UInt8} {wanted reason : String} {low : Int → Prop}
variable [DecidablePred low]

theorem headerNumber_cons (kind : UInt8) (raw : Bytes) :
    headerNumber py kind wanted reason low offset (kind :: raw) = (do
      let n ← count py raw offset reason
      if low n then .error (.corrupt offset reason) else .ok n) := by
  simp only [headerNumber, List.head?_cons, ne_eq, not_true_eq_false,
    if_false, List.tail_cons]

/-- A header line has a number, or one that is too long, or the log is
corrupt. -/
theorem headerNumber_verdict (py : Interpreter) (kind : UInt8)
    (wanted reason : String) (low : Int → Prop) [DecidablePred low]
    (offset : Nat) (line : Bytes) :
    (∃ raw n, line = kind :: raw ∧ py.int raw = some n ∧ ¬ low n ∧
        headerNumber py kind wanted reason low offset line = .ok n) ∨
      (∃ raw, line = kind :: raw ∧ Overlong py raw ∧
        headerNumber py kind wanted reason low offset line =
          .error .value) ∨
      ∃ why, headerNumber py kind wanted reason low offset line =
        .error (.corrupt offset why) := by
  by_cases hhead : line.head? = some kind
  · obtain ⟨raw, rfl⟩ := List.head?_eq_some_iff.mp hhead
    rw [headerNumber_cons]
    rcases count_verdict py raw offset reason with
      ⟨n, hint, hn⟩ | ⟨hlong, hvalue⟩ | hbad
    · rw [hn]
      by_cases hlow : low n
      · exact Or.inr (Or.inr ⟨reason, if_pos hlow⟩)
      · exact Or.inl ⟨raw, n, rfl, hint, hlow, if_neg hlow⟩
    · rw [hvalue]
      exact Or.inr (Or.inl ⟨raw, rfl, hlong, rfl⟩)
    · rw [hbad]
      exact Or.inr (Or.inr ⟨reason, rfl⟩)
  · exact Or.inr (Or.inr ⟨_, if_pos hhead⟩)

theorem headerNumber_eq_ok_iff {n : Int} :
    headerNumber py kind wanted reason low offset line = .ok n ↔
      ∃ raw, line = kind :: raw ∧ py.int raw = some n ∧ ¬ low n := by
  constructor
  · intro h
    rcases headerNumber_verdict py kind wanted reason low offset line with
      ⟨raw, m, rfl, hint, hlow, hok⟩ | ⟨-, -, -, hvalue⟩ | ⟨why, hbad⟩
    · rw [hok] at h
      cases h
      exact ⟨raw, rfl, hint, hlow⟩
    · rw [hvalue] at h
      cases h
    · rw [hbad] at h
      cases h
  · rintro ⟨raw, rfl, hint, hlow⟩
    rw [headerNumber_cons, count_of_int hint]
    exact if_neg hlow

theorem bulkLength_of_int {n : Nat} (h : py.int raw = some (n : Int))
    (offset : Nat) : bulkLength py offset (36 :: raw) = .ok n := by
  rw [bulkLength_eq]
  exact headerNumber_eq_ok_iff.mpr ⟨raw, rfl, h, by omega⟩

theorem multibulkLength_of_int {n : Nat} (h : py.int raw = some (n : Int))
    (hpos : 0 < n) (offset : Nat) :
    multibulkLength py offset (42 :: raw) = .ok n := by
  rw [multibulkLength_eq]
  exact headerNumber_eq_ok_iff.mpr ⟨raw, rfl, h, by omega⟩

theorem bulkLength_ok {n : Int} (h : bulkLength py offset line = .ok n) :
    0 ≤ n ∧ py.Reads n.natAbs := by
  rw [bulkLength_eq] at h
  obtain ⟨raw, rfl, hint, hlow⟩ := headerNumber_eq_ok_iff.mp h
  exact ⟨not_lt.mp hlow, py.reads_of_int hint⟩

theorem multibulkLength_ok {n : Int}
    (h : multibulkLength py offset line = .ok n) :
    0 < n ∧ py.Reads n.natAbs := by
  rw [multibulkLength_eq] at h
  obtain ⟨raw, rfl, hint, hlow⟩ := headerNumber_eq_ok_iff.mp h
  exact ⟨not_le.mp hlow, py.reads_of_int hint⟩

end Headers

section CodeWords

variable {py : Interpreter}

theorem cr_not_mem_str (n : Int) : cr ∉ str n := by
  have hnat : ∀ m : Nat, cr ∉ Decimal.natText m := by
    intro m h
    have := Decimal.natText_isDigit h
    simp [cr, Decimal.isDigit] at this
  cases n with
  | ofNat m =>
      exact hnat m
  | negSucc m =>
      intro h
      rcases List.mem_cons.mp h with hminus | h
      · exact absurd hminus (by decide)
      · exact hnat (m + 1) h

theorem count_str {n : Int} (h : py.Reads n.natAbs) (offset : Nat)
    (reason : String) : count py (str n) offset reason = .ok n :=
  count_of_int (int_str py h) offset reason

theorem bulkLength_str {n : Nat} (h : py.Reads n) (offset : Nat) :
    bulkLength py offset (36 :: str n) = .ok n :=
  bulkLength_of_int (int_str py (n := (n : Int)) h) offset

theorem encodes_part {part : Bytes} (h : py.Reads part.length)
    (offset : Nat) :
    Decoder.Encodes (partDecoder py offset) (Resp.encodeBulkString part)
      part := by
  have hword : Resp.encodeBulkString part =
      ((36 : UInt8) :: str part.length ++ crlf) ++ ([] ++
        ((part ++ crlf) ++ [])) := by
    simp [Resp.encodeBulkString, ascii]
  rw [hword]
  refine Decoder.encodes_andThen (encodes_line ?_) ?_
  · intro hmem
    rcases List.mem_cons.mp hmem with hcr | hmem
    · exact absurd hcr (by decide)
    · exact cr_not_mem_str _ hmem
  · rw [bulkLength_str h]
    refine Decoder.encodes_andThen (a := (part.length : Int))
      (fun y => rfl) ?_
    refine Decoder.encodes_andThen (a := part ++ crlf) ?_ ?_
    · have := Decoder.encodes_take (ε := Exc) (part ++ crlf)
      simpa using this
    · intro y
      simp [payload, Decoder.ofExcept]

/-- Parts and their number can be read back, and there is at least one. -/
structure ReadableRecord (py : Interpreter) (parts : List Bytes) :
    Prop where
  nonempty : parts ≠ []
  count : py.Reads parts.length
  part : ∀ p ∈ parts, py.Reads p.length

theorem multibulkLength_str {n : Nat} (h : py.Reads n) (hpos : 0 < n)
    (offset : Nat) : multibulkLength py offset (42 :: str n) = .ok n :=
  multibulkLength_of_int (int_str py (n := (n : Int)) h) hpos offset

/-- **The encoding of a record is a code word of its parts.** -/
theorem encodes_record {parts : List Bytes} (h : ReadableRecord py parts)
    (offset : Nat) :
    Decoder.Encodes (recordDecoder py offset) (encodeRecord parts)
      parts := by
  have hword : encodeRecord parts =
      ((42 : UInt8) :: str parts.length ++ crlf) ++ ([] ++
        parts.flatMap Resp.encodeBulkString) := by
    simp [encodeRecord, Resp.encodeArray, ascii]
  rw [hword]
  refine Decoder.encodes_andThen (encodes_line ?_) ?_
  · intro hmem
    rcases List.mem_cons.mp hmem with hcr | hmem
    · exact absurd hcr (by decide)
    · exact cr_not_mem_str _ hmem
  · rw [multibulkLength_str h.count (List.length_pos_of_ne_nil h.nonempty)]
    refine Decoder.encodes_andThen (a := (parts.length : Int))
      (fun y => rfl) ?_
    exact Decoder.encodes_times parts
      (fun part hpart offset => encodes_part (h.part part hpart) offset) _

theorem encodeRecord_ne_nil (parts : List Bytes) :
    encodeRecord parts ≠ [] := by
  simp [encodeRecord, Resp.encodeArray, ascii]

end CodeWords

section Decoded

variable {py : Interpreter}

/-- The length of a part that was read can be read again. -/
theorem reads_of_part {offset : Nat} {x rest part : Bytes}
    (h : partDecoder py offset x = .done part rest) :
    py.Reads part.length := by
  obtain ⟨line, mid, -, h⟩ := Decoder.andThen_done h
  obtain ⟨n, mid', hn, h⟩ := Decoder.andThen_done h
  obtain ⟨body, mid'', hbody, h⟩ := Decoder.andThen_done h
  obtain ⟨hsign, hreads⟩ := bulkLength_ok (Decoder.ofExcept_done hn).1
  have hpayload := (Decoder.ofExcept_done h).1
  have hlen := (Decoder.take_done hbody).1
  unfold payload at hpayload
  split_ifs at hpayload with hcrlf
  cases hpayload
  have hpart : (body.take n.toNat).length = n.natAbs := by
    rw [List.length_take, hlen]
    omega
  rwa [hpart]

/-- What was read as a record can be read again. -/
theorem readableRecord_of_done {offset : Nat} {x rest : Bytes}
    {parts : List Bytes}
    (h : recordDecoder py offset x = .done parts rest) :
    ReadableRecord py parts := by
  obtain ⟨header, mid, -, h⟩ := Decoder.andThen_done h
  obtain ⟨n, mid', hn, h⟩ := Decoder.andThen_done h
  obtain ⟨hpos, hreads⟩ := multibulkLength_ok (Decoder.ofExcept_done hn).1
  obtain ⟨hlen, hparts⟩ := Decoder.times_done
    (P := fun part : Bytes => py.Reads part.length)
    (fun _ _ _ _ hpart => reads_of_part hpart) h
  refine ⟨?_, ?_, hparts⟩
  · rintro rfl
    simp at hlen
    omega
  · have hcount : parts.length = n.natAbs := by omega
    rwa [hcount]

end Decoded

section Bodies

variable {py : Interpreter} {line x rest : Bytes}

/-- A payload of a known length, with its terminator. -/
def bodyDecoder (offset : Nat) (length : Int) : Decoder UInt8 Exc Bytes :=
  (Decoder.take (length.toNat + crlf.length)).andThen fun body _ =>
    Decoder.ofExcept (payload offset length body)

theorem partDecoder_of_line (h : lineDecoder Exc x = .done line rest)
    (offset : Nat) :
    partDecoder py offset x =
      match bulkLength py offset line with
      | .error e => .fail e
      | .ok n => bodyDecoder offset n rest := by
  simp only [partDecoder, Decoder.andThen, h]
  cases bulkLength py offset line <;> rfl

theorem recordDecoder_of_line (h : lineDecoder Exc x = .done line rest)
    (offset : Nat) :
    recordDecoder py offset x =
      match multibulkLength py offset line with
      | .error e => .fail e
      | .ok n => Decoder.times (partDecoder py) n.toNat
          (offset + (x.length - rest.length)) rest := by
  simp only [recordDecoder, Decoder.andThen, h]
  cases multibulkLength py offset line <;> rfl

theorem bodyDecoder_more {n : Nat} (h : x.length < n + 2) (offset : Nat) :
    bodyDecoder offset n x = .more := by
  simp [bodyDecoder, Decoder.andThen, Decoder.take, crlf, h]

theorem bodyDecoder_of_room {n : Nat} (h : n + 2 ≤ x.length)
    (offset : Nat) :
    bodyDecoder offset n x =
      if (x.drop n).take 2 = crlf then .done (x.take n) (x.drop (n + 2))
      else .fail (.corrupt offset "bulk string is not terminated") := by
  have hroom : ¬ x.length < n + crlf.length := by
    simp only [crlf, List.length_cons, List.length_nil]
    omega
  have hend : (x.take (n + crlf.length)).drop n = (x.drop n).take 2 := by
    rw [List.drop_take, Nat.add_sub_cancel_left]
    rfl
  have hbody : (x.take (n + crlf.length)).take n = x.take n := by
    rw [List.take_take, Nat.min_eq_left (Nat.le_add_right _ _)]
  simp only [bodyDecoder, Decoder.andThen, Decoder.take, Int.toNat_natCast,
    if_neg hroom, payload, hend, hbody]
  by_cases hcrlf : (x.drop n).take 2 = crlf
  · simp only [hcrlf, ne_eq, not_true_eq_false, if_false, if_true]
    rfl
  · simp only [hcrlf, ne_eq, not_false_eq_true, if_true, if_false]
    rfl

end Bodies

section Reading

variable {py : Interpreter} {data : Bytes}

/-- What a reader that works with positions answers, from the verdict of a
decoder on the data behind its position. -/
def answer {α : Type} (data : Bytes) :
    Decoded UInt8 Exc α → Except Exc (Option (α × Nat))
  | .done a rest => .ok (some (a, data.length - rest.length))
  | .more => .ok none
  | .fail e => .error e

theorem readLine_none {cursor : Nat}
    (h : Resp.findCrlf (data.drop cursor) = none) :
    readLine data cursor = (none, cursor) := by
  simp only [readLine, h]

theorem readLine_some {cursor i : Nat}
    (h : Resp.findCrlf (data.drop cursor) = some i) :
    readLine data cursor =
      (some ((data.drop cursor).take i), cursor + i + 2) := by
  simp only [readLine, h]
  rfl

theorem readPart_eq (data : Bytes) (cursor : Nat) :
    readPart py data cursor =
      answer data (partDecoder py cursor (data.drop cursor)) := by
  cases hfind : Resp.findCrlf (data.drop cursor) with
  | none =>
      simp only [readPart, readLine_none hfind, partDecoder,
        Decoder.andThen, lineDecoder, hfind, answer]
  | some i =>
      have hle := findCrlf_le hfind
      rw [List.length_drop] at hle
      simp only [readPart, readLine_some hfind, partDecoder,
        Decoder.andThen, lineDecoder, hfind, bulkLength]
      split_ifs with hhead
      · rfl
      cases hcount : count py ((data.drop cursor).take i).tail cursor
          "invalid bulk length" with
      | error e =>
          rfl
      | ok length =>
          simp only [bind, Except.bind]
          by_cases hsign : length < 0
          · simp only [if_pos hsign]
            rfl
          simp only [if_neg hsign, Decoder.ofExcept, Decoder.take,
            List.drop_drop, List.length_drop]
          have hcrlf : crlf.length = 2 := rfl
          by_cases hroom :
              data.length < cursor + i + 2 + length.toNat + crlf.length
          · have hroom' : data.length - (cursor + (i + 2)) <
                length.toNat + crlf.length := by
              omega
            simp only [if_pos hroom, if_pos hroom', answer]
          · have hroom' : ¬ data.length - (cursor + (i + 2)) <
                length.toNat + crlf.length := by
              omega
            have hbody : ((data.drop (cursor + (i + 2))).take
                (length.toNat + crlf.length)).drop length.toNat =
                (data.drop (cursor + i + 2 + length.toNat)).take
                  crlf.length := by
              rw [List.drop_take, List.drop_drop]
              congr 2
              omega
            have hpart : ((data.drop (cursor + (i + 2))).take
                (length.toNat + crlf.length)).take length.toNat =
                (data.drop (cursor + i + 2)).take length.toNat := by
              rw [List.take_take, Nat.min_eq_left (by omega)]
              rfl
            simp only [if_neg hroom, if_neg hroom', payload, hbody, hpart]
            split_ifs with hterminated
            · rfl
            · simp only [answer, List.length_drop]
              congr 3
              omega

theorem readParts_eq (data : Bytes) :
    ∀ (n cursor : Nat) (parts : List Bytes), cursor ≤ data.length →
      readParts py data n cursor parts =
        match Decoder.times (partDecoder py) n cursor (data.drop cursor) with
        | .done l rest => .ok (some (parts ++ l, data.length - rest.length))
        | .more => .ok none
        | .fail e => .error e
  | 0, cursor, parts, hcursor => by
      simp only [readParts, Decoder.times, List.append_nil,
        List.length_drop]
      congr 3
      omega
  | n + 1, cursor, parts, hcursor => by
      simp only [readParts, readPart_eq, Decoder.times, Decoder.andThen]
      cases hpart : partDecoder py cursor (data.drop cursor) with
      | more =>
          rfl
      | fail e =>
          rfl
      | done part rest =>
          obtain ⟨c, hc, -⟩ := (incremental_part cursor).done_local hpart
          have hlen := congrArg List.length hc
          rw [List.length_drop, List.length_append] at hlen
          have hrest : data.drop (data.length - rest.length) = rest := by
            have hat : data.length - rest.length = cursor + c.length := by
              omega
            rw [hat, ← List.drop_drop, hc, List.drop_left]
          have hused : cursor + ((data.drop cursor).length - rest.length) =
              data.length - rest.length := by
            rw [List.length_drop]
            omega
          have ih := readParts_eq data n
            (data.length - rest.length) (parts ++ [part]) (by omega)
          simp only [answer, bind, Except.bind, ih, hrest, hused]
          cases Decoder.times (partDecoder py) n
            (data.length - rest.length) rest with
          | more =>
              rfl
          | fail e =>
              rfl
          | done l rest' =>
              simp

theorem readRecord_eq (data : Bytes) (offset : Nat) :
    readRecord py data offset =
      match recordDecoder py offset (data.drop offset) with
      | .done parts rest => .ok (some parts, data.length - rest.length)
      | .more => .ok (none, offset)
      | .fail e => .error e := by
  cases hfind : Resp.findCrlf (data.drop offset) with
  | none =>
      simp only [readRecord, readLine_none hfind, recordDecoder,
        Decoder.andThen, lineDecoder, hfind]
  | some i =>
      have hle := findCrlf_le hfind
      rw [List.length_drop] at hle
      simp only [readRecord, readLine_some hfind, recordDecoder,
        Decoder.andThen, lineDecoder, hfind, multibulkLength]
      split_ifs with hhead
      · rfl
      cases hcount : count py ((data.drop offset).take i).tail offset
          "invalid multibulk length" with
      | error e =>
          rfl
      | ok n =>
          simp only [bind, Except.bind]
          split_ifs with hsign
          · rfl
          have hused : offset + ((data.drop offset).length -
              (data.drop (offset + i + 2)).length) = offset + i + 2 := by
            rw [List.length_drop, List.length_drop]
            omega
          have hrest : (data.drop offset).drop (i + 2) =
              data.drop (offset + i + 2) := by
            rw [List.drop_drop]
            rfl
          simp only [Decoder.ofExcept, hused, hrest,
            readParts_eq data n.toNat (offset + i + 2) [] (by omega)]
          cases Decoder.times (partDecoder py) n.toNat (offset + i + 2)
            (data.drop (offset + i + 2)) with
          | more =>
              rfl
          | fail e =>
              rfl
          | done l rest =>
              rfl

/-- A record as the scanner reports it. -/
def toRecord (item : Nat × List Bytes) : Record :=
  ⟨item.1, item.2⟩

/-- One record read at an offset: where the next one starts. -/
theorem readRecord_of_done {offset : Nat} {x rest : Bytes}
    {parts : List Bytes} (hx : x = data.drop offset)
    (hoffset : offset ≤ data.length)
    (h : recordDecoder py offset x = .done parts rest) :
    offset < data.length ∧ rest.length < x.length ∧
      offset + (x.length - rest.length) = data.length - rest.length ∧
      rest = data.drop (data.length - rest.length) ∧
      readRecord py data offset =
        .ok (some parts, data.length - rest.length) := by
  have hless := productive_record offset h
  obtain ⟨c, hc, -⟩ := (incremental_record offset).done_local h
  have hlen := congrArg List.length hx
  have hlenc := congrArg List.length hc
  rw [List.length_drop] at hlen
  rw [List.length_append] at hlenc
  have hat : data.length - rest.length = offset + c.length := by omega
  refine ⟨by omega, hless, by omega, ?_, ?_⟩
  · rw [hat, ← List.drop_drop, ← hx, hc, List.drop_left]
  · rw [readRecord_eq, ← hx, h]

theorem scanFrom_of_scans {offset : Nat} {x tail : Bytes}
    {items : List (Nat × List Bytes)}
    (h : Decoder.Scans (recordDecoder py) offset x items tail) :
    ∀ (passes : Nat) (records : List Record), x = data.drop offset →
      offset ≤ data.length → x.length < passes →
      scanFrom py data passes offset records =
        .ok ⟨records ++ items.map toRecord, data.length - tail.length,
          tail.length⟩ := by
  induction h with
  | nil offset =>
      intro passes records hx hoffset hpasses
      obtain ⟨passes, rfl⟩ := Nat.exists_eq_succ_of_ne_zero
        (Nat.ne_of_gt hpasses)
      have hlen := congrArg List.length hx
      rw [List.length_drop, List.length_nil] at hlen
      have hend : ¬ offset < data.length := by omega
      have hat : offset = data.length := by omega
      simp [scanFrom, hat]
  | @torn offset x hne hmore =>
      intro passes records hx hoffset hpasses
      obtain ⟨passes, rfl⟩ := Nat.exists_eq_succ_of_ne_zero
        (Nat.ne_of_gt (Nat.zero_lt_of_lt hpasses))
      have hpos := List.length_pos_of_ne_nil hne
      have hlen := congrArg List.length hx
      rw [List.length_drop] at hlen
      have hgo : offset < data.length := by omega
      have hread : readRecord py data offset = .ok (none, offset) := by
        rw [readRecord_eq, ← hx, hmore]
      simp only [scanFrom, if_pos hgo, hread, bind, Except.bind,
        List.map_nil, List.append_nil]
      congr 2 <;> omega
  | @step offset x rest tail parts items hne hdone next ih =>
      intro passes records hx hoffset hpasses
      obtain ⟨passes, rfl⟩ := Nat.exists_eq_succ_of_ne_zero
        (Nat.ne_of_gt (Nat.zero_lt_of_lt hpasses))
      obtain ⟨hgo, hless, hnext, hrest, hread⟩ :=
        readRecord_of_done hx hoffset hdone
      rw [hnext] at ih
      have hih := ih passes (records ++ [(⟨offset, parts⟩ : Record)]) hrest
        (by omega) (by omega)
      simp only [scanFrom, if_pos hgo, hread, bind, Except.bind]
      rw [hih]
      simp [toRecord]

theorem scanFrom_of_fails {offset : Nat} {x : Bytes} {e : Exc}
    (h : Decoder.Fails (recordDecoder py) offset x e) :
    ∀ (passes : Nat) (records : List Record), x = data.drop offset →
      offset ≤ data.length → x.length < passes →
      scanFrom py data passes offset records = .error e := by
  induction h with
  | @here offset x e hne hfail =>
      intro passes records hx hoffset hpasses
      obtain ⟨passes, rfl⟩ := Nat.exists_eq_succ_of_ne_zero
        (Nat.ne_of_gt (Nat.zero_lt_of_lt hpasses))
      have hpos := List.length_pos_of_ne_nil hne
      have hlen := congrArg List.length hx
      rw [List.length_drop] at hlen
      have hgo : offset < data.length := by omega
      have hread : readRecord py data offset = .error e := by
        rw [readRecord_eq, ← hx, hfail]
      simp only [scanFrom, if_pos hgo, hread, bind, Except.bind]
  | @step offset x rest parts e hne hdone next ih =>
      intro passes records hx hoffset hpasses
      obtain ⟨passes, rfl⟩ := Nat.exists_eq_succ_of_ne_zero
        (Nat.ne_of_gt (Nat.zero_lt_of_lt hpasses))
      obtain ⟨hgo, hless, hnext, hrest, hread⟩ :=
        readRecord_of_done hx hoffset hdone
      rw [hnext] at ih
      simp only [scanFrom, if_pos hgo, hread, bind, Except.bind]
      exact ih passes _ hrest (by omega) (by omega)

/-- The scanner repeats the record decoder until the log ends or is torn. -/
theorem scan_of_scans {items : List (Nat × List Bytes)} {tail : Bytes}
    (h : Decoder.Scans (recordDecoder py) 0 data items tail) :
    scan py data =
      .ok ⟨items.map toRecord, data.length - tail.length, tail.length⟩ := by
  have := scanFrom_of_scans h (data.length + 1) []
    (@List.drop_zero _ data).symm (Nat.zero_le _) (Nat.lt_succ_self _)
  simpa [scan] using this

theorem scan_of_fails {e : Exc}
    (h : Decoder.Fails (recordDecoder py) 0 data e) :
    scan py data = .error e :=
  scanFrom_of_fails h (data.length + 1) []
    (@List.drop_zero _ data).symm (Nat.zero_le _) (Nat.lt_succ_self _)

/-- Whatever a log holds, its scan is one of these two. -/
theorem scans_or_fails (py : Interpreter) (data : Bytes) :
    (∃ items tail, Decoder.Scans (recordDecoder py) 0 data items tail) ∨
      ∃ e, Decoder.Fails (recordDecoder py) 0 data e :=
  Decoder.scans_or_fails productive_record data.length 0 data le_rfl

end Reading

end Aof
end PyRedis
