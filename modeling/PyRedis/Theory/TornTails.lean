import PyRedis.Foundation.CodeWords
import PyRedis.Theory.DamagedRecords

/-!
# Which tails are torn records

A scan that stops before the end calls what is left a torn write.  The grammar
of records says what a torn record looks like: a header cut off in its number
or between the bytes of its CRLF, some whole bulk strings, and a bulk string
cut off in its header, its payload or its CRLF.  What is left can become a
record exactly when it has that form; but it is called torn whenever no CRLF
was found, whatever stands there instead of a header.
-/

namespace PyRedis

open Foundation

namespace Aof

section Grammar

variable (py : Interpreter)

/-- A header line with a number of at least `least` in it. -/
def Header (kind : UInt8) (least : Nat) (c : Bytes) (n : Nat) : Prop :=
  ∃ raw, c = kind :: raw ++ crlf ∧ py.int raw = some (n : Int) ∧ least ≤ n

/-- A text that some digits can still make a number of at least `least`, which
is zero or one: a minus sign is good for zero only. -/
def NumberBegins (least : Nat) (raw : Bytes) : Prop :=
  (Decimal.splitSign raw).2.all Decimal.isDigit = true ∧
  ((Decimal.splitSign raw).1 = true →
    least = 0 ∧ Decimal.digitsValue (Decimal.splitSign raw).2 = 0) ∧
  py.Converts
    (if Decimal.digitsValue (Decimal.splitSign raw).2 < least then
      (Decimal.splitSign raw).2.length + 1
    else (Decimal.splitSign raw).2.length)

/-- A header line that is cut off. -/
inductive TornHeader (kind : UInt8) (least : Nat) : Bytes → Prop
  | nothing : TornHeader kind least []
  | number (raw : Bytes) (h : NumberBegins py least raw) :
      TornHeader kind least (kind :: raw)
  | cr (raw : Bytes) (n : Nat) (h : py.int raw = some (n : Int))
      (hleast : least ≤ n) : TornHeader kind least (kind :: raw ++ [cr])

/-- A whole bulk string. -/
inductive WholeBulk : Bytes → Prop
  | whole (head body : Bytes) (h : Header py 36 0 head body.length) :
      WholeBulk (head ++ (body ++ crlf))

/-- A bulk string that is cut off. -/
inductive TornBulk : Bytes → Prop
  | header (x : Bytes) (h : TornHeader py 36 0 x) : TornBulk x
  | payload (head body : Bytes) (n : Nat) (h : Header py 36 0 head n)
      (hbody : body.length ≤ n) : TornBulk (head ++ body)
  | cr (head body : Bytes) (h : Header py 36 0 head body.length) :
      TornBulk (head ++ (body ++ [cr]))

/-- A whole record: as many bulk strings as its header says. -/
inductive WholeRecord : Bytes → Prop
  | whole (head : Bytes) (bulks : List Bytes)
      (h : Header py 42 1 head bulks.length)
      (hbulks : ∀ b ∈ bulks, WholeBulk py b) :
      WholeRecord (head ++ bulks.flatten)

/-- A record that is cut off. -/
inductive TornRecord : Bytes → Prop
  | header (x : Bytes) (h : TornHeader py 42 1 x) : TornRecord x
  | parts (head rest : Bytes) (n : Nat) (bulks : List Bytes)
      (h : Header py 42 1 head n) (hcount : bulks.length < n)
      (hbulks : ∀ b ∈ bulks, WholeBulk py b) (hrest : TornBulk py rest) :
      TornRecord (head ++ (bulks.flatten ++ rest))

/-- A log that a crash cut off: whole records, and a torn one. -/
inductive TornLog : Bytes → Prop
  | torn (records : List Bytes) (tail : Bytes)
      (hrecords : ∀ c ∈ records, WholeRecord py c)
      (htail : TornRecord py tail) : TornLog (records.flatten ++ tail)

end Grammar

variable {py : Interpreter} {x : Bytes}

section Numbers

theorem splitSign_append {raw : Bytes} (h : raw ≠ []) (more : Bytes) :
    Decimal.splitSign (raw ++ more) =
      ((Decimal.splitSign raw).1, (Decimal.splitSign raw).2 ++ more) := by
  cases raw with
  | nil =>
      exact absurd rfl h
  | cons b raw =>
      simp only [List.cons_append, Decimal.splitSign]
      split_ifs <;> rfl

theorem numberBegins_nil {least : Nat} : NumberBegins py least [] := by
  refine ⟨rfl, by simp [Decimal.splitSign], ?_⟩
  refine py.converts_of_le_640 ?_
  split_ifs <;> simp [Decimal.splitSign]

/-- Digits behind a sign that is good for zero only are read as they are. -/
theorem int_of_digits {raw digits : Bytes} {negative : Bool}
    (hraw : Decimal.splitSign raw = (negative, digits))
    (hdigits : digits.all Decimal.isDigit = true) (hne : digits ≠ [])
    (hconverts : py.Converts digits.length)
    (hzero : negative = true → Decimal.digitsValue digits = 0) :
    py.int raw = some (Decimal.digitsValue digits : Int) := by
  refine int_eq_some_iff.mpr ⟨?_, ?_, ?_⟩
  · rw [hraw]
    simp [isDigits, hne, hdigits]
  · rw [hraw]
    exact hconverts
  · rw [Decimal.signedValue, hraw]
    cases negative with
    | false =>
        rfl
    | true =>
        simp [hzero rfl]

/-- A text can become a number exactly when more text makes it one. -/
theorem numberBegins_iff {least : Nat} (hleast : least ≤ 1) {raw : Bytes} :
    NumberBegins py least raw ↔
      ∃ more, ∃ n : Nat, py.int (raw ++ more) = some (n : Int) ∧
        least ≤ n := by
  by_cases hraw : raw = []
  · subst hraw
    refine ⟨fun _ => ⟨ascii "1", 1, ?_, hleast⟩, fun _ => numberBegins_nil⟩
    exact @int_of_digits py _ (ascii "1") _ rfl (by decide) (by decide)
      (py.converts_of_le_640 (by decide)) (by simp)
  unfold NumberBegins
  generalize hneg : (Decimal.splitSign raw).1 = negative
  generalize hd : (Decimal.splitSign raw).2 = digits
  have hsplit : ∀ more, Decimal.splitSign (raw ++ more) =
      (negative, digits ++ more) := by
    intro more
    rw [splitSign_append hraw, hneg, hd]
  constructor
  · rintro ⟨hdigits, hsign, hconverts⟩
    split_ifs at hconverts with hlow
    · -- one more digit makes it positive
      have hpositive : negative = false := by
        cases negative with
        | false =>
            rfl
        | true =>
            have := (hsign rfl).1
            omega
      have hvalue : Decimal.digitsValue (digits ++ ascii "1") = 1 := by
        have hzero : Decimal.digitsValue digits = 0 := by omega
        rw [Decimal.digitsValue_append, hzero]
        rfl
      refine ⟨ascii "1", 1, ?_, hleast⟩
      have hall : (digits ++ ascii "1").all Decimal.isDigit = true := by
        rw [List.all_append, hdigits]
        rfl
      have hlength : (digits ++ ascii "1").length = digits.length + 1 := by
        rw [List.length_append]
        rfl
      have hread := int_of_digits (hsplit (ascii "1")) hall (by simp [ascii])
        (by rwa [hlength]) (by simp [hpositive])
      rwa [hvalue] at hread
    · by_cases hne : digits = []
      · -- a minus sign alone
        subst hne
        refine ⟨ascii "0", 0, ?_, by simpa [Decimal.digitsValue] using hlow⟩
        exact @int_of_digits py _ (ascii "0") _ (hsplit (ascii "0"))
          (by decide) (by decide) (py.converts_of_le_640 (by decide))
          fun _ => rfl
      · refine ⟨[], Decimal.digitsValue digits, ?_, not_lt.mp hlow⟩
        have hself := hsplit []
        rw [List.append_nil digits] at hself
        exact int_of_digits hself hdigits hne hconverts
          fun h => (hsign h).2
  · rintro ⟨more, n, hint, hn⟩
    obtain ⟨hdigits, hconverts, hvalue⟩ := int_eq_some_iff.mp hint
    rw [Decimal.signedValue, hsplit] at hvalue
    rw [hsplit] at hdigits hconverts
    simp only [isDigits, List.all_append, Bool.and_eq_true] at hdigits
    simp only [Decimal.digitsValue_append] at hvalue
    refine ⟨hdigits.2.1, ?_, ?_⟩
    · rintro rfl
      rw [if_pos rfl] at hvalue
      have hzero : Decimal.digitsValue digits * 10 ^ more.length = 0 := by
        omega
      refine ⟨by omega, ?_⟩
      exact (Nat.mul_eq_zero.mp hzero).resolve_right (by positivity)
    · refine py.converts_of_le hconverts ?_
      rw [List.length_append]
      split_ifs with hlow
      · cases more with
        | nil =>
            have hnil : Decimal.digitsValue [] = 0 := rfl
            rw [List.length_nil, pow_zero, mul_one, hnil] at hvalue
            split_ifs at hvalue <;> omega
        | cons b more =>
            rw [List.length_cons]
            omega
      · exact Nat.le_add_right _ _

end Numbers

section Lines

variable {kind : UInt8} {least : Nat}

theorem eq_line_of_encodes {c line : Bytes}
    (h : Decoder.Encodes (lineDecoder Exc) c line) : c = line ++ crlf := by
  obtain ⟨i, hi, hline, hrest⟩ := lineDecoder_done h.self
  have hlen := findCrlf_le hi
  have hdrop := congrArg List.length hrest
  rw [List.length_drop, List.length_nil] at hdrop
  obtain ⟨hcr, hlf⟩ := findCrlf_eq_some hi
  have hend : c.drop i = crlf := by
    refine List.ext_getElem? fun j => ?_
    rw [List.getElem?_drop]
    rcases j with _ | _ | j
    · exact hcr
    · exact hlf
    · rw [List.getElem?_eq_none (by omega)]
      rfl
  rw [hline, ← hend, List.take_append_drop]

/-- A header is a line with its number. -/
theorem header_iff (hkind : kind ≠ cr) {c : Bytes} {n : Nat} :
    Header py kind least c n ↔
      ∃ raw, Decoder.Encodes (lineDecoder Exc) c (kind :: raw) ∧
        py.int raw = some (n : Int) ∧ least ≤ n := by
  constructor
  · rintro ⟨raw, rfl, hraw, hn⟩
    refine ⟨raw, encodes_line ?_, hraw, hn⟩
    intro hmem
    rcases List.mem_cons.mp hmem with hcr | hmem
    · exact hkind hcr.symm
    · exact cr_not_mem_of_int hraw hmem
  · rintro ⟨raw, hline, hraw, hn⟩
    exact ⟨raw, eq_line_of_encodes hline, hraw, hn⟩

/-- What can still become a header is a header that is cut off. -/
theorem tornHeader_iff (hleast : least ≤ 1) :
    TornHeader py kind least x ↔
      ∃ s n, s ≠ [] ∧ Header py kind least (x ++ s) n := by
  constructor
  · intro h
    cases h with
    | nothing =>
        obtain ⟨more, n, hint, hn⟩ :=
          (numberBegins_iff hleast).mp numberBegins_nil
        exact ⟨kind :: more ++ crlf, n, by simp, more, rfl, hint, hn⟩
    | number raw h =>
        obtain ⟨more, n, hint, hn⟩ := (numberBegins_iff hleast).mp h
        exact ⟨more ++ crlf, n, by simp [crlf], raw ++ more, by simp, hint, hn⟩
    | cr raw n h hn =>
        exact ⟨[lf], n, by simp, raw, by simp [crlf], h, hn⟩
  · rintro ⟨s, n, hs, raw, hx, hint, hn⟩
    rcases List.append_eq_append_iff.mp hx with ⟨t, hraw, rfl⟩ | ⟨t, rfl, ht⟩
    · cases x with
      | nil =>
          exact TornHeader.nothing
      | cons b x =>
          cases hraw
          exact TornHeader.number x
            ((numberBegins_iff hleast).mpr ⟨t, n, hint, hn⟩)
    · cases t with
      | nil =>
          rw [List.append_nil]
          exact TornHeader.number raw ((numberBegins_iff hleast).mpr
            ⟨[], n, by rwa [List.append_nil], hn⟩)
      | cons b t =>
          obtain ⟨rfl, hlf⟩ : cr = b ∧ [lf] = t ++ s := by
            simpa [crlf] using ht
          cases t with
          | nil =>
              exact TornHeader.cr raw n hint hn
          | cons c t =>
              have hnil := (List.cons_eq_cons.mp hlf).2
              exact absurd (List.append_eq_nil_iff.mp hnil.symm).2 hs

end Lines

section Words

variable {α : Type} {kind : UInt8} {least : Nat}
variable {sized : Bytes → Except Exc Int}
variable {rest : Int → Nat → Decoder UInt8 Exc α}

/-- A header line, and what its number asks for. -/
def headed (sized : Bytes → Except Exc Int)
    (rest : Int → Nat → Decoder UInt8 Exc α) : Decoder UInt8 Exc α :=
  (lineDecoder Exc).andThen fun line used =>
    (Decoder.ofExcept (sized line)).andThen fun n _ => rest n used

/-- `sized` accepts the lines of headers and answers their numbers. -/
def Sizes (py : Interpreter) (kind : UInt8) (least : Nat)
    (sized : Bytes → Except Exc Int) : Prop :=
  ∀ line m, sized line = .ok m ↔ ∃ raw, ∃ n : Nat, line = kind :: raw ∧
    py.int raw = some (n : Int) ∧ least ≤ n ∧ m = n

theorem encodes_headed_iff (hkind : kind ≠ cr)
    (hsized : Sizes py kind least sized)
    (hrest : ∀ n used, Decoder.Incremental (rest n used)) {a : α} :
    Decoder.Encodes (headed sized rest) x a ↔
      ∃ head n y, x = head ++ y ∧ Header py kind least head n ∧
        Decoder.Encodes (rest n head.length) y a := by
  have hbody : ∀ line used, Decoder.Incremental
      ((Decoder.ofExcept (sized line)).andThen fun n _ => rest n used) :=
    fun line used => Decoder.incremental_andThen
      (Decoder.incremental_ofExcept _) fun n _ => hrest n used
  refine (Decoder.encodes_andThen_iff incremental_line hbody).trans ?_
  simp only [Decoder.encodes_ofExcept_andThen_iff]
  constructor
  · rintro ⟨head, y, line, rfl, hline, m, hm, hy⟩
    obtain ⟨raw, n, rfl, hint, hn, rfl⟩ := (hsized line m).mp hm
    exact ⟨head, n, y, rfl, (header_iff hkind).mpr ⟨raw, hline, hint, hn⟩,
      hy⟩
  · rintro ⟨head, n, y, rfl, hhead, hy⟩
    obtain ⟨raw, hline, hint, hn⟩ := (header_iff hkind).mp hhead
    exact ⟨head, y, kind :: raw, rfl, hline, n,
      (hsized _ _).mpr ⟨raw, n, rfl, hint, hn, rfl⟩, hy⟩

theorem begins_headed_iff (hkind : kind ≠ cr) (hleast : least ≤ 1)
    (hsized : Sizes py kind least sized)
    (hrest : ∀ n used, Decoder.Incremental (rest n used))
    (hword : ∀ (n : Nat) used, ∃ y a, Decoder.Encodes (rest n used) y a) :
    Decoder.Begins (headed sized rest) x ↔
      TornHeader py kind least x ∨
        ∃ head n y, x = head ++ y ∧ Header py kind least head n ∧
          Decoder.Begins (rest n head.length) y := by
  have hbody : ∀ line used, Decoder.Incremental
      ((Decoder.ofExcept (sized line)).andThen fun n _ => rest n used) :=
    fun line used => Decoder.incremental_andThen
      (Decoder.incremental_ofExcept _) fun n _ => hrest n used
  rw [tornHeader_iff hleast]
  refine (Decoder.begins_andThen_iff incremental_line hbody).trans ?_
  simp only [Decoder.begins_ofExcept_andThen_iff,
    Decoder.encodes_ofExcept_andThen_iff]
  constructor
  · rintro (⟨head, y, line, rfl, hline, m, hm, hy⟩ |
      ⟨s, y, line, a, hs, hline, m, hm, -⟩)
    · obtain ⟨raw, n, rfl, hint, hn, rfl⟩ := (hsized line m).mp hm
      exact Or.inr ⟨head, n, y, rfl,
        (header_iff hkind).mpr ⟨raw, hline, hint, hn⟩, hy⟩
    · obtain ⟨raw, n, rfl, hint, hn, rfl⟩ := (hsized line m).mp hm
      exact Or.inl ⟨s, n, hs, (header_iff hkind).mpr ⟨raw, hline, hint, hn⟩⟩
  · rintro (⟨s, n, hs, hhead⟩ | ⟨head, n, y, rfl, hhead, hy⟩)
    · obtain ⟨raw, hline, hint, hn⟩ := (header_iff hkind).mp hhead
      obtain ⟨y, a, hy⟩ := hword n (x ++ s).length
      exact Or.inr ⟨s, y, kind :: raw, a, hs, hline, n,
        (hsized _ _).mpr ⟨raw, n, rfl, hint, hn, rfl⟩, hy⟩
    · obtain ⟨raw, hline, hint, hn⟩ := (header_iff hkind).mp hhead
      exact Or.inl ⟨head, y, kind :: raw, rfl, hline, n,
        (hsized _ _).mpr ⟨raw, n, rfl, hint, hn, rfl⟩, hy⟩

theorem sizes_bulkLength (offset : Nat) :
    Sizes py 36 0 (bulkLength py offset) := by
  intro line m
  rw [bulkLength_eq, headerNumber_eq_ok_iff]
  constructor
  · rintro ⟨raw, rfl, hint, hlow⟩
    obtain ⟨n, rfl⟩ := Int.eq_ofNat_of_zero_le (not_lt.mp hlow)
    exact ⟨raw, n, rfl, hint, n.zero_le, rfl⟩
  · rintro ⟨raw, n, rfl, hint, -, rfl⟩
    exact ⟨raw, rfl, hint, by omega⟩

theorem sizes_multibulkLength (offset : Nat) :
    Sizes py 42 1 (multibulkLength py offset) := by
  intro line m
  rw [multibulkLength_eq, headerNumber_eq_ok_iff]
  constructor
  · rintro ⟨raw, rfl, hint, hlow⟩
    obtain ⟨n, rfl⟩ := Int.eq_ofNat_of_zero_le (not_le.mp hlow).le
    exact ⟨raw, n, rfl, hint, by omega, rfl⟩
  · rintro ⟨raw, n, rfl, hint, hn, rfl⟩
    exact ⟨raw, rfl, hint, by omega⟩

end Words

section Records

theorem incremental_body (offset : Nat) (n : Int) :
    Decoder.Incremental (bodyDecoder offset n) :=
  Decoder.incremental_andThen (Decoder.incremental_take _) fun _ _ =>
    Decoder.incremental_ofExcept _

/-- The payload of a bulk string and its CRLF. -/
theorem encodes_body_iff {offset n : Nat} {body : Bytes} :
    Decoder.Encodes (bodyDecoder offset n) x body ↔
      x = body ++ crlf ∧ body.length = n := by
  constructor
  · intro h
    have hself := h.self
    by_cases hroom : n + 2 ≤ x.length
    · rw [bodyDecoder_of_room hroom] at hself
      split_ifs at hself with hend
      injection hself with hbody hrest
      have hlen : body.length = n := by
        rw [← hbody, List.length_take]
        omega
      refine ⟨?_, hlen⟩
      have hsplit : x.take n ++ ((x.drop n).take 2 ++ x.drop (n + 2)) = x := by
        rw [← List.drop_drop, List.take_append_drop, List.take_append_drop]
      rw [← hsplit, hbody, hend, hrest, List.append_nil]
    · rw [bodyDecoder_more (by omega)] at hself
      cases hself
  · rintro ⟨rfl, rfl⟩ y
    rw [List.append_assoc]
    exact (bodyDecoder_append rfl (by rfl) offset y).trans (if_pos rfl)

theorem begins_body_iff {offset n : Nat} :
    Decoder.Begins (bodyDecoder offset n) x ↔
      x.length ≤ n ∨ ∃ body : Bytes, body.length = n ∧ x = body ++ [cr] := by
  unfold Decoder.Begins
  simp only [encodes_body_iff]
  constructor
  · rintro ⟨q, body, hq, hx, hlen⟩
    rcases List.append_eq_append_iff.mp hx with ⟨t, rfl, -⟩ | ⟨t, rfl, ht⟩
    · rw [List.length_append] at hlen
      exact Or.inl (by omega)
    · cases t with
      | nil =>
          rw [List.append_nil]
          exact Or.inl hlen.le
      | cons b t =>
          obtain ⟨rfl, hlf⟩ : cr = b ∧ [lf] = t ++ q := by
            simpa [crlf] using ht
          cases t with
          | nil =>
              exact Or.inr ⟨body, hlen, rfl⟩
          | cons c t =>
              have hnil := (List.cons_eq_cons.mp hlf).2
              exact absurd (List.append_eq_nil_iff.mp hnil.symm).2 hq
  · rintro (hlen | ⟨body, hlen, rfl⟩)
    · refine ⟨List.replicate (n - x.length) 0 ++ crlf,
        x ++ List.replicate (n - x.length) 0, by simp [crlf], by simp, ?_⟩
      rw [List.length_append, List.length_replicate]
      omega
    · exact ⟨[lf], body, by simp, by simp [crlf], hlen⟩

theorem partDecoder_eq_headed (offset : Nat) :
    partDecoder py offset =
      headed (bulkLength py offset) fun n _ => bodyDecoder offset n :=
  rfl

theorem wholeBulk_iff (offset : Nat) (c : Bytes) :
    WholeBulk py c ↔
      ∃ part, Decoder.Encodes (partDecoder py offset) c part := by
  rw [partDecoder_eq_headed]
  simp only [encodes_headed_iff (show (36 : UInt8) ≠ cr by decide)
    (sizes_bulkLength offset) fun n _ => incremental_body offset n,
    encodes_body_iff]
  constructor
  · rintro ⟨head, body, h⟩
    exact ⟨body, head, body.length, body ++ crlf, rfl, h, rfl, rfl⟩
  · rintro ⟨body, head, n, y, rfl, h, rfl, rfl⟩
    exact WholeBulk.whole head body h

theorem tornBulk_iff (offset : Nat) (x : Bytes) :
    TornBulk py x ↔ Decoder.Begins (partDecoder py offset) x := by
  have hword : ∀ (n used : Nat), ∃ y a,
      Decoder.Encodes (bodyDecoder offset n) y a :=
    fun n _ => ⟨_, List.replicate n 0,
      encodes_body_iff.mpr ⟨rfl, List.length_replicate⟩⟩
  rw [partDecoder_eq_headed, begins_headed_iff (by decide) (by omega)
    (sizes_bulkLength offset) (fun n _ => incremental_body offset n) hword]
  simp only [begins_body_iff]
  constructor
  · intro h
    cases h with
    | header x h =>
        exact Or.inl h
    | payload head body n h hbody =>
        exact Or.inr ⟨head, n, body, rfl, h, Or.inl hbody⟩
    | cr head body h =>
        exact Or.inr ⟨head, body.length, _, rfl, h, Or.inr ⟨body, rfl, rfl⟩⟩
  · rintro (h | ⟨head, n, y, rfl, h, hy | ⟨body, rfl, rfl⟩⟩)
    · exact TornBulk.header x h
    · exact TornBulk.payload head y n h hy
    · exact TornBulk.cr head body h

theorem recordDecoder_eq_headed (offset : Nat) :
    recordDecoder py offset =
      headed (multibulkLength py offset) fun n used =>
        Decoder.times (partDecoder py) n.toNat (offset + used) :=
  rfl

theorem wholeRecord_iff (offset : Nat) (c : Bytes) :
    WholeRecord py c ↔
      ∃ parts, Decoder.Encodes (recordDecoder py offset) c parts := by
  rw [recordDecoder_eq_headed]
  simp only [encodes_headed_iff (show (42 : UInt8) ≠ cr by decide)
    (sizes_multibulkLength offset) fun n used =>
      Decoder.incremental_times incremental_part n.toNat (offset + used)]
  constructor
  · rintro ⟨head, bulks, h, hbulks⟩
    have hrow : ∃ parts, Decoder.Encodes (Decoder.times (partDecoder py)
        bulks.length (offset + head.length)) bulks.flatten parts :=
      (Decoder.encodes_times_iff incremental_part wholeBulk_iff).mpr
        ⟨bulks, rfl, hbulks, rfl⟩
    obtain ⟨parts, hparts⟩ := hrow
    exact ⟨parts, head, bulks.length, _, rfl, h, hparts⟩
  · rintro ⟨parts, head, n, y, rfl, h, hparts⟩
    obtain ⟨bulks, hlen, hbulks, rfl⟩ := (Decoder.encodes_times_iff
      incremental_part wholeBulk_iff).mp ⟨parts, hparts⟩
    rw [Int.toNat_natCast] at hlen
    subst hlen
    exact WholeRecord.whole head bulks h hbulks

theorem tornRecord_iff (offset : Nat) (x : Bytes) :
    TornRecord py x ↔ Decoder.Begins (recordDecoder py offset) x := by
  have hword : ∀ (n used : Nat), ∃ y a, Decoder.Encodes
      (Decoder.times (partDecoder py) (n : Int).toNat (offset + used))
      y a := by
    intro n used
    have hempty : WholeBulk py (Resp.encodeBulkString []) :=
      (wholeBulk_iff 0 _).mpr
        ⟨[], encodes_part (py.reads_of_le_word (Nat.zero_le _)) 0⟩
    have hrow : ∃ a, Decoder.Encodes
        (Decoder.times (partDecoder py) n (offset + used))
        (List.replicate n (Resp.encodeBulkString [])).flatten a :=
      (Decoder.encodes_times_iff incremental_part wholeBulk_iff).mpr
        ⟨List.replicate n (Resp.encodeBulkString []), List.length_replicate,
          fun c hc => by rwa [List.eq_of_mem_replicate hc], rfl⟩
    exact ⟨_, hrow⟩
  rw [recordDecoder_eq_headed, begins_headed_iff (by decide) le_rfl
    (sizes_multibulkLength offset) (fun n used =>
      Decoder.incremental_times incremental_part n.toNat (offset + used))
    hword]
  simp only [Decoder.begins_times_iff incremental_part wholeBulk_iff
    tornBulk_iff]
  constructor
  · intro h
    cases h with
    | header x h =>
        exact Or.inl h
    | parts head rest n bulks h hcount hbulks hrest =>
        exact Or.inr ⟨head, n, _, rfl, h, bulks, rest, hcount, hbulks, hrest,
          rfl⟩
  · rintro (h | ⟨head, n, y, rfl, h, bulks, rest, hcount, hbulks, hrest,
      rfl⟩)
    · exact TornRecord.header x h
    · exact TornRecord.parts head rest n bulks h hcount hbulks hrest

end Records

section Tails

variable {data : Bytes} {records : List Record} {consumed trailing : Nat}

/-- What a scan that returned has decoded. -/
theorem scans_of_scan
    (h : scan py data = .ok ⟨records, consumed, trailing⟩) :
    ∃ items tail, Decoder.Scans (recordDecoder py) 0 data items tail ∧
      records = items.map toRecord ∧ trailing = tail.length := by
  rcases scans_or_fails py data with ⟨items, tail, hscans⟩ | ⟨e, hfails⟩
  · rw [scan_of_scans hscans] at h
    cases h
    exact ⟨items, tail, hscans, rfl, rfl⟩
  · rw [scan_of_fails hfails] at h
    cases h

theorem toRecord_injective : Function.Injective toRecord := by
  rintro ⟨offset, parts⟩ ⟨offset', parts'⟩ h
  cases h
  rfl

/-- **Which tails are torn records.** What a scan leaves over can be completed
to one more record and nothing left over if and only if the log is whole
records and a torn one. -/
theorem completable_iff_tornLog (py : Interpreter) (data : Bytes)
    (records : List Record) (consumed trailing : Nat)
    (hscan : scan py data = .ok ⟨records, consumed, trailing⟩)
    (htrailing : 0 < trailing) :
    (∃ s record, scan py (data ++ s) =
      .ok ⟨records ++ [record], (data ++ s).length, 0⟩) ↔
      TornLog py data := by
  obtain ⟨items, tail, hscans, rfl, rfl⟩ := scans_of_scan hscan
  have hlog : TornLog py data ↔ ∃ (cs : List Bytes) (r : Bytes),
      (∀ c ∈ cs, WholeRecord py c) ∧ TornRecord py r ∧
        data = cs.flatten ++ r := by
    constructor
    · rintro ⟨cs, r, hcs, hr⟩
      exact ⟨cs, r, hcs, hr, rfl⟩
    · rintro ⟨cs, r, hcs, hr, rfl⟩
      exact TornLog.torn cs r hcs hr
  rw [hlog, ← hscans.completed_iff incremental_record productive_record
    wholeRecord_iff tornRecord_iff (List.length_pos_iff.mp htrailing)]
  constructor
  · rintro ⟨s, record, hmore⟩
    obtain ⟨found, rest, hfound, hrecords, hrest⟩ := scans_of_scan hmore
    obtain ⟨first, last, rfl, hfirst, hlast⟩ :=
      List.map_eq_append_iff.mp hrecords.symm
    obtain ⟨item, rfl, -⟩ := List.map_eq_singleton_iff.mp hlast
    rw [List.map_injective_iff.mpr toRecord_injective hfirst,
      List.length_eq_zero_iff.mp hrest.symm] at hfound
    exact ⟨s, item, hfound⟩
  · rintro ⟨s, item, hmore⟩
    refine ⟨s, toRecord item, ?_⟩
    rw [scan_of_scans hmore]
    simp

theorem WholeRecord.head {c : Bytes} (h : WholeRecord py c) :
    c.head? = some 42 := by
  cases h with
  | whole head bulks h hbulks =>
      obtain ⟨raw, rfl, -⟩ := h
      rfl

/-- A byte that begins no record is called a torn write, and nothing behind it
makes it one. -/
theorem junk_is_called_torn :
    scan .default (ascii "X") = .ok ⟨[], 0, 1⟩ ∧
      ¬ ∃ s record, scan .default (ascii "X" ++ s) =
        .ok ⟨[] ++ [record], (ascii "X" ++ s).length, 0⟩ := by
  refine ⟨by decide +kernel, ?_⟩
  rintro ⟨s, record, hscan⟩
  obtain ⟨items, tail, hscans, hrecords, htail⟩ := scans_of_scan hscan
  obtain ⟨item, rfl, -⟩ := List.map_eq_singleton_iff.mp hrecords.symm
  obtain ⟨rest, hdone, hend⟩ := hscans.cons
  rw [hend.eq_tail, List.length_eq_zero_iff.mp htail.symm] at hdone
  have hword := Decoder.encodes_of_done (incremental_record 0) hdone
  have hhead := ((wholeRecord_iff 0 _).mpr ⟨_, hword⟩).head
  exact absurd hhead (by simp [ascii])

/-- The log of a write cut off inside its value. -/
theorem cut_payload_is_torn :
    ∃ s record, scan .default (ascii "*1\r\n$4\r\nPI" ++ s) =
      .ok ⟨[] ++ [record], (ascii "*1\r\n$4\r\nPI" ++ s).length, 0⟩ := by
  refine (completable_iff_tornLog .default (ascii "*1\r\n$4\r\nPI") [] 0 10
    (by decide +kernel) (by decide)).mpr ?_
  have hbulk : TornBulk .default (ascii "$4\r\nPI") :=
    TornBulk.payload (ascii "$4\r\n") (ascii "PI") 4
      ⟨ascii "4", by decide, by decide +kernel, by decide⟩ (by decide)
  have hrecord : TornRecord .default (ascii "*1\r\n$4\r\nPI") :=
    TornRecord.parts (ascii "*1\r\n") _ 1 []
      ⟨ascii "1", by decide, by decide +kernel, by decide⟩ (by decide)
      (by simp) hbulk
  exact TornLog.torn [] _ (by simp) hrecord

end Tails

end Aof
end PyRedis
