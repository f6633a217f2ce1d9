import PyRedis.Foundation.Decimal
import Mathlib.Tactic

/-!
# The Python values the server computes with

Byte strings, ASCII literals, the case and digit tests of `bytes`, the UTF-8
encoding of `str`, and the conversion of decimal text by `int`, which a CPython
interpreter refuses with `ValueError` beyond a configurable number of digits.
-/

namespace PyRedis

open Foundation

abbrev Bytes := List UInt8

/-- A bytes literal. -/
def ascii (s : String) : Bytes :=
  s.toList.map (fun c => UInt8.ofNat c.toNat)

def cr : UInt8 := 13

def lf : UInt8 := 10

def crlf : Bytes := [cr, lf]

/-- `bytes.upper` on one byte: ASCII only. -/
def upperByte (b : UInt8) : UInt8 :=
  if 97 ≤ b.toNat ∧ b.toNat ≤ 122 then UInt8.ofNat (b.toNat - 32) else b

/-- `bytes.upper`. -/
def upper (raw : Bytes) : Bytes :=
  raw.map upperByte

/-- `bytes.isdigit`: not empty, and ASCII digits only. -/
def isDigits (raw : Bytes) : Bool :=
  !raw.isEmpty && raw.all Decimal.isDigit

/-- `str.encode("utf-8", "replace")`; a Lean `Char` is never a surrogate, so
nothing is ever replaced. -/
def utf8 (text : String) : Bytes :=
  text.toList.flatMap String.utf8EncodeChar

/-- `str(n).encode("ascii")`. -/
def str (n : Int) : Bytes :=
  Decimal.intText n

/-- The limit of `int` on the digits it converts, as set by
`sys.set_int_max_str_digits`: either none at all, or at least 640. -/
structure Interpreter where
  intMaxStrDigits : Nat
  valid : intMaxStrDigits = 0 ∨ 640 ≤ intMaxStrDigits

namespace Interpreter

/-- CPython's default setting. -/
def default : Interpreter :=
  ⟨4300, by decide⟩

/-- Conversion of decimal text of any length. -/
def exact : Interpreter :=
  ⟨0, by decide⟩

/-- The interpreter converts a digit string of this length. -/
def Converts (py : Interpreter) (digits : Nat) : Prop :=
  py.intMaxStrDigits = 0 ∨ digits ≤ py.intMaxStrDigits

instance (py : Interpreter) (digits : Nat) : Decidable (py.Converts digits) :=
  inferInstanceAs (Decidable (_ ∨ _))

/-- `int` on a text that is an optional minus sign and ASCII digits; every
caller has checked that form, and the sign does not count as a digit.
`none` stands for `ValueError`. -/
def int (py : Interpreter) (raw : Bytes) : Option Int :=
  if isDigits (Decimal.splitSign raw).2 ∧
      py.Converts (Decimal.splitSign raw).2.length then
    some (Decimal.signedValue raw)
  else none

theorem converts_of_le (py : Interpreter) {m n : Nat}
    (h : py.Converts n) (hmn : m ≤ n) : py.Converts m := by
  rcases h with h | h
  · exact Or.inl h
  · exact Or.inr (le_trans hmn h)

/-- No setting refuses a text of up to 640 digits. -/
theorem converts_of_le_640 (py : Interpreter) {n : Nat} (h : n ≤ 640) :
    py.Converts n := by
  rcases py.valid with h0 | h640
  · exact Or.inl h0
  · exact Or.inr (le_trans h h640)

end Interpreter

theorem isDigits_natText (n : Nat) : isDigits (Decimal.natText n) = true := by
  simp [isDigits, Decimal.natText_ne_nil, Decimal.natText_all_isDigit]

/-- A number whose size the interpreter can read back once written. -/
def Interpreter.Reads (py : Interpreter) (n : Nat) : Prop :=
  py.Converts (Decimal.natText n).length

instance (py : Interpreter) (n : Nat) : Decidable (py.Reads n) :=
  inferInstanceAs (Decidable (py.Converts _))

theorem Interpreter.Reads.mono {py : Interpreter} {m n : Nat}
    (h : py.Reads n) (hmn : m ≤ n) : py.Reads m :=
  py.converts_of_le h (Decimal.natText_length_mono hmn)

/-- What `int` has read it can read again from the canonical text. -/
theorem Interpreter.reads_of_int {py : Interpreter} {raw : Bytes} {n : Int}
    (h : py.int raw = some n) : py.Reads n.natAbs := by
  unfold Interpreter.int at h
  split_ifs at h with hraw
  cases h
  obtain ⟨hdigits, hconverts⟩ := hraw
  simp only [isDigits, Bool.and_eq_true, Bool.not_eq_true',
    List.isEmpty_eq_false_iff, List.all_eq_true] at hdigits
  have habs : (Decimal.signedValue raw).natAbs =
      Decimal.digitsValue (Decimal.splitSign raw).2 := by
    unfold Decimal.signedValue
    split_ifs <;> simp
  unfold Interpreter.Reads
  rw [habs]
  exact py.converts_of_le hconverts
    (Decimal.natText_digitsValue_length_le hdigits.1 hdigits.2)

/-- The length of a number's text is a number that can be read. -/
theorem Interpreter.Reads.length_str {py : Interpreter} {n : Int}
    (h : py.Reads n.natAbs) : py.Reads (str n).length := by
  have hlen : (str n).length ≤ (Decimal.natText n.natAbs).length + 1 :=
    Decimal.intText_length_le n
  rcases h with hfree | hle
  · exact Or.inl hfree
  · have hpos := Decimal.natText_length_pos n.natAbs
    have hlimit : 640 ≤ py.intMaxStrDigits := by
      rcases py.valid with h0 | h640
      · omega
      · exact h640
    have hpow : py.intMaxStrDigits - 1 < 10 ^ (py.intMaxStrDigits - 1) :=
      Nat.lt_pow_self (by norm_num)
    have hstep : 10 ^ py.intMaxStrDigits =
        10 ^ (py.intMaxStrDigits - 1) * 10 := by
      rw [← pow_succ]
      congr 1
      omega
    refine Or.inr (Decimal.natText_length_le (by omega) ?_)
    omega

/-- `int` inverts `str` on every number it can read. -/
theorem int_str (py : Interpreter) {n : Int} (h : py.Reads n.natAbs) :
    py.int (str n) = some n := by
  unfold Interpreter.int str
  rw [Decimal.splitSign_intText, Decimal.signedValue_intText]
  exact if_pos ⟨isDigits_natText _, h⟩

/-- Digits, behind a minus sign or not, that are too many for `int`. -/
def Overlong (py : Interpreter) (raw : Bytes) : Prop :=
  isDigits (Decimal.splitSign raw).2 = true ∧
    ¬ py.Converts (Decimal.splitSign raw).2.length

section Numbers

variable {py : Interpreter} {raw : Bytes}

theorem int_eq_some_iff {n : Int} :
    py.int raw = some n ↔
      isDigits (Decimal.splitSign raw).2 = true ∧
        py.Converts (Decimal.splitSign raw).2.length ∧
        Decimal.signedValue raw = n := by
  unfold Interpreter.int
  split_ifs with h
  · simp [h]
  · simp only [false_iff]
    rintro ⟨hdigits, hconverts, -⟩
    exact h ⟨hdigits, hconverts⟩

theorem int_eq_none_of_overlong (h : Overlong py raw) :
    py.int raw = none := by
  unfold Interpreter.int
  exact if_neg fun hread => h.2 hread.2

theorem not_converts_of_overlong (h : Overlong py raw) :
    ¬ py.Converts raw.length := by
  intro hconverts
  refine h.2 (py.converts_of_le hconverts ?_)
  cases raw with
  | nil =>
      simp [Decimal.splitSign]
  | cons b raw =>
      simp only [Decimal.splitSign]
      split_ifs <;> simp

/-- Digits are a number, or they are too many. -/
theorem int_or_overlong (py : Interpreter)
    (h : isDigits (Decimal.splitSign raw).2 = true) :
    (∃ n, py.int raw = some n) ∨ Overlong py raw := by
  by_cases hconverts : py.Converts (Decimal.splitSign raw).2.length
  · exact Or.inl ⟨_, if_pos ⟨h, hconverts⟩⟩
  · exact Or.inr ⟨h, hconverts⟩

end Numbers

/-- Every length and every 64-bit number can be read. -/
theorem Interpreter.reads_of_le_word (py : Interpreter) {n : Nat}
    (h : n ≤ 2 ^ 63) : py.Reads n := by
  have hlt : n < 10 ^ 19 :=
    calc n ≤ 2 ^ 63 := h
      _ < 10 ^ 19 := by norm_num
  have hlen := Decimal.natText_length_le (by norm_num) hlt
  exact py.converts_of_le_640 (le_trans hlen (by norm_num))

end PyRedis
