import Mathlib.Data.Nat.Digits.Lemmas
import Mathlib.Tactic

/-!
# Decimal numerals as byte strings

The canonical decimal text of a number, the value of an arbitrary digit
string, and the facts that connect the two: a canonical text is made of
digits, reads back as the number, and is short when the number is small.
-/

namespace Foundation
namespace Decimal

/-- The ASCII code of a minus sign. -/
def minus : UInt8 := 45

/-- An ASCII decimal digit. -/
def isDigit (b : UInt8) : Bool :=
  48 ≤ b.toNat && b.toNat ≤ 57

/-- The ASCII code of a digit. -/
def digitByte (d : Nat) : UInt8 :=
  UInt8.ofNat (48 + d)

/-- The canonical decimal text of a natural number. -/
def natText (n : Nat) : List UInt8 :=
  if n = 0 then [48] else (Nat.digits 10 n).reverse.map digitByte

/-- The canonical decimal text of an integer. -/
def intText : Int → List UInt8
  | .ofNat n => natText n
  | .negSucc n => minus :: natText (n + 1)

/-- The value of a digit string, most significant digit first. -/
def digitsValue (ds : List UInt8) : Nat :=
  ds.foldl (fun acc b => 10 * acc + (b.toNat - 48)) 0

/-- A text split into its sign and the rest. -/
def splitSign : List UInt8 → Bool × List UInt8
  | [] => (false, [])
  | b :: l => if b = minus then (true, l) else (false, b :: l)

/-- The value of an optionally signed digit string. -/
def signedValue (raw : List UInt8) : Int :=
  if (splitSign raw).1 then -(digitsValue (splitSign raw).2 : Int)
  else (digitsValue (splitSign raw).2 : Int)

theorem toNat_digitByte {d : Nat} (h : d < 10) :
    (digitByte d).toNat = 48 + d := by
  unfold digitByte
  rw [UInt8.toNat_ofNat']
  omega

theorem isDigit_digitByte {d : Nat} (h : d < 10) :
    isDigit (digitByte d) = true := by
  unfold isDigit
  rw [toNat_digitByte h]
  simp
  omega

theorem isDigit_ne_minus {b : UInt8} (h : isDigit b = true) : b ≠ minus := by
  rintro rfl
  revert h
  decide

theorem natText_isDigit {n : Nat} {b : UInt8} (hb : b ∈ natText n) :
    isDigit b = true := by
  unfold natText at hb
  split_ifs at hb with hn
  · rw [List.mem_singleton] at hb
    rw [hb]
    decide
  · obtain ⟨d, hd, rfl⟩ := List.mem_map.mp hb
    exact isDigit_digitByte
      (Nat.digits_lt_base (by norm_num) (List.mem_reverse.mp hd))

theorem natText_all_isDigit (n : Nat) : (natText n).all isDigit = true := by
  rw [List.all_eq_true]
  exact fun b hb => natText_isDigit hb

theorem natText_ne_nil (n : Nat) : natText n ≠ [] := by
  unfold natText
  split_ifs with hn
  · simp
  · simp [Nat.digits_ne_nil_iff_ne_zero, hn]

theorem natText_length_pos (n : Nat) : 0 < (natText n).length :=
  List.length_pos_of_ne_nil (natText_ne_nil n)

/-- A number below a power of ten has no more digits than the exponent. -/
theorem natText_length_le {n k : Nat} (hk : 0 < k) (h : n < 10 ^ k) :
    (natText n).length ≤ k := by
  unfold natText
  split_ifs with hn
  · exact hk
  · rw [List.length_map, List.length_reverse]
    exact (Nat.digits_length_le_iff (by norm_num) n).mpr h

theorem digitsValue_append_digit (ds : List UInt8) (b : UInt8) :
    digitsValue (ds ++ [b]) = 10 * digitsValue ds + (b.toNat - 48) := by
  simp [digitsValue]

theorem digitsValue_append (ds es : List UInt8) :
    digitsValue (ds ++ es) =
      digitsValue ds * 10 ^ es.length + digitsValue es := by
  induction es using List.reverseRecOn with
  | nil =>
      simp [digitsValue]
  | append_singleton es b ih =>
      rw [← List.append_assoc, digitsValue_append_digit, ih,
        digitsValue_append_digit, List.length_append, List.length_singleton,
        pow_succ]
      ring

theorem digitsValue_reverse_map (l : List Nat) (h : ∀ d ∈ l, d < 10) :
    digitsValue (l.reverse.map digitByte) = Nat.ofDigits 10 l := by
  induction l with
  | nil =>
      rfl
  | cons d l ih =>
      have hd : d < 10 := h d (by simp)
      have hl : ∀ e ∈ l, e < 10 := fun e he => h e (List.mem_cons_of_mem _ he)
      rw [List.reverse_cons, List.map_append, List.map_singleton,
        digitsValue_append_digit, ih hl, toNat_digitByte hd,
        Nat.ofDigits_cons]
      simp
      omega

/-- A canonical text reads back as its number. -/
theorem digitsValue_natText (n : Nat) : digitsValue (natText n) = n := by
  unfold natText
  split_ifs with hn
  · subst hn
    rfl
  · rw [digitsValue_reverse_map _
      (fun d hd => Nat.digits_lt_base (by norm_num) hd),
      Nat.ofDigits_digits]

/-- A digit string is worth less than the power of its length. -/
theorem digitsValue_lt (ds : List UInt8) (h : ∀ b ∈ ds, isDigit b = true) :
    digitsValue ds < 10 ^ ds.length := by
  induction ds using List.reverseRecOn with
  | nil =>
      simp [digitsValue]
  | append_singleton ds b ih =>
      have hds := ih fun c hc => h c (List.mem_append_left _ hc)
      have hb : b.toNat ≤ 57 := by
        have := h b (by simp)
        simp only [isDigit, Bool.and_eq_true, decide_eq_true_eq] at this
        exact this.2
      rw [digitsValue_append_digit, List.length_append,
        List.length_singleton, pow_succ]
      omega

/-- No text of a number is shorter than its canonical one. -/
theorem natText_digitsValue_length_le {ds : List UInt8} (hne : ds ≠ [])
    (h : ∀ b ∈ ds, isDigit b = true) :
    (natText (digitsValue ds)).length ≤ ds.length :=
  natText_length_le (List.length_pos_of_ne_nil hne) (digitsValue_lt ds h)

theorem natText_length_mono {m n : Nat} (h : m ≤ n) :
    (natText m).length ≤ (natText n).length := by
  have hn : n < 10 ^ (natText n).length := by
    have := digitsValue_lt (natText n) fun b hb => natText_isDigit hb
    rwa [digitsValue_natText] at this
  exact natText_length_le (natText_length_pos n) (lt_of_le_of_lt h hn)

theorem intText_length_le (i : Int) :
    (intText i).length ≤ (natText i.natAbs).length + 1 := by
  cases i with
  | ofNat n =>
      simp [intText]
  | negSucc n =>
      simp [intText]

theorem splitSign_natText (n : Nat) :
    splitSign (natText n) = (false, natText n) := by
  cases h : natText n with
  | nil =>
      rfl
  | cons b l =>
      have hb : isDigit b = true := natText_isDigit (n := n) (by simp [h])
      simp [splitSign, isDigit_ne_minus hb]

theorem splitSign_minus (l : List UInt8) :
    splitSign (minus :: l) = (true, l) := by
  simp [splitSign]

theorem signedValue_natText (n : Nat) : signedValue (natText n) = n := by
  simp [signedValue, splitSign_natText, digitsValue_natText]

/-- The text of an integer reads back as the integer. -/
theorem signedValue_intText (i : Int) : signedValue (intText i) = i := by
  cases i with
  | ofNat n =>
      simp [intText, signedValue_natText]
  | negSucc n =>
      simp only [intText, signedValue, splitSign_minus, if_true,
        digitsValue_natText]
      omega

/-- What follows the sign of an integer's text is the text of its size. -/
theorem splitSign_intText (i : Int) :
    (splitSign (intText i)).2 = natText i.natAbs := by
  cases i with
  | ofNat n =>
      simp [intText, splitSign_natText]
  | negSucc n =>
      simp [intText, splitSign_minus]

/-- The text of a positive number starts with a digit that is not zero. -/
theorem natText_eq_cons {n : Nat} (hn : n ≠ 0) :
    ∃ b ds, natText n = b :: ds ∧ isDigit b = true ∧ b ≠ 48 ∧
      ds.all isDigit = true := by
  have hne : Nat.digits 10 n ≠ [] := Nat.digits_ne_nil_iff_ne_zero.mpr hn
  have hlast : (Nat.digits 10 n).getLast hne ≠ 0 :=
    Nat.getLast_digit_ne_zero 10 hn
  have hless : (Nat.digits 10 n).getLast hne < 10 :=
    Nat.digits_lt_base (by norm_num) (List.getLast_mem hne)
  have htext : natText n =
      digitByte ((Nat.digits 10 n).getLast hne) ::
        (Nat.digits 10 n).dropLast.reverse.map digitByte := by
    unfold natText
    rw [if_neg hn]
    conv_lhs => rw [← List.dropLast_append_getLast hne]
    rw [List.reverse_append, List.reverse_singleton, List.singleton_append,
      List.map_cons]
  refine ⟨_, _, htext, isDigit_digitByte hless, ?_, ?_⟩
  · intro hzero
    have hnat := toNat_digitByte hless
    rw [hzero] at hnat
    simp only [UInt8.reduceToNat] at hnat
    omega
  · have hall := natText_all_isDigit n
    rw [htext, List.all_cons, Bool.and_eq_true] at hall
    exact hall.2

/-- A digit string that does not start with zero is the text of its value. -/
theorem natText_digitsValue {b : UInt8} {ds : List UInt8}
    (hb : isDigit b = true) (hzero : b ≠ 48) (hds : ds.all isDigit = true) :
    natText (digitsValue (b :: ds)) = b :: ds := by
  have hall : ∀ c ∈ b :: ds, isDigit c = true :=
    List.forall_mem_cons.mpr ⟨hb, List.all_eq_true.mp hds⟩
  have hcode : ∀ c ∈ b :: ds, digitByte (c.toNat - 48) = c := by
    intro c hc
    have hdigit := hall c hc
    simp only [isDigit, Bool.and_eq_true, decide_eq_true_eq] at hdigit
    unfold digitByte
    rw [Nat.add_sub_cancel' hdigit.1]
    exact UInt8.ofNat_toNat
  -- The digits as `Nat.digits` lists them, least significant first.
  let l : List Nat := ((b :: ds).map (fun c => c.toNat - 48)).reverse
  have hlist : l.reverse.map digitByte = b :: ds := by
    rw [List.reverse_reverse, List.map_map]
    conv_rhs => rw [← List.map_id (b :: ds)]
    exact List.map_congr_left hcode
  have hsmall : ∀ d ∈ l, d < 10 := by
    intro d hd
    obtain ⟨c, hc, rfl⟩ := List.mem_map.mp (List.mem_reverse.mp hd)
    have hdigit := hall c hc
    simp only [isDigit, Bool.and_eq_true, decide_eq_true_eq] at hdigit
    omega
  have hfirst : b.toNat - 48 ≠ 0 := by
    intro h
    have hcode' := hcode b (by simp)
    rw [h] at hcode'
    exact hzero hcode'.symm
  have hlast : ∀ hne : l ≠ [], l.getLast hne ≠ 0 := by
    intro hne
    have hget : l.getLast hne = b.toNat - 48 := by
      simp [l]
    rwa [hget]
  have hvalue : digitsValue (b :: ds) = Nat.ofDigits 10 l := by
    rw [← hlist, digitsValue_reverse_map l hsmall]
  have hdigits : Nat.digits 10 (Nat.ofDigits 10 l) = l :=
    Nat.digits_ofDigits 10 (by norm_num) l hsmall hlast
  have hne : Nat.ofDigits 10 l ≠ 0 := by
    intro h
    rw [h, Nat.digits_zero] at hdigits
    have hlen := congrArg List.length hdigits
    simp [l] at hlen
  rw [hvalue]
  unfold natText
  rw [if_neg hne, hdigits, hlist]

end Decimal
end Foundation
