import PyRedis.Core.Demo
import PyRedis.Theory.ReplyFraming

/-!
# What a client makes of a reply

The client of the demonstration reads a reply with a parser of its own, which
is laxer than the grammar of replies.  On a reply of the server it still takes
exactly the bytes of this reply: it waits until all of them are there, and it
leaves none of them.
-/

namespace PyRedis

open Foundation

namespace Demo

section Numbers

variable {py : Interpreter} {raw : Bytes}

theorem isSpace_of_isDigit {b : UInt8} (h : Decimal.isDigit b = true) :
    isSpace b = false := by
  simp only [Decimal.isDigit, Bool.and_eq_true, decide_eq_true_eq] at h
  have hne : b ≠ 32 := by
    rintro rfl
    revert h
    decide
  simp only [isSpace, hne, decide_false, Bool.false_or, Bool.and_eq_false_iff,
    decide_eq_false_iff_not]
  exact Or.inr (by omega)

/-- A text without whitespace. -/
theorem strip_of_isSpace (h : ∀ b ∈ raw, isSpace b = false) :
    strip raw = raw := by
  have hkeep : ∀ {text : Bytes}, (∀ b ∈ text, isSpace b = false) →
      text.dropWhile isSpace = text := by
    intro text htext
    cases text with
    | nil =>
        rfl
    | cons b text =>
        exact List.dropWhile_cons_of_neg (by simp [htext b (by simp)])
  unfold strip
  rw [hkeep h, hkeep fun b hb => h b (List.mem_reverse.mp hb),
    List.reverse_reverse]

theorem isDigits_iff : isDigits raw = true ↔
    raw ≠ [] ∧ ∀ d ∈ raw, Decimal.isDigit d = true := by
  simp [isDigits]

theorem digits_of_isDigit :
    ∀ {ds : Bytes}, ds ≠ [] → (∀ d ∈ ds, Decimal.isDigit d = true) →
      digits ds = some ds
  | [], hne, _ => absurd rfl hne
  | [d], _, h => if_pos (h d (by simp))
  | d :: b :: rest, _, h => by
      have hb : b ≠ 95 := by
        rintro rfl
        have := h 95 (by simp)
        revert this
        decide
      have hrest : digits (b :: rest) = some (b :: rest) :=
        digits_of_isDigit (by simp) fun c hc => h c (List.mem_cons_of_mem _ hc)
      simp only [digits, h d (by simp), if_true, hb, if_false, hrest,
        Option.map_some]

/-- A number that is written as the server writes it is read as what it is,
unless it is too long. -/
theorem int_of_exact {n : Int} (h : Interpreter.exact.int raw = some n) :
    int py raw = none ∨ int py raw = some n := by
  obtain ⟨hdigits, -, hvalue⟩ := int_eq_some_iff.mp h
  unfold Decimal.signedValue at hvalue
  have hnatural : ∀ {ds : Bytes}, isDigits ds = true →
      natural py ds = none ∨
        natural py ds = some (Decimal.digitsValue ds) := by
    intro ds hds
    obtain ⟨hne, hall⟩ := isDigits_iff.mp hds
    simp only [natural, digits_of_isDigit hne hall]
    by_cases hconverts : py.Converts ds.length
    · exact Or.inr (if_pos hconverts)
    · exact Or.inl (if_neg hconverts)
  have hspace : ∀ b ∈ raw, isSpace b = false := by
    intro b hb
    have hall := (isDigits_iff.mp hdigits).2
    cases raw with
    | nil =>
        cases hb
    | cons c raw =>
        simp only [Decimal.splitSign] at hall
        split_ifs at hall with hminus
        · rcases List.mem_cons.mp hb with rfl | hb
          · rw [hminus]
            rfl
          · exact isSpace_of_isDigit (hall b hb)
        · exact isSpace_of_isDigit (hall b hb)
  unfold int
  rw [strip_of_isSpace hspace]
  split
  · next rest =>
      have hsplit : Decimal.splitSign (45 :: rest) = (true, rest) := rfl
      rw [hsplit] at hdigits hvalue
      rw [← hvalue]
      exact (hnatural hdigits).imp (by simp +contextual) (by simp +contextual)
  · next rest =>
      have hplus := (isDigits_iff.mp hdigits).2 43
        (by simp [Decimal.splitSign, Decimal.minus])
      cases hplus
  · next rest hminus _ =>
      have hsplit : Decimal.splitSign raw = (false, raw) := by
        cases raw with
        | nil =>
            rfl
        | cons b raw =>
            refine if_neg ?_
            rintro rfl
            exact hminus raw rfl
      rw [hsplit] at hdigits hvalue
      rw [← hvalue]
      exact (hnatural hdigits).imp (by simp +contextual) (by simp +contextual)

end Numbers

section Replies

open Resp

variable {py : Interpreter} {α : Type}

theorem converted_ne_more (value : Option α) (answer : α → Answer)
    (x : Bytes) : converted value answer x ≠ .more := by
  cases value with
  | none =>
      intro h
      cases h
  | some a =>
      intro h
      cases h

theorem converted_done {value : Option α} {answer : α → Answer}
    {x rest : Bytes} {a : Answer} (h : converted value answer x = .done a rest) :
    rest = x :=
  (Decoder.ofExcept_done h).2

/-- A client that reads these bytes waits for all of them and leaves none. -/
structure TakesAll (d : Decoder UInt8 Failure Answer) (bytes : Bytes) :
    Prop where
  ends : d bytes ≠ .more
  whole : ∀ {p q : Bytes} {a : Answer} {rest : Bytes}, p ++ q = bytes →
    d p = .done a rest → q = [] ∧ rest = []

theorem takesAll_nil {d : Decoder UInt8 Failure Answer}
    (hends : d [] ≠ .more)
    (hrest : ∀ {a rest}, d [] = .done a rest → rest = []) :
    TakesAll d [] where
  ends := hends
  whole := by
    intro p q a rest hpq hdone
    obtain ⟨rfl, rfl⟩ := List.append_eq_nil_iff.mp hpq
    exact ⟨rfl, hrest hdone⟩

/-- A client that fails whatever follows. -/
theorem takesAll_fail {e : Failure} (bytes : Bytes) :
    TakesAll (Decoder.ofExcept (.error e)) bytes where
  ends := by
    intro h
    cases h
  whole := by
    intro p q a rest _ h
    cases h

theorem takesAll_converted (value : Option α) (answer : α → Answer) :
    TakesAll (converted value answer) [] :=
  takesAll_nil (converted_ne_more value answer []) converted_done

theorem takesAll_payload {n : Nat} {body : Bytes} (h : body.length = n + 2) :
    TakesAll (readPayload n) body where
  ends := by
    have hlong : ¬ (body.length : Int) < (n : Int) + 2 := by
      omega
    rw [readPayload, if_neg hlong]
    intro hmore
    cases hmore
  whole := by
    intro p q a rest hpq hdone
    unfold readPayload at hdone
    split_ifs at hdone with hshort
    have hlength := congrArg List.length hpq
    rw [List.length_append] at hlength
    have hq : q = [] := List.eq_nil_of_length_eq_zero (by omega)
    refine ⟨hq, ?_⟩
    cases hdone
    refine List.drop_eq_nil_of_le ?_
    unfold bound
    rw [if_neg (by omega)]
    omega

/-- Behind the first line of a reply. -/
theorem takesAll_readBody {line x : Bytes} {v : Resp.Reply}
    (h : replyAfter line x = .done v []) : TakesAll (readBody py line) x := by
  unfold replyAfter at h
  split at h
  · obtain ⟨-, rfl⟩ := Decoder.ofExcept_done h
    exact takesAll_converted _ _
  · obtain ⟨-, rfl⟩ := Decoder.ofExcept_done h
    exact takesAll_converted _ _
  · next raw =>
      cases hint : Interpreter.exact.int raw with
      | none =>
          simp only [hint] at h
          cases h
      | some n =>
          simp only [hint] at h
          obtain ⟨-, rfl⟩ := Decoder.ofExcept_done h
          exact takesAll_converted _ _
  · next raw =>
      cases hint : Interpreter.exact.int raw with
      | none =>
          simp only [hint] at h
          cases h
      | some n =>
          have hread : int py raw = none ∨ int py raw = some n :=
            int_of_exact hint
          simp only [readBody]
          rcases hread with hread | hread
          · simp only [hread]
            exact takesAll_fail x
          · simp only [hint] at h
            simp only [hread]
            cases n with
            | ofNat n =>
                obtain ⟨body, mid, htake, hbody⟩ := Decoder.andThen_done h
                obtain ⟨hlength, rfl⟩ := Decoder.take_done htake
                obtain ⟨-, rfl⟩ := Decoder.ofExcept_done hbody
                rw [List.append_nil]
                exact takesAll_payload hlength
            | negSucc n =>
                obtain ⟨hnull, rfl⟩ := Decoder.ofExcept_done h
                split_ifs at hnull ⊢
                exact takesAll_nil (by simp [Decoder.ofExcept])
                  fun hdone => (Decoder.ofExcept_done hdone).2
  · cases h

/-- **One reply at a time.**  A client takes all the bytes of a reply, and it
waits until they are there. -/
theorem takesAll_of_oneFrame {bytes : Bytes} (h : OneFrame bytes) :
    TakesAll (readReply py) bytes := by
  obtain ⟨v, hv⟩ := h
  have hself := hv []
  rw [List.append_nil] at hself
  obtain ⟨line, behind, hline, hafter⟩ := Decoder.andThen_done hself
  have hbody : TakesAll (readBody py line) behind := takesAll_readBody hafter
  have hread : readLine bytes = .done line behind := by
    obtain ⟨i, hi, rfl, rfl⟩ := lineDecoder_done hline
    exact lineDecoder_of_some hi
  constructor
  · unfold readReply Decoder.andThen
    rw [hread]
    exact hbody.ends
  · rintro p q a rest rfl hdone
    obtain ⟨line', behind', hread', hdone'⟩ := Decoder.andThen_done hdone
    -- A line that is there stays the same when more bytes come.
    obtain ⟨c, rfl, hword⟩ := incremental_line.done_local hread'
    have hlonger : readLine (c ++ (behind' ++ q)) = .done line' (behind' ++ q) :=
      hword (behind' ++ q)
    rw [← List.append_assoc, hread] at hlonger
    cases hlonger
    exact hbody.whole rfl hdone'

end Replies

end Demo

end PyRedis
