import PyRedis.Theory.LogGrammar
import PyRedis.Theory.Sessions

/-!
# The grammar of requests

What the reader of requests takes off a stream, told by the stream alone: the
frames it accepts, and the streams on which `int` is asked for a number with
more digits than it converts.  The words are those of the log, within the
bounds of the reader.  From one frame the grammar is carried to a session,
which reads frames until it cannot.
-/

namespace PyRedis

open Foundation Aof

namespace Resp

section Grammar

variable (py : Interpreter)

/-- A header line within the stream limit, with a number the reader accepts. -/
def WireHeader (kind : UInt8) (least : Nat) (bound : Int) (head : Bytes)
    (n : Nat) : Prop :=
  Header py kind least head n ∧ head.length ≤ streamLimit + 2 ∧ n ≤ bound

/-- A bulk string and its payload. -/
inductive WireBulk : Bytes → Bytes → Prop
  | mk (head body : Bytes)
      (h : WireHeader py 36 0 maxBulkLength head body.length) :
      WireBulk (head ++ (body ++ crlf)) body

/-- A frame and the command it stands for: none, or a request. -/
inductive FrameOf : Bytes → List Bytes → Prop
  | noop (raw : Bytes) (n : Int) (hlen : raw.length < streamLimit)
      (h : py.int raw = some n) (hn : n ≤ 0) : FrameOf (42 :: raw ++ crlf) []
  | request (head : Bytes) (bulks parts : List Bytes)
      (h : WireHeader py 42 1 maxMultibulkLength head parts.length)
      (hbulks : List.Forall₂ (WireBulk py) bulks parts) :
      FrameOf (head ++ bulks.flatten) parts

/-- A header line within the stream limit whose number is too long. -/
def WireOverlong (kind : UInt8) (x : Bytes) : Prop :=
  ∃ raw rest, x = kind :: raw ++ crlf ++ rest ∧ raw.length < streamLimit ∧
    Overlong py raw

/-- A frame in which the number of parts, or the length of one of them, is too
long. -/
inductive OverlongRequest : Bytes → Prop
  | count (x : Bytes) (h : WireOverlong py 42 x) : OverlongRequest x
  | length (head rest : Bytes) (n : Nat) (bulks parts : List Bytes)
      (h : WireHeader py 42 1 maxMultibulkLength head n)
      (hcount : parts.length < n)
      (hbulks : List.Forall₂ (WireBulk py) bulks parts)
      (hrest : WireOverlong py 36 rest) :
      OverlongRequest (head ++ (bulks.flatten ++ rest))

end Grammar

variable {py : Interpreter} {x rest : Bytes}

section Lines

variable {kind : UInt8} {raw line : Bytes}

theorem lineFits_header_iff (hkind : cr ≠ kind) (hraw : cr ∉ raw) (y : Bytes) :
    LineFits (kind :: raw ++ crlf ++ y) ↔ raw.length < streamLimit := by
  have hmem : cr ∉ kind :: raw := by
    simp only [List.mem_cons, not_or]
    exact ⟨hkind, hraw⟩
  simp only [LineFits, findCrlf_append hmem, List.length_cons]
  exact Nat.succ_le_iff

theorem wireHeader_iff {least n : Nat} {bound : Int} {head : Bytes} :
    WireHeader py kind least bound head n ↔
      ∃ raw, head = kind :: raw ++ crlf ∧ raw.length < streamLimit ∧
        py.int raw = some (n : Int) ∧ least ≤ n ∧ (n : Int) ≤ bound := by
  have hlen : ∀ raw : Bytes, (kind :: raw ++ crlf).length ≤ streamLimit + 2 ↔
      raw.length < streamLimit := by
    intro raw
    simp only [List.cons_append, List.length_cons, List.length_append, crlf,
      List.length_nil]
    omega
  constructor
  · rintro ⟨⟨raw, rfl, hint, hleast⟩, hshort, hbound⟩
    exact ⟨raw, rfl, (hlen raw).mp hshort, hint, hleast, hbound⟩
  · rintro ⟨raw, rfl, hshort, hint, hleast, hbound⟩
    exact ⟨⟨raw, rfl, hint, hleast⟩, (hlen raw).mpr hshort, hbound⟩

/-- A line that was found stands at the front of the input, and one that fits
is short. -/
theorem line_at_front (hx : LineFits x)
    (h : lineDecoder Exc x = .done line rest) :
    x = line ++ crlf ++ rest ∧ line.length ≤ streamLimit := by
  obtain ⟨c, hc, hword⟩ := incremental_line.done_local h
  obtain ⟨i, hi, hline, -⟩ := lineDecoder_done h
  refine ⟨by rw [hc, eq_line_of_encodes hword], ?_⟩
  simp only [LineFits, hi] at hx
  rw [hline, List.length_take]
  exact le_trans (Nat.min_le_left _ _) hx

theorem line_or_none (x : Bytes) :
    findCrlf x = none ∨ ∃ line rest, lineDecoder Exc x = .done line rest := by
  cases hx : findCrlf x with
  | none =>
      exact Or.inl rfl
  | some i =>
      exact Or.inr ⟨_, _, lineDecoder_of_some hx⟩

theorem parseLength_eq_value_iff {message : String} :
    parseLength py raw message = .error .value ↔ Overlong py raw := by
  unfold parseLength Overlong Interpreter.int
  by_cases hdigits : isDigits (Decimal.splitSign raw).2 = true
  · by_cases hconverts : py.Converts (Decimal.splitSign raw).2.length
    · simp [hdigits, hconverts]
    · simp [hdigits, hconverts]
  · simp [hdigits]

theorem parseLength_ok {message : String} {n : Int}
    (h : parseLength py raw message = .ok n) : py.int raw = some n := by
  unfold parseLength at h
  split_ifs at h
  cases hint : py.int raw with
  | some m =>
      simp only [hint] at h
      cases h
      rfl
  | none =>
      simp [hint] at h

end Lines

section Bulks

/-- The verdict of a reader on a stream: where the stream ends, it would need
more. -/
def verdict {α : Type} :
    Except ReadError α × Bytes → Decoded UInt8 ReadError α
  | (.ok a, rest) => .done a rest
  | (.error .connection, _) => .more
  | (.error e, _) => .fail e

theorem verdict_done {α : Type} {outcome : Except ReadError α × Bytes} {a : α}
    (h : verdict outcome = .done a rest) : outcome = (.ok a, rest) := by
  obtain ⟨e | b, t⟩ := outcome
  · cases e <;> cases h
  · cases h
    rfl

theorem verdict_value_iff {α : Type} {outcome : Except ReadError α × Bytes} :
    verdict outcome = .fail .value ↔ outcome.1 = .error .value := by
  obtain ⟨e | b, t⟩ := outcome
  · cases e <;> simp [verdict]
  · simp [verdict]

/-- The reader of bulk strings as a decoder. -/
def bulkReader (py : Interpreter) : Decoder UInt8 ReadError Bytes :=
  fun x => verdict ((readBulkString py).run x)

theorem takes_bulkReader : Decoder.Takes (bulkReader py) (WireBulk py) := by
  intro x part rest
  constructor
  · intro h
    have hrun := verdict_done h
    have hx := bulkFits_of_ok hrun
    have hagrees := readBulkString_agrees hx 0
    rw [hrun] at hagrees
    generalize hpart : partDecoder py 0 x = decoded at hagrees
    cases hagrees
    obtain ⟨c, hc, rfl⟩ := (takes_part 0 _ _ _).mp hpart
    cases hc with
    | mk head body hhead =>
        obtain ⟨raw, rfl, hint, hleast⟩ := hhead
        have hraw := cr_not_mem_of_int hint
        rw [List.append_assoc] at hx
        have hlen := (lineFits_header_iff (by decide) hraw _).mp hx.1
        have hclaim := hx.2 raw _ _ (lineDecoder_header (by decide) hraw _)
          hint
        exact ⟨_, WireBulk.mk _ part (wireHeader_iff.mpr
          ⟨raw, rfl, hlen, hint, hleast, hclaim⟩), rfl⟩
  · rintro ⟨c, hc, rfl⟩
    cases hc with
    | mk head body hhead =>
        obtain ⟨raw, rfl, hshort, hint, hleast, hbound⟩ :=
          wireHeader_iff.mp hhead
        have hraw := cr_not_mem_of_int hint
        have hx : BulkFits py
            (36 :: raw ++ crlf ++ (part ++ crlf) ++ rest) := by
          rw [List.append_assoc _ (part ++ crlf)]
          exact ⟨lineFits_header (by decide) hraw hshort _,
            claimFits_header (by decide) hraw hint hbound _⟩
        have hpart := (takes_part 0).done
          (BulkOf.mk _ part ⟨raw, rfl, hint, hleast⟩) rest
        have hagrees := readBulkString_agrees hx 0
        rw [hpart] at hagrees
        unfold bulkReader
        generalize (readBulkString py).run
          (36 :: raw ++ crlf ++ (part ++ crlf) ++ rest) = outcome at hagrees ⊢
        cases hagrees
        rfl

theorem readBody_ne_value (n : Nat) (x : Bytes) :
    ((readBody n).run x).1 ≠ .error .value := by
  rw [readBody_run]
  rcases (readexactly (n + crlf.length)).run x with ⟨e | body, rest⟩
  · simp
  · simp only
    split_ifs <;> simp

theorem halts_bulkReader_value :
    Decoder.Halts (bulkReader py) (.fail .value) (WireOverlong py 36) := by
  intro x
  rw [Decoder.halt_eq_fail, bulkReader, verdict_value_iff]
  constructor
  · intro h
    by_cases hx : LineFits x
    · rcases line_or_none x with hfind | ⟨line, rest, hline⟩
      · simp [readBulkString, readLine_of_more hx hfind] at h
      · obtain ⟨hfront, hlen⟩ := line_at_front hx hline
        rw [readBulkString_of_line hx hline] at h
        by_cases hhead : line.head? = some 36
        · obtain ⟨raw, rfl⟩ := List.head?_eq_some_iff.mp hhead
          rw [if_neg (not_not.mpr hhead), List.tail_cons] at h
          cases hparse : parseLength py raw "invalid bulk length" with
          | error e =>
              simp only [hparse] at h
              cases h
              exact ⟨raw, rest, hfront, hlen,
                parseLength_eq_value_iff.mp hparse⟩
          | ok n =>
              simp only [hparse] at h
              split_ifs at h
              · cases h
              · exact absurd h (readBody_ne_value _ _)
        · rw [if_pos hhead] at h
          cases h
    · simp [readBulkString, readLine_overrun hx] at h
  · rintro ⟨raw, rest, rfl, hlen, hraw⟩
    have hmem := cr_not_mem_of_overlong hraw
    rw [readBulkString_of_line (lineFits_header (by decide) hmem hlen rest)
      (lineDecoder_header (by decide) hmem rest)]
    simp [parseLength_eq_value_iff.mpr hraw]

/-- A row of bulk strings is read as the decoder repeats. -/
theorem verdict_readBulkStrings :
    ∀ (n offset : Nat) (x : Bytes),
      verdict ((readBulkStrings py n).run x) =
        Decoder.times (fun _ => bulkReader py) n offset x
  | 0, _, _ => rfl
  | n + 1, offset, x => by
      simp only [readBulkStrings, Fallible.run_bind, Decoder.times,
        Decoder.andThen, bulkReader]
      rcases (readBulkString py).run x with ⟨e | part, rest⟩
      · cases e <;> rfl
      · simp only [verdict]
        rw [← verdict_readBulkStrings n]
        rcases (readBulkStrings py n).run rest with ⟨e | parts, rest'⟩
        · cases e <;> rfl
        · rfl

theorem readBulkStrings_ok_iff {n : Nat} {parts : List Bytes} :
    (readBulkStrings py n).run x = (.ok parts, rest) ↔
      ∃ bulks, List.Forall₂ (WireBulk py) bulks parts ∧ parts.length = n ∧
        x = bulks.flatten ++ rest := by
  have htimes := Decoder.takes_times (fun _ => @takes_bulkReader py) n 0
    x parts rest
  rw [← verdict_readBulkStrings] at htimes
  constructor
  · intro h
    rw [h] at htimes
    obtain ⟨-, ⟨hlen, bulks, hbulks, rfl⟩, hx⟩ := htimes.mp rfl
    exact ⟨bulks, hbulks, hlen, hx⟩
  · rintro ⟨bulks, hbulks, hlen, rfl⟩
    exact verdict_done (htimes.mpr ⟨_, ⟨hlen, bulks, hbulks, rfl⟩, rfl⟩)

theorem readBulkStrings_value_iff {n : Nat} :
    ((readBulkStrings py n).run x).1 = .error .value ↔
      ∃ bulks parts r, x = bulks.flatten ++ r ∧ parts.length < n ∧
        List.Forall₂ (WireBulk py) bulks parts ∧ WireOverlong py 36 r := by
  rw [← verdict_value_iff, verdict_readBulkStrings n 0, ← Decoder.halt_eq_fail]
  exact Decoder.halts_times (fun _ => takes_bulkReader)
    (fun _ => halts_bulkReader_value) n 0 x

end Bulks

section Frames

variable {raw : Bytes}

theorem readCommand_header (hraw : cr ∉ raw) (hlen : raw.length < streamLimit)
    (y : Bytes) :
    (readCommand py).run (42 :: raw ++ crlf ++ y) =
      match parseLength py raw "invalid multibulk length" with
      | .error e => (.error e, y)
      | .ok n =>
          if maxMultibulkLength < n then
            (.error (.protocol "invalid multibulk length"), y)
          else if n ≤ 0 then (.ok (some []), y)
          else (((readBulkStrings py n.toNat).run y).1.map some,
            ((readBulkStrings py n.toNat).run y).2) := by
  rw [readCommand_of_line (lineFits_header (by decide) hraw hlen y)
    (lineDecoder_header (by decide) hraw y)]
  rfl

/-- The reader gets as far as the number of a header only if there is one. -/
theorem header_at_front {r : Except ReadError (Option (List Bytes))}
    (h : ((readCommand py).run x).1 = r)
    (hr : r = .error .value ∨ ∃ parts, r = .ok (some parts)) :
    ∃ raw y, x = 42 :: raw ++ crlf ++ y ∧ raw.length < streamLimit ∧
      (Overlong py raw ∨ ∃ n, py.int raw = some n) := by
  have hother : r ≠ .error .connection ∧ r ≠ .ok none ∧
      ∀ m, r ≠ .error (.protocol m) := by
    rcases hr with rfl | ⟨parts, rfl⟩ <;> simp
  obtain ⟨hgone, hended, hrefused⟩ := hother
  by_cases hx : LineFits x
  · rcases line_or_none x with hfind | ⟨line, rest, hline⟩
    · simp only [readCommand, Fallible.run_bind, readLine_of_more hx hfind] at h
      by_cases hnil : x = []
      · simp only [hnil, and_self, if_true] at h
        exact absurd h.symm hended
      · simp only [hnil, and_false, if_false] at h
        exact absurd h.symm hgone
    · obtain ⟨hfront, hlen⟩ := line_at_front hx hline
      rw [readCommand_of_line hx hline] at h
      by_cases hhead : line.head? = some 42
      · obtain ⟨raw, rfl⟩ := List.head?_eq_some_iff.mp hhead
        rw [if_neg (not_not.mpr hhead), List.tail_cons] at h
        refine ⟨raw, rest, hfront, hlen, ?_⟩
        cases hparse : parseLength py raw "invalid multibulk length" with
        | ok n =>
            exact Or.inr ⟨n, parseLength_ok hparse⟩
        | error e =>
            simp only [hparse] at h
            cases e with
            | protocol m =>
                exact absurd h.symm (hrefused m)
            | connection =>
                exact absurd h.symm hgone
            | value =>
                exact Or.inl (parseLength_eq_value_iff.mp hparse)
      · rw [if_pos hhead] at h
        exact absurd h.symm (hrefused _)
  · simp only [readCommand, Fallible.run_bind, readLine_overrun hx] at h
    exact absurd h.symm (hrefused _)

/-- **What the reader takes for a frame.** -/
theorem readCommand_ok_iff {parts : List Bytes} :
    (readCommand py).run x = (.ok (some parts), rest) ↔
      ∃ c, FrameOf py c parts ∧ x = c ++ rest := by
  constructor
  · intro h
    obtain ⟨raw, y, rfl, hlen, hraw | ⟨n, hint⟩⟩ :=
      header_at_front (congrArg Prod.fst h) (Or.inr ⟨parts, rfl⟩)
    · rw [readCommand_header (cr_not_mem_of_overlong hraw) hlen,
        parseLength_eq_value_iff.mpr hraw] at h
      cases h
    · rw [readCommand_header (cr_not_mem_of_int hint) hlen,
        parseLength_of_int hint] at h
      simp only at h
      split_ifs at h with hbound hsign
      · cases h
      · cases h
        exact ⟨_, FrameOf.noop raw n hlen hint hsign, rfl⟩
      · rcases hrow : (readBulkStrings py n.toNat).run y with ⟨e | l, t⟩
        · rw [hrow] at h
          cases h
        · rw [hrow] at h
          cases h
          obtain ⟨bulks, hbulks, hcount, rfl⟩ :=
            readBulkStrings_ok_iff.mp hrow
          have hn : n = parts.length := by omega
          have hhead : WireHeader py 42 1 maxMultibulkLength
              (42 :: raw ++ crlf) parts.length :=
            wireHeader_iff.mpr
              ⟨raw, rfl, hlen, hn ▸ hint, by omega, by omega⟩
          exact ⟨_, FrameOf.request _ bulks parts hhead hbulks, by simp⟩
  · rintro ⟨c, hc, rfl⟩
    cases hc with
    | noop raw n hlen hint hn =>
        exact readCommand_noop raw (cr_not_mem_of_int hint) hlen hint hn rest
    | request head bulks parts hhead hbulks =>
        obtain ⟨raw, rfl, hshort, hint, hleast, hbound⟩ :=
          wireHeader_iff.mp hhead
        have hsign : ¬ (parts.length : Int) ≤ 0 := by omega
        have hrow : (readBulkStrings py parts.length).run
            (bulks.flatten ++ rest) = (.ok parts, rest) :=
          readBulkStrings_ok_iff.mpr ⟨bulks, hbulks, rfl, rfl⟩
        rw [List.append_assoc,
          readCommand_header (cr_not_mem_of_int hint) hshort,
          parseLength_of_int hint]
        simp only [if_neg (not_lt.mpr hbound), if_neg hsign,
          Int.toNat_natCast, hrow]
        rfl

/-- **When the reader raises `ValueError`.** -/
theorem readCommand_value_iff :
    ((readCommand py).run x).1 = .error .value ↔ OverlongRequest py x := by
  constructor
  · intro h
    obtain ⟨raw, y, rfl, hlen, hraw | ⟨n, hint⟩⟩ :=
      header_at_front h (Or.inl rfl)
    · exact OverlongRequest.count _ ⟨raw, y, rfl, hlen, hraw⟩
    · rw [readCommand_header (cr_not_mem_of_int hint) hlen,
        parseLength_of_int hint] at h
      simp only at h
      by_cases hbound : maxMultibulkLength < n
      · rw [if_pos hbound] at h
        cases h
      rw [if_neg hbound] at h
      by_cases hsign : n ≤ 0
      · rw [if_pos hsign] at h
        cases h
      rw [if_neg hsign] at h
      have hrow : ((readBulkStrings py n.toNat).run y).1 = .error .value := by
        rcases hy : (readBulkStrings py n.toNat).run y with ⟨e | l, t⟩
        · rw [hy] at h
          cases h
          rfl
        · rw [hy] at h
          cases h
      obtain ⟨bulks, parts, r, rfl, hcount, hbulks, hr⟩ :=
        readBulkStrings_value_iff.mp hrow
      obtain ⟨m, rfl⟩ := Int.eq_ofNat_of_zero_le (not_le.mp hsign).le
      have hhead : WireHeader py 42 1 maxMultibulkLength
          (42 :: raw ++ crlf) m :=
        wireHeader_iff.mpr
          ⟨raw, rfl, hlen, hint, by omega, not_lt.mp hbound⟩
      exact OverlongRequest.length _ r m bulks parts hhead hcount hbulks hr
  · intro h
    cases h with
    | count x hx =>
        obtain ⟨raw, y, rfl, hlen, hraw⟩ := hx
        rw [readCommand_header (cr_not_mem_of_overlong hraw) hlen,
          parseLength_eq_value_iff.mpr hraw]
    | length head r n bulks parts hhead hcount hbulks hr =>
        obtain ⟨raw, rfl, hshort, hint, hleast, hbound⟩ :=
          wireHeader_iff.mp hhead
        have hsign : ¬ (n : Int) ≤ 0 := by omega
        have hrow : ((readBulkStrings py n).run (bulks.flatten ++ r)).1 =
            .error .value :=
          readBulkStrings_value_iff.mpr
            ⟨bulks, parts, r, rfl, hcount, hbulks, hr⟩
        rw [readCommand_header (cr_not_mem_of_int hint) hshort,
          parseLength_of_int hint]
        simp only [if_neg (not_lt.mpr hbound), if_neg hsign,
          Int.toNat_natCast, hrow]
        rfl

end Frames

end Resp

namespace Connection

open Resp

variable {J : Type} [Journal J] {py : Interpreter} {x y : Bytes}
variable {commands : List (List Bytes)}

section Sessions

/-- A session has read some commands off a stream and stands before the
rest. -/
inductive Arrives (py : Interpreter) :
    Bytes → List (List Bytes) → Bytes → Prop
  | start (x : Bytes) : Arrives py x [] x
  | read {x rest y : Bytes} {parts : List Bytes}
      {commands : List (List Bytes)}
      (h : (readCommand py).run x = (.ok (some parts), rest))
      (next : Arrives py rest commands y) : Arrives py x (parts :: commands) y

/-- The commands that are answered. -/
def requests (commands : List (List Bytes)) : List (List Bytes) :=
  commands.filter fun parts => parts ≠ []

theorem arrives_iff :
    Arrives py x commands y ↔
      ∃ words, List.Forall₂ (FrameOf py) words commands ∧
        x = words.flatten ++ y := by
  constructor
  · intro h
    induction h with
    | start x =>
        exact ⟨[], .nil, rfl⟩
    | read h next ih =>
        obtain ⟨words, hwords, rfl⟩ := ih
        obtain ⟨c, hc, rfl⟩ := readCommand_ok_iff.mp h
        exact ⟨c :: words, .cons hc hwords, by simp⟩
  · rintro ⟨words, hwords, rfl⟩
    induction hwords with
    | nil =>
        exact Arrives.start y
    | @cons c parts words commands hc hwords ih =>
        refine Arrives.read (readCommand_ok_iff.mpr ⟨c, hc, ?_⟩) ih
        rw [List.flatten_cons, List.append_assoc]

theorem length_lt_of_read {parts : List Bytes} {rest : Bytes}
    (h : (readCommand py).run x = (.ok (some parts), rest)) :
    rest.length < x.length := by
  obtain ⟨c, hc, rfl⟩ := readCommand_ok_iff.mp h
  have hpos : 0 < c.length := by
    cases hc with
    | noop raw n hlen hint hn =>
        simp
    | request head bulks parts hhead hbulks =>
        obtain ⟨raw, rfl, -⟩ := wireHeader_iff.mp hhead
        simp
  rw [List.length_append]
  omega

/-- Every stream is read up to a place where no command is. -/
theorem arrives_end (py : Interpreter) :
    ∀ (n : Nat) (x : Bytes), x.length ≤ n →
      ∃ commands y, Arrives py x commands y ∧
        ∀ parts, ((readCommand py).run y).1 ≠ .ok (some parts) := by
  intro n
  induction n with
  | zero =>
      intro x hx
      obtain rfl := List.eq_nil_of_length_eq_zero (Nat.le_zero.mp hx)
      refine ⟨[], [], Arrives.start [], fun parts h => ?_⟩
      cases h
  | succ n ih =>
      intro x hx
      by_cases hread : ∃ parts, ((readCommand py).run x).1 = .ok (some parts)
      · obtain ⟨parts, hparts⟩ := hread
        have hrun : (readCommand py).run x =
            (.ok (some parts), ((readCommand py).run x).2) :=
          Prod.ext hparts rfl
        have hless := length_lt_of_read hrun
        obtain ⟨commands, y, hy, hend⟩ :=
          ih ((readCommand py).run x).2 (by omega)
        exact ⟨parts :: commands, y, Arrives.read hrun hy, hend⟩
      · exact ⟨[], x, Arrives.start x, fun parts h => hread ⟨parts, h⟩⟩

/-- A session has answered what it has read. -/
theorem serve_of_arrives (h : Arrives py x commands y) :
    ∀ (passes : Nat) (written : Bytes) (store : KeyValueStore) (journal : J),
      x.length < passes →
      ∃ passes', serve py passes x written store journal =
        serve py (passes' + 1) y
          (written ++ (answers py (store, journal) (requests commands)).1)
          (answers py (store, journal) (requests commands)).2.1
          (answers py (store, journal) (requests commands)).2.2 := by
  induction h with
  | start x =>
      intro passes written store journal hpasses
      obtain ⟨passes, rfl⟩ : ∃ n, passes = n + 1 := ⟨passes - 1, by omega⟩
      exact ⟨passes, by simp [requests, answers]⟩
  | @read x rest y parts commands h next ih =>
      intro passes written store journal hpasses
      obtain ⟨passes, rfl⟩ : ∃ n, passes = n + 1 := ⟨passes - 1, by omega⟩
      have hless := length_lt_of_read h
      cases parts with
      | nil =>
          obtain ⟨passes', hserve⟩ := ih passes written store journal (by omega)
          refine ⟨passes', ?_⟩
          simp only [serve, h]
          exact hserve
      | cons name args =>
          obtain ⟨passes', hserve⟩ := ih passes
            (written ++ (answer py (store, journal) (name :: args)).1)
            (answer py (store, journal) (name :: args)).2.1
            (answer py (store, journal) (name :: args)).2.2 (by omega)
          refine ⟨passes', ?_⟩
          have hstep : serve py (passes + 1) x written store journal =
              serve py passes rest
                (written ++ (answer py (store, journal) (name :: args)).1)
                (answer py (store, journal) (name :: args)).2.1
                (answer py (store, journal) (name :: args)).2.2 := by
            simp only [serve, h, answer]
            rcases (Commands.dispatch py (name :: args)).run
              (store, journal) with ⟨e | reply, store', journal'⟩ <;> rfl
          rw [hstep, hserve]
          simp only [requests, List.filter_cons, ne_eq, reduceCtorEq,
            not_false_eq_true, decide_true, if_true, answers,
            List.append_assoc]

/-- How a session ends: with nothing more to say, with a protocol error, or
with an exception. -/
def closing : Except ReadError (Option (List Bytes)) → Bytes × Bool
  | .error (.protocol message) => (protocolError message, false)
  | .error .value => ([], true)
  | _ => ([], false)

/-- **What a session comes to.** The commands before the place where reading
ends are answered, then the session ends as reading did. -/
theorem handleConnection_of_arrives (h : Arrives py x commands y)
    (hend : ∀ parts, ((readCommand py).run y).1 ≠ .ok (some parts))
    (store : KeyValueStore) (journal : J) :
    handleConnection py x store journal =
      some ⟨(answers py (store, journal) (requests commands)).1 ++
          (closing ((readCommand py).run y).1).1,
        (closing ((readCommand py).run y).1).2,
        (answers py (store, journal) (requests commands)).2.1,
        (answers py (store, journal) (requests commands)).2.2⟩ := by
  obtain ⟨passes, hserve⟩ := serve_of_arrives h (x.length + 1) [] store journal
    (Nat.lt_succ_self _)
  rw [handleConnection, hserve, List.nil_append, serve]
  rcases hread : (readCommand py).run y with ⟨(m | _ | _) | _ | parts, rest⟩
  · rfl
  · simp [closing]
  · simp [closing]
  · simp [closing]
  · rw [hread] at hend
    exact absurd rfl (hend parts)

end Sessions

section Promises

/-- Frames, and behind them one with a number that is too long. -/
inductive OverlongStream (py : Interpreter) : Bytes → Prop
  | mk (words : List Bytes) (commands : List (List Bytes)) (rest : Bytes)
      (hwords : List.Forall₂ (FrameOf py) words commands)
      (hrest : OverlongRequest py rest) :
      OverlongStream py (words.flatten ++ rest)

/-- A read that ends without a command ends in a declared error. -/
def DeclaresRead (py : Interpreter) (x : Bytes) : Prop :=
  ∀ e rest, (readCommand py).run x = (.error e, rest) →
    e = .connection ∨ ∃ message, e = .protocol message

/-- What is promised about the stream of a client: every read on it ends in a
declared way; the first frame that is refused is answered with one protocol
error, after the replies to the requests before it and nothing more; and the
session returns. -/
structure DeclaresSession (py : Interpreter) (stream : Bytes) : Prop where
  reads : ∀ {commands rest}, Arrives py stream commands rest →
    DeclaresRead py rest
  refuses : ∀ {commands rest e rest'}, Arrives py stream commands rest →
    (readCommand py).run rest = (.error e, rest') → e ≠ .connection →
    ∃ message, e = .protocol message ∧
      ∀ {J : Type} [Journal J] (store : KeyValueStore) (journal : J),
        handleConnection py stream store journal =
          some ⟨(answers py (store, journal) (requests commands)).1 ++
              protocolError message,
            false,
            (answers py (store, journal) (requests commands)).2.1,
            (answers py (store, journal) (requests commands)).2.2⟩
  returns : ∀ {J : Type} [Journal J] (store : KeyValueStore) (journal : J),
    ∃ session, handleConnection py stream store journal = some session ∧
      session.escaped = false

theorem declaresRead_iff (py : Interpreter) (x : Bytes) :
    DeclaresRead py x ↔ ¬ OverlongRequest py x := by
  rw [← readCommand_value_iff]
  constructor
  · intro h hvalue
    rcases h .value _ (Prod.ext hvalue rfl) with hgone | ⟨m, hm⟩
    · cases hgone
    · cases hm
  · intro h e rest hrun
    cases e with
    | protocol message =>
        exact Or.inr ⟨message, rfl⟩
    | connection =>
        exact Or.inl rfl
    | value =>
        exact absurd (congrArg Prod.fst hrun) h

theorem overlongStream_iff :
    OverlongStream py x ↔
      ∃ commands rest, Arrives py x commands rest ∧
        OverlongRequest py rest := by
  constructor
  · rintro ⟨words, commands, rest, hwords, hrest⟩
    exact ⟨commands, rest, arrives_iff.mpr ⟨words, hwords, rfl⟩, hrest⟩
  · rintro ⟨commands, rest, harrives, hrest⟩
    obtain ⟨words, hwords, rfl⟩ := arrives_iff.mp harrives
    exact OverlongStream.mk words commands rest hwords hrest

/-- The promise is kept exactly on the streams without such a frame. -/
theorem declaresSession_iff (py : Interpreter) (stream : Bytes) :
    DeclaresSession py stream ↔ ¬ OverlongStream py stream := by
  rw [overlongStream_iff]
  constructor
  · rintro h ⟨commands, rest, harrives, hrest⟩
    exact (declaresRead_iff py rest).mp (h.reads harrives) hrest
  · intro h
    have hreads : ∀ {commands rest}, Arrives py stream commands rest →
        DeclaresRead py rest := by
      intro commands rest harrives
      exact (declaresRead_iff py rest).mpr
        fun hrest => h ⟨commands, rest, harrives, hrest⟩
    refine ⟨hreads, ?_, ?_⟩
    · intro commands rest e rest' harrives hrun hne
      obtain hgone | ⟨message, rfl⟩ := hreads harrives e rest' hrun
      · exact absurd hgone hne
      · refine ⟨message, rfl, fun store journal => ?_⟩
        rw [handleConnection_of_arrives harrives (by simp [hrun]), hrun]
        rfl
    · intro J _ store journal
      obtain ⟨commands, rest, harrives, hend⟩ :=
        arrives_end py stream.length stream le_rfl
      refine ⟨_, handleConnection_of_arrives harrives hend store journal, ?_⟩
      rcases hrun : (readCommand py).run rest with ⟨(m | _ | _) | _ | _, rest'⟩
      · rfl
      · rfl
      · rcases hreads harrives _ _ hrun with hgone | ⟨m, hm⟩
        · cases hgone
        · cases hm
      · rfl
      · rfl

end Promises

end Connection
end PyRedis
