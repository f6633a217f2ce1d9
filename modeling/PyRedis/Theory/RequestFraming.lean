import PyRedis.Theory.RecordFraming

/-!
# The wire reader and the log scanner

Requests and log records have one format and two hand-written parsers.  The
reader of requests takes bytes off a stream and bounds what a frame may claim;
the scanner of the log works on offsets and bounds nothing.  Within the bounds
of the reader the two give the same verdict on every input: the same parts and
the same rest, a frame that runs out for one where it runs out for the other,
and an error where the other has an error.
-/

namespace PyRedis

open Foundation

namespace Resp

section Bounds

variable (py : Interpreter)

/-- The header line at the front of an input fits the stream limit, whether
it is already terminated or not. -/
def LineFits (x : Bytes) : Prop :=
  match findCrlf x with
  | some i => i ≤ streamLimit
  | none => x.length ≤ streamLimit + 1

/-- The number claimed by the header at the front of an input, if it is a
header of that kind, is within a bound. -/
def ClaimFits (kind : UInt8) (bound : Int) (x : Bytes) : Prop :=
  ∀ raw rest n, lineDecoder Exc x = .done (kind :: raw) rest →
    py.int raw = some n → n ≤ bound

/-- The bounds of the reader on a bulk string. -/
def BulkFits (x : Bytes) : Prop :=
  LineFits x ∧ ClaimFits py 36 maxBulkLength x

/-- `H` holds of the input at the header of a frame, and `P` of the input at
each of the bulk strings that follow it. -/
def AlongFrame (H P : Bytes → Prop) (offset : Nat) (x : Bytes) : Prop :=
  H x ∧ ∀ raw rest n, lineDecoder Exc x = .done (42 :: raw) rest →
    py.int raw = some n →
      Decoder.Along (Aof.partDecoder py) P n.toNat
        (offset + (x.length - rest.length)) rest

/-- Every header line of a frame fits the stream limit. -/
def HeadersFit (offset : Nat) (x : Bytes) : Prop :=
  AlongFrame py LineFits LineFits offset x

/-- Every header line of a frame fits the stream limit, and every length it
claims is one the reader accepts. -/
def FrameFits (offset : Nat) (x : Bytes) : Prop :=
  AlongFrame py
    (fun x => LineFits x ∧ ClaimFits py 42 maxMultibulkLength x)
    (BulkFits py) offset x

end Bounds

section Lines

variable {x line rest : Bytes}

theorem readLine_of_line (hx : LineFits x)
    (h : lineDecoder Exc x = .done line rest) (allowEof : Bool) :
    (readLine allowEof).run x = (.ok (some line), rest) := by
  obtain ⟨i, hi, rfl, rfl⟩ := lineDecoder_done h
  have hle := findCrlf_le hi
  simp only [LineFits, hi] at hx
  simp only [readLine, readuntil, Fallible.run, hi, if_pos hx]
  rw [List.length_take, min_eq_left hle, List.take_take]
  simp [crlf]

theorem readLine_of_more (hx : LineFits x) (h : findCrlf x = none)
    (allowEof : Bool) :
    (readLine allowEof).run x =
      (if allowEof ∧ x = [] then .ok none else .error .connection, []) := by
  simp only [LineFits, h] at hx
  have hlimit : ¬ streamLimit < x.length - 1 := by omega
  simp only [readLine, readuntil, Fallible.run, h, if_neg hlimit]
  split_ifs <;> rfl

theorem readLine_overrun (hx : ¬ LineFits x) (allowEof : Bool) :
    (readLine allowEof).run x =
      (.error (.protocol "too big mbulk count string"), x) := by
  unfold LineFits at hx
  cases hfind : findCrlf x with
  | some i =>
      simp only [hfind] at hx
      simp only [readLine, readuntil, Fallible.run, hfind, if_neg hx]
  | none =>
      simp only [hfind] at hx
      have hlimit : streamLimit < x.length - 1 := by omega
      simp only [readLine, readuntil, Fallible.run, hfind, if_pos hlimit]

theorem lineDecoder_of_none (h : findCrlf x = none) :
    lineDecoder Exc x = .more := by
  simp only [lineDecoder, h]

/-- The beginning of an input with a fitting header line has one too. -/
theorem LineFits.of_append {y : Bytes} (h : LineFits (x ++ y)) :
    LineFits x := by
  cases hx : findCrlf x with
  | some i =>
      have hle := findCrlf_le hx
      have hxy := findCrlf_take_append hx (x.drop (i + 2) ++ y)
      rw [← List.append_assoc, List.take_append_drop] at hxy
      simp only [LineFits, hx]
      simpa only [LineFits, hxy] using h
  | none =>
      simp only [LineFits, hx]
      unfold LineFits at h
      cases hxy : findCrlf (x ++ y) with
      | none =>
          simp only [hxy, List.length_append] at h
          omega
      | some i =>
          simp only [hxy] at h
          by_contra hlong
          -- A terminator inside `x` would have been found in `x` alone.
          have hi : i + 2 ≤ x.length := by omega
          have htake := findCrlf_take_append hxy (x.drop (i + 2))
          rw [List.take_append_of_le_length hi, List.take_append_drop, hx]
            at htake
          cases htake

variable {py : Interpreter} {kind : UInt8} {bound : Int}

theorem ClaimFits.of_append {y : Bytes}
    (h : ClaimFits py kind bound (x ++ y)) : ClaimFits py kind bound x := by
  intro raw rest n hx hn
  obtain ⟨c, rfl, hc⟩ := incremental_line.done_local hx
  refine h raw (rest ++ y) n ?_ hn
  rw [List.append_assoc]
  exact hc (rest ++ y)

theorem BulkFits.of_append {y : Bytes} (h : BulkFits py (x ++ y)) :
    BulkFits py x :=
  ⟨h.1.of_append, h.2.of_append⟩

/-- The beginning of a frame within the bounds is within the bounds. -/
theorem FrameFits.of_append {offset : Nat} {y : Bytes}
    (h : FrameFits py offset (x ++ y)) : FrameFits py offset x := by
  refine ⟨⟨h.1.1.of_append, h.1.2.of_append⟩, ?_⟩
  intro raw rest n hx hn
  obtain ⟨c, rfl, hc⟩ := incremental_line.done_local hx
  have hlonger : lineDecoder Exc (c ++ rest ++ y) =
      .done (42 :: raw) (rest ++ y) := by
    rw [List.append_assoc]
    exact hc (rest ++ y)
  have hparts := h.2 raw (rest ++ y) n hlonger hn
  have hused : (c ++ rest ++ y).length - (rest ++ y).length =
      (c ++ rest).length - rest.length := by
    simp only [List.length_append]
    omega
  rw [hused] at hparts
  exact hparts.of_append Aof.incremental_part fun _ _ => BulkFits.of_append

end Lines

section Agreement

variable {py : Interpreter} {x : Bytes}

/-- The verdict of a decoder and the outcome of a reader on one input: the
same value and the same rest, the end of the stream where the decoder needs
more, and some other error where the decoder fails. -/
inductive Agrees {α : Type} :
    Decoded UInt8 Exc α → Except ReadError α × Bytes → Prop
  | done (a : α) (rest : Bytes) : Agrees (.done a rest) (.ok a, rest)
  | more (rest : Bytes) : Agrees .more (.error .connection, rest)
  | fail (e : Exc) (e' : ReadError) (rest : Bytes) (h : e' ≠ .connection) :
      Agrees (.fail e) (.error e', rest)

/-- The two number parsers: the same number, or an error in both. -/
theorem parseLength_agrees (py : Interpreter) (raw : Bytes) (offset : Nat)
    (reason message : String) :
    (∃ n, py.int raw = some n ∧ Aof.count py raw offset reason = .ok n ∧
        parseLength py raw message = .ok n) ∨
      ∃ e e', Aof.count py raw offset reason = .error e ∧
        parseLength py raw message = .error e' ∧ e' ≠ .connection := by
  unfold Aof.count parseLength
  split_ifs with hdigits
  · cases hint : py.int raw with
    | some n =>
        exact Or.inl ⟨n, rfl, rfl, rfl⟩
    | none =>
        exact Or.inr ⟨_, _, rfl, rfl, by simp⟩
  · exact Or.inr ⟨_, _, rfl, rfl, by simp⟩

/-- What the reader does with a payload whose length it has accepted. -/
def readBody (n : Nat) : Fallible ReadError Bytes Bytes := fun buffer =>
  match (readexactly (n + crlf.length)).run buffer with
  | (.error _, rest) => (.error .connection, rest)
  | (.ok body, rest) =>
      if crlf <:+ body then (.ok (body.take n), rest)
      else (.error (.protocol "invalid bulk length"), rest)

theorem readBody_run (n : Nat) (x : Bytes) :
    (readBody n).run x =
      match (readexactly (n + crlf.length)).run x with
      | (.error _, rest) => (.error .connection, rest)
      | (.ok body, rest) =>
          if crlf <:+ body then (.ok (body.take n), rest)
          else (.error (.protocol "invalid bulk length"), rest) := by
  rfl

/-- The reader of a bulk string, with its last step named. -/
theorem readBulkString_eq :
    readBulkString py = (do
      match ← readLine false with
      | none => Fallible.raise .connection
      | some header =>
          if header.head? ≠ some 36 then
            Fallible.raise (.protocol (unexpected "$" header))
          else do
            let length ← Fallible.ofExcept
              (parseLength py header.tail "invalid bulk length")
            if length < 0 ∨ maxBulkLength < length then
              Fallible.raise (.protocol "invalid bulk length")
            else readBody length.toNat) := by
  rfl

theorem readBulkString_of_line {line rest : Bytes} (hx : LineFits x)
    (h : lineDecoder Exc x = .done line rest) :
    (readBulkString py).run x =
      if line.head? ≠ some 36 then
        (.error (.protocol (unexpected "$" line)), rest)
      else
        match parseLength py line.tail "invalid bulk length" with
        | .error e => (.error e, rest)
        | .ok n =>
            if n < 0 ∨ maxBulkLength < n then
              (.error (.protocol "invalid bulk length"), rest)
            else (readBody n.toNat).run rest := by
  simp only [readBulkString_eq, Fallible.run_bind, readLine_of_line hx h]
  rw [Fallible.run_ite]
  split_ifs with hhead
  · rfl
  · cases parseLength py line.tail "invalid bulk length" with
    | error e =>
        rfl
    | ok n =>
        simp only [Fallible.run_bind, Fallible.run_ofExcept_ok,
          Fallible.run_ite]
        split_ifs <;> rfl

theorem crlf_suffix_iff {n : Nat} {body : Bytes} (h : body.length = n + 2) :
    crlf <:+ body ↔ body.drop n = crlf := by
  constructor
  · rintro ⟨p, rfl⟩
    have hn : p.length = n := by
      simpa [crlf] using h
    rw [← hn, List.drop_left]
  · intro hdrop
    exact ⟨body.take n, by rw [← hdrop, List.take_append_drop]⟩

/-- The payloads: the reader checks the end of what it took, the scanner looks
at the bytes behind the payload. -/
theorem readBody_agrees (offset n : Nat) (x : Bytes) :
    Agrees (Aof.bodyDecoder offset n x) ((readBody n).run x) := by
  by_cases hroom : x.length < n + 2
  · rw [Aof.bodyDecoder_more hroom]
    have hrun : (readBody n).run x = (.error .connection, []) := by
      simp [readBody, readexactly, Fallible.run, crlf, hroom]
    rw [hrun]
    exact Agrees.more []
  · have hroom : n + 2 ≤ x.length := not_lt.mp hroom
    have hlen : (x.take (n + 2)).length = n + 2 := by
      rw [List.length_take]
      omega
    have hend : crlf <:+ x.take (n + 2) ↔ (x.drop n).take 2 = crlf := by
      rw [crlf_suffix_iff hlen, List.drop_take]
      simp
    have hrun : (readBody n).run x =
        if (x.drop n).take 2 = crlf then (.ok (x.take n), x.drop (n + 2))
        else (.error (.protocol "invalid bulk length"), x.drop (n + 2)) := by
      have hread : (readexactly (n + crlf.length)).run x =
          (.ok (x.take (n + 2)), x.drop (n + 2)) :=
        if_neg (not_lt.mpr hroom)
      simp only [readBody_run, hread, hend, List.take_take]
      simp
    rw [Aof.bodyDecoder_of_room hroom, hrun]
    split_ifs
    · exact Agrees.done _ _
    · exact Agrees.fail _ _ _ (by simp)

/-- One bulk string. -/
theorem readBulkString_agrees (hx : BulkFits py x) (offset : Nat) :
    Agrees (Aof.partDecoder py offset x) ((readBulkString py).run x) := by
  cases hfind : findCrlf x with
  | none =>
      have hmore : Aof.partDecoder py offset x = .more := by
        simp only [Aof.partDecoder, Decoder.andThen,
          lineDecoder_of_none hfind]
      have hrun : (readBulkString py).run x = (.error .connection, []) := by
        simp only [readBulkString, Fallible.run_bind,
          readLine_of_more hx.1 hfind]
        simp
      rw [hmore, hrun]
      exact Agrees.more []
  | some i =>
      have hline : lineDecoder Exc x = .done (x.take i) (x.drop (i + 2)) :=
        lineDecoder_of_some hfind
      rw [Aof.partDecoder_of_line hline, readBulkString_of_line hx.1 hline]
      unfold Aof.bulkLength
      split_ifs with hhead
      · exact Agrees.fail _ _ _ (by simp)
      · rcases parseLength_agrees py (x.take i).tail offset
          "invalid bulk length" "invalid bulk length" with
          ⟨n, hn, hcount, hparse⟩ | ⟨e, e', hcount, hparse, he'⟩
        · simp only [hcount, hparse, bind, Except.bind]
          have hraw : x.take i = 36 :: (x.take i).tail := by
            rw [not_not] at hhead
            exact (List.cons_head?_tail hhead).symm
          have hbound : ¬ maxBulkLength < n := by
            rw [hraw] at hline
            exact not_lt.mpr (hx.2 _ _ _ hline hn)
          by_cases hsign : n < 0
          · simp only [hsign, true_or, if_true]
            exact Agrees.fail _ _ _ (by simp)
          · simp only [hsign, hbound, or_self, if_false]
            obtain ⟨m, rfl⟩ := Int.eq_ofNat_of_zero_le (not_lt.mp hsign)
            exact readBody_agrees offset m _
        · simp only [hcount, hparse, bind, Except.bind]
          exact Agrees.fail _ _ _ he'

/-- A row of bulk strings. -/
theorem readBulkStrings_agrees :
    ∀ {n offset : Nat} {x : Bytes},
      Decoder.Along (Aof.partDecoder py) (BulkFits py) n offset x →
      Agrees (Decoder.times (Aof.partDecoder py) n offset x)
        ((readBulkStrings py n).run x)
  | 0, _, x, _ => Agrees.done [] x
  | n + 1, offset, x, h => by
      have hpart := readBulkString_agrees h.1 offset
      simp only [readBulkStrings, Fallible.run_bind, Decoder.times,
        Decoder.andThen]
      generalize hd : Aof.partDecoder py offset x = verdict at hpart ⊢
      generalize (readBulkString py).run x = outcome at hpart ⊢
      cases hpart with
      | done part rest =>
          have hparts := readBulkStrings_agrees (h.2 part rest hd)
          dsimp only
          generalize Decoder.times (Aof.partDecoder py) n
            (offset + (x.length - rest.length)) rest = verdict' at hparts ⊢
          generalize (readBulkStrings py n).run rest = outcome' at hparts ⊢
          cases hparts with
          | done parts rest' =>
              exact Agrees.done (part :: parts) rest'
          | more rest' =>
              exact Agrees.more rest'
          | fail e e' rest' he' =>
              exact Agrees.fail e e' rest' he'
      | more rest =>
          exact Agrees.more rest
      | fail e e' rest he' =>
          exact Agrees.fail e e' rest he'

/-- The verdict on a record and the outcome of reading a command. -/
inductive AgreesOnFrame :
    Decoded UInt8 Exc (List Bytes) →
      Except ReadError (Option (List Bytes)) × Bytes → Prop
  | command (parts : List Bytes) (rest : Bytes) (h : parts ≠ []) :
      AgreesOnFrame (.done parts rest) (.ok (some parts), rest)
  | ended : AgreesOnFrame .more (.ok none, [])
  | torn (rest : Bytes) : AgreesOnFrame .more (.error .connection, rest)
  | noop (e : Exc) (rest : Bytes) :
      AgreesOnFrame (.fail e) (.ok (some []), rest)
  | refused (e : Exc) (e' : ReadError) (rest : Bytes)
      (h : e' ≠ .connection) : AgreesOnFrame (.fail e) (.error e', rest)

/-- The parts make up the frame. -/
theorem Agrees.onFrame {verdict : Decoded UInt8 Exc (List Bytes)}
    {outcome : Except ReadError (List Bytes) × Bytes}
    (h : Agrees verdict outcome)
    (hne : ∀ parts rest, verdict = .done parts rest → parts ≠ []) :
    AgreesOnFrame verdict (outcome.1.map some, outcome.2) := by
  cases h with
  | done parts rest =>
      exact AgreesOnFrame.command parts rest (hne parts rest rfl)
  | more rest =>
      exact AgreesOnFrame.torn rest
  | fail e e' rest he' =>
      exact AgreesOnFrame.refused e e' rest he'

theorem parts_length {n offset : Nat} {rest : Bytes} {parts : List Bytes}
    (h : Decoder.times (Aof.partDecoder py) n offset x = .done parts rest) :
    parts.length = n :=
  (Decoder.times_done (P := fun _ => True) (fun _ _ _ _ _ => trivial) h).1

theorem readCommand_of_line {line rest : Bytes} (hx : LineFits x)
    (h : lineDecoder Exc x = .done line rest) :
    (readCommand py).run x =
      if line.head? ≠ some 42 then
        (.error (.protocol (unexpected "*" line)), rest)
      else
        match parseLength py line.tail "invalid multibulk length" with
        | .error e => (.error e, rest)
        | .ok n =>
            if maxMultibulkLength < n then
              (.error (.protocol "invalid multibulk length"), rest)
            else if n ≤ 0 then (.ok (some []), rest)
            else
              let outcome := (readBulkStrings py n.toNat).run rest
              (outcome.1.map some, outcome.2) := by
  simp only [readCommand, Fallible.run_bind, readLine_of_line hx h]
  rw [Fallible.run_ite]
  split_ifs with hhead
  · rfl
  · cases parseLength py line.tail "invalid multibulk length" with
    | error e =>
        rfl
    | ok n =>
        simp only [Fallible.run_bind, Fallible.run_ofExcept_ok,
          Fallible.run_ite]
        split_ifs
        · rfl
        · rfl
        · rcases (readBulkStrings py n.toNat).run rest with ⟨e | parts, t⟩
            <;> rfl

/-- A command and a record: within the bounds of the reader the two parsers
say the same about every input. -/
theorem readCommand_agrees {offset : Nat} (hx : FrameFits py offset x) :
    AgreesOnFrame (Aof.recordDecoder py offset x)
      ((readCommand py).run x) := by
  obtain ⟨⟨hfits, hclaim⟩, hparts⟩ := hx
  cases hfind : findCrlf x with
  | none =>
      have hmore : Aof.recordDecoder py offset x = .more := by
        simp only [Aof.recordDecoder, Decoder.andThen,
          lineDecoder_of_none hfind]
      rw [hmore]
      simp only [readCommand, Fallible.run_bind,
        readLine_of_more hfits hfind, true_and]
      by_cases hx : x = []
      · simp only [if_pos hx]
        exact AgreesOnFrame.ended
      · simp only [if_neg hx]
        exact AgreesOnFrame.torn []
  | some i =>
      have hline : lineDecoder Exc x = .done (x.take i) (x.drop (i + 2)) :=
        lineDecoder_of_some hfind
      rw [Aof.recordDecoder_of_line hline, readCommand_of_line hfits hline]
      unfold Aof.multibulkLength
      split_ifs with hhead
      · exact AgreesOnFrame.refused _ _ _ (by simp)
      · have hraw : x.take i = 42 :: (x.take i).tail := by
          rw [not_not] at hhead
          exact (List.cons_head?_tail hhead).symm
        rw [hraw] at hline
        rcases parseLength_agrees py (x.take i).tail offset
          "invalid multibulk length" "invalid multibulk length" with
          ⟨n, hn, hcount, hparse⟩ | ⟨e, e', hcount, hparse, he'⟩
        · simp only [hcount, hparse, bind, Except.bind]
          have hbound : ¬ maxMultibulkLength < n :=
            not_lt.mpr (hclaim _ _ _ hline hn)
          by_cases hsign : n ≤ 0
          · simp only [hsign, hbound, if_true, if_false]
            exact AgreesOnFrame.noop _ _
          · simp only [hsign, hbound, if_false]
            refine (readBulkStrings_agrees (hparts _ _ _ hline hn)).onFrame ?_
            rintro parts rest hdone rfl
            have hlen := parts_length hdone
            simp only [List.length_nil] at hlen
            omega
        · simp only [hcount, hparse, bind, Except.bind]
          exact AgreesOnFrame.refused _ _ _ he'

end Agreement

section Bounded

variable {py : Interpreter} {x rest : Bytes}

/-- A header line that was read fits the stream limit. -/
theorem lineFits_of_ok {α : Type} {allowEof : Bool} {a : α}
    {k : Option Bytes → Fallible ReadError Bytes α}
    (h : (readLine allowEof >>= k).run x = (.ok a, rest)) : LineFits x := by
  by_contra hx
  simp only [Fallible.run_bind, readLine_overrun hx] at h
  cases h

theorem parseLength_of_int {raw : Bytes} {n : Int}
    (h : py.int raw = some n) (message : String) :
    parseLength py raw message = .ok n := by
  have hcount := Aof.count_of_int h 0 message
  rcases parseLength_agrees py raw 0 message message with
    ⟨m, hm, -, hparse⟩ | ⟨e, e', hrefused, -, -⟩
  · rw [h] at hm
    cases hm
    exact hparse
  · rw [hcount] at hrefused
    cases hrefused

/-- A bulk string that was read is within the bounds. -/
theorem bulkFits_of_ok {part : Bytes}
    (h : (readBulkString py).run x = (.ok part, rest)) : BulkFits py x := by
  have hfits : LineFits x := by
    rw [readBulkString_eq] at h
    exact lineFits_of_ok h
  refine ⟨hfits, ?_⟩
  intro raw mid n hline hn
  rw [readBulkString_of_line hfits hline] at h
  simp only [List.head?_cons, ne_eq, not_true_eq_false, if_false,
    List.tail_cons, parseLength_of_int hn] at h
  by_contra hbound
  rw [if_pos (Or.inr (not_le.mp hbound))] at h
  cases h

theorem along_of_ok :
    ∀ {n offset : Nat} {x rest : Bytes} {parts : List Bytes},
      (readBulkStrings py n).run x = (.ok parts, rest) →
      Decoder.Along (Aof.partDecoder py) (BulkFits py) n offset x
  | 0, _, _, _, _, _ => trivial
  | n + 1, offset, x, rest, parts, h => by
      simp only [readBulkStrings, Fallible.run_bind] at h
      rcases hpart : (readBulkString py).run x with ⟨e | part, mid⟩
      · rw [hpart] at h
        cases h
      · rw [hpart] at h
        dsimp only at h
        have hx := bulkFits_of_ok hpart
        refine ⟨hx, ?_⟩
        intro a rest' ha
        have hagrees := readBulkString_agrees hx offset
        rw [ha, hpart] at hagrees
        cases hagrees
        rcases hparts : (readBulkStrings py n).run mid with ⟨e | l, mid'⟩
        · rw [hparts] at h
          cases h
        · exact along_of_ok hparts

/-- A command that was read is within the bounds. -/
theorem frameFits_of_ok {parts : List Bytes}
    (h : (readCommand py).run x = (.ok (some parts), rest))
    (hne : parts ≠ []) (offset : Nat) : FrameFits py offset x := by
  have hfits : LineFits x := lineFits_of_ok h
  have hread : ∀ {raw mid : Bytes} {n : Int},
      lineDecoder Exc x = .done (42 :: raw) mid → py.int raw = some n →
      n ≤ maxMultibulkLength ∧
        ∃ l rest', (readBulkStrings py n.toNat).run mid = (.ok l, rest') := by
    intro raw mid n hline hn
    rw [readCommand_of_line hfits hline] at h
    simp only [List.head?_cons, ne_eq, not_true_eq_false, if_false,
      List.tail_cons, parseLength_of_int hn] at h
    split_ifs at h with hbound hsign
    · cases h
    · cases h
      exact absurd rfl hne
    · refine ⟨not_lt.mp hbound, ?_⟩
      rcases hparts : (readBulkStrings py n.toNat).run mid with ⟨e | l, t⟩
      · rw [hparts] at h
        cases h
      · exact ⟨l, t, rfl⟩
  refine ⟨⟨hfits, fun raw mid n hline hn => (hread hline hn).1⟩, ?_⟩
  intro raw mid n hline hn
  obtain ⟨-, l, rest', hparts⟩ := hread hline hn
  exact along_of_ok hparts

/-- So is one that the scanner read, if it is no longer than the reader
accepts and its header line fits. -/
theorem bulkFits_of_done {offset : Nat} {part : Bytes}
    (h : Aof.partDecoder py offset x = .done part rest)
    (hlength : part.length ≤ maxBulkLength) (hx : LineFits x) :
    BulkFits py x := by
  refine ⟨hx, ?_⟩
  intro raw mid n hline hn
  rw [Aof.partDecoder_of_line hline] at h
  simp only [Aof.bulkLength, List.head?_cons, ne_eq, not_true_eq_false,
    if_false, List.tail_cons, Aof.count_of_int hn, bind, Except.bind] at h
  split_ifs at h with hsign
  obtain ⟨m, rfl⟩ := Int.eq_ofNat_of_zero_le (not_lt.mp hsign)
  dsimp only at h
  by_cases hroom : mid.length < m + 2
  · rw [Aof.bodyDecoder_more hroom] at h
    cases h
  · rw [Aof.bodyDecoder_of_room (not_lt.mp hroom)] at h
    split_ifs at h
    cases h
    rw [List.length_take] at hlength
    omega

/-- A record whose header lines fit and that holds no more, and no longer,
parts than the reader accepts is within the bounds. -/
theorem frameFits_of_done {offset : Nat} {parts : List Bytes}
    (h : Aof.recordDecoder py offset x = .done parts rest)
    (hcount : parts.length ≤ maxMultibulkLength)
    (hlength : ∀ part ∈ parts, part.length ≤ maxBulkLength)
    (hx : HeadersFit py offset x) : FrameFits py offset x := by
  have hrow : ∀ {raw mid : Bytes} {n : Int},
      lineDecoder Exc x = .done (42 :: raw) mid → py.int raw = some n →
      Decoder.times (Aof.partDecoder py) n.toNat
        (offset + (x.length - mid.length)) mid = .done parts rest := by
    intro raw mid n hline hn
    rw [Aof.recordDecoder_of_line hline] at h
    simp only [Aof.multibulkLength, List.head?_cons, ne_eq,
      not_true_eq_false, if_false, List.tail_cons, Aof.count_of_int hn, bind,
      Except.bind] at h
    split_ifs at h
    exact h
  refine ⟨⟨hx.1, ?_⟩, ?_⟩
  · intro raw mid n hline hn
    have hlen := parts_length (hrow hline hn)
    omega
  · intro raw mid n hline hn
    refine Decoder.Along.of_done (P := LineFits) ?_ (hrow hline hn) hlength
      (hx.2 raw mid n hline hn)
    intro o y part mid' hdone hle hy
    exact bulkFits_of_done hdone hle hy

end Bounded

end Resp

namespace Aof

open Resp

/-- **The two decoders agree.** At every offset of every byte string: what the
wire reader takes for a command the log scanner takes for a record with the
same parts and the same end; a record within the bounds of the reader is a
command with the same parts and the same end; and within those bounds the
scanner finds the data torn exactly where the reader meets the end of the
stream, before a frame or inside one. -/
theorem decoders_agree (py : Interpreter) (data : Bytes) (offset : Nat)
    (hoffset : offset ≤ data.length) :
    (∀ parts rest,
      (readCommand py).run (data.drop offset) = (.ok (some parts), rest) →
      parts ≠ [] →
        ∃ n, offset + n ≤ data.length ∧ rest = data.drop (offset + n) ∧
          readRecord py data offset = .ok (some parts, offset + n)) ∧
    (∀ parts next,
      readRecord py data offset = .ok (some parts, next) →
      parts.length ≤ maxMultibulkLength →
      (∀ part ∈ parts, part.length ≤ maxBulkLength) →
      HeadersFit py offset (data.drop offset) →
        offset ≤ next ∧ next ≤ data.length ∧
          (readCommand py).run (data.drop offset) =
            (.ok (some parts), data.drop next)) ∧
    (FrameFits py offset (data.drop offset) →
      ((∃ next, readRecord py data offset = .ok (none, next)) ↔
        ∃ rest, (readCommand py).run (data.drop offset) = (.ok none, rest) ∨
          (readCommand py).run (data.drop offset) =
            (.error .connection, rest))) := by
  refine ⟨?_, ?_, ?_⟩
  · intro parts rest h hne
    have hagrees := readCommand_agrees (frameFits_of_ok h hne offset)
    rw [h] at hagrees
    generalize hrecord : recordDecoder py offset (data.drop offset) =
      verdict at hagrees
    cases hagrees with
    | command _ _ _ =>
        obtain ⟨-, hless, hnext, hrest, hread⟩ :=
          readRecord_of_done rfl hoffset hrecord
        refine ⟨(data.drop offset).length - rest.length, ?_, ?_, ?_⟩
        · omega
        · rw [hnext]
          exact hrest
        · rw [hnext]
          exact hread
    | noop e rest =>
        exact absurd rfl hne
  · intro parts next h hcount hlength hfits
    rw [readRecord_eq] at h
    cases hrecord : recordDecoder py offset (data.drop offset) with
    | more =>
        rw [hrecord] at h
        cases h
    | fail e =>
        rw [hrecord] at h
        cases h
    | done parts' rest =>
        rw [hrecord] at h
        cases h
        obtain ⟨-, hless, hnext, hrest, -⟩ :=
          readRecord_of_done rfl hoffset hrecord
        have hagrees := readCommand_agrees
          (frameFits_of_done hrecord hcount hlength hfits)
        rw [hrecord] at hagrees
        refine ⟨by omega, by omega, ?_⟩
        rw [← hrest]
        generalize (readCommand py).run (data.drop offset) = outcome at hagrees
        cases hagrees
        rfl
  · intro hfits
    have hagrees := readCommand_agrees hfits
    rw [readRecord_eq]
    generalize recordDecoder py offset (data.drop offset) = verdict at hagrees ⊢
    generalize (readCommand py).run (data.drop offset) = outcome at hagrees ⊢
    cases hagrees with
    | command parts rest _ =>
        simp
    | ended =>
        exact iff_of_true ⟨_, rfl⟩ ⟨_, Or.inl rfl⟩
    | torn rest =>
        exact iff_of_true ⟨_, rfl⟩ ⟨_, Or.inr rfl⟩
    | noop e rest =>
        simp
    | refused e e' rest he' =>
        simp [he']

/-- A request of one argument, whole and cut off within its payload. -/
theorem decoders_agree_on_ping :
    (∃ n, 0 + n ≤ (encodeRecord [ascii "PING"]).length ∧
      [] = (encodeRecord [ascii "PING"]).drop (0 + n) ∧
      readRecord Interpreter.default (encodeRecord [ascii "PING"]) 0 =
        .ok (some [ascii "PING"], 0 + n)) ∧
    ∃ next, readRecord Interpreter.default (ascii "*1\r\n$4\r\nPI") 0 =
      .ok (none, next) := by
  constructor
  · exact (decoders_agree Interpreter.default (encodeRecord [ascii "PING"]) 0
      (by decide)).1 [ascii "PING"] [] (by decide +kernel) (by decide)
  · have hread : (readCommand Interpreter.default).run
        (ascii "*1\r\n$4\r\nPI" ++ ascii "NG\r\n") =
          (.ok (some [ascii "PING"]), []) := by
      decide +kernel
    have hwhole := frameFits_of_ok hread (by decide) 0
    exact ((decoders_agree Interpreter.default (ascii "*1\r\n$4\r\nPI") 0
      (by decide)).2.2 hwhole.of_append).mpr
        ⟨[], Or.inr (by decide +kernel)⟩

end Aof

end PyRedis
