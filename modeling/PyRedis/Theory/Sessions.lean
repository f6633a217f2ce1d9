import PyRedis.Core.Connection
import PyRedis.Theory.RequestFraming

/-!
# One client session

A client sends frames one after another: requests, and the empty and null
arrays that are answered with silence.  The reader takes exactly the bytes of
one frame, whatever its payloads hold and whatever follows.  A frame that is
cut off reads as a disconnect, and a protocol error stays one however the
stream goes on.  So a session answers the complete requests in order, each of
them once, and nothing else.
-/

namespace PyRedis

open Foundation

namespace Resp

section Headers

variable {py : Interpreter} {kind : UInt8} {raw : Bytes}

theorem lineDecoder_header (hkind : cr ≠ kind) (hraw : cr ∉ raw)
    (y : Bytes) :
    lineDecoder Exc (kind :: raw ++ crlf ++ y) = .done (kind :: raw) y := by
  refine encodes_line ?_ y
  simp only [List.mem_cons, not_or]
  exact ⟨hkind, hraw⟩

theorem lineFits_header (hkind : cr ≠ kind) (hraw : cr ∉ raw)
    (hlen : raw.length < streamLimit) (y : Bytes) :
    LineFits (kind :: raw ++ crlf ++ y) := by
  have hmem : cr ∉ kind :: raw := by
    simp only [List.mem_cons, not_or]
    exact ⟨hkind, hraw⟩
  simp only [LineFits, findCrlf_append hmem, List.length_cons]
  omega

theorem claimFits_header {n bound : Int} (hkind : cr ≠ kind)
    (hraw : cr ∉ raw) (hint : py.int raw = some n) (hn : n ≤ bound)
    (y : Bytes) : ClaimFits py kind bound (kind :: raw ++ crlf ++ y) := by
  intro raw' rest m hline hm
  rw [lineDecoder_header hkind hraw] at hline
  cases hline
  rw [hint] at hm
  cases hm
  exact hn

theorem length_str_lt {n : Nat} (h : n ≤ 2 ^ 63) :
    (str n).length < streamLimit := by
  have hlt : n < 10 ^ 19 :=
    calc n ≤ 2 ^ 63 := h
      _ < 10 ^ 19 := by norm_num
  have hlen := Decimal.natText_length_le (by norm_num) hlt
  have htext := Decimal.intText_length_le (n : Int)
  rw [Int.natAbs_natCast] at htext
  have hlimit : streamLimit = 2 ^ 16 := rfl
  have hstr : (str n).length ≤ 20 := by
    unfold str
    omega
  omega

theorem int_str_length (py : Interpreter) {n : Nat} (h : n ≤ 2 ^ 63) :
    py.int (str n) = some (n : Int) :=
  int_str py (n := (n : Int)) (py.reads_of_le_word h)

end Headers

section Requests

variable {py : Interpreter}

/-- What the reader accepts as a request. -/
structure ValidRequest (parts : List Bytes) : Prop where
  nonempty : parts ≠ []
  count : parts.length ≤ maxMultibulkLength
  length : ∀ part ∈ parts, part.length ≤ maxBulkLength

theorem le_word_of_le_bulk {n : Nat} (h : (n : Int) ≤ maxBulkLength) :
    n ≤ 2 ^ 63 := by
  unfold maxBulkLength at h
  omega

theorem le_word_of_le_multibulk {n : Nat}
    (h : (n : Int) ≤ maxMultibulkLength) : n ≤ 2 ^ 63 := by
  unfold maxMultibulkLength at h
  omega

theorem ValidRequest.readable {parts : List Bytes}
    (h : ValidRequest parts) : Aof.ReadableRecord py parts where
  nonempty := h.nonempty
  count := py.reads_of_le_word (le_word_of_le_multibulk h.count)
  part part hpart :=
    py.reads_of_le_word (le_word_of_le_bulk (h.length part hpart))

/-- The reader takes a bulk string off the stream whatever it holds and
whatever follows it. -/
theorem readBulkString_encoded {part : Bytes}
    (h : part.length ≤ maxBulkLength) (y : Bytes) :
    (readBulkString py).run (encodeBulkString part ++ y) =
      (.ok part, y) := by
  have hword := le_word_of_le_bulk h
  have hform : encodeBulkString part ++ y =
      36 :: str part.length ++ crlf ++ (part ++ crlf ++ y) := by
    simp [encodeBulkString, ascii]
  have hfits : BulkFits py (encodeBulkString part ++ y) := by
    rw [hform]
    exact ⟨lineFits_header (by decide) (Aof.cr_not_mem_str _)
        (length_str_lt hword) _,
      claimFits_header (by decide) (Aof.cr_not_mem_str _)
        (int_str_length py hword) h _⟩
  have hagrees := readBulkString_agrees hfits 0
  rw [Aof.encodes_part (py.reads_of_le_word hword) 0 y] at hagrees
  generalize (readBulkString py).run (encodeBulkString part ++ y) =
    outcome at hagrees ⊢
  cases hagrees
  rfl

theorem readBulkStrings_encoded {parts : List Bytes}
    (h : ∀ part ∈ parts, part.length ≤ maxBulkLength) (y : Bytes) :
    (readBulkStrings py parts.length).run
        (parts.flatMap encodeBulkString ++ y) = (.ok parts, y) := by
  induction parts with
  | nil =>
      rfl
  | cons part parts ih =>
      have hrest := ih fun p hp => h p (List.mem_cons_of_mem _ hp)
      rw [List.flatMap_cons, List.append_assoc]
      simp only [List.length_cons, readBulkStrings, Fallible.run_bind,
        readBulkString_encoded (h part (by simp)), hrest,
        Fallible.run_pure]

/-- It takes exactly the bytes of a request. -/
theorem readCommand_encoded {parts : List Bytes} (h : ValidRequest parts)
    (y : Bytes) :
    (readCommand py).run (encodeArray parts ++ y) =
      (.ok (some parts), y) := by
  have hword := le_word_of_le_multibulk h.count
  have hform : encodeArray parts ++ y =
      42 :: str parts.length ++ crlf ++
        (parts.flatMap encodeBulkString ++ y) := by
    simp [encodeArray, ascii]
  have hpos : ¬ (parts.length : Int) ≤ 0 := by
    have := List.length_pos_of_ne_nil h.nonempty
    omega
  rw [hform, readCommand_of_line
    (lineFits_header (by decide) (Aof.cr_not_mem_str _)
      (length_str_lt hword) _)
    (lineDecoder_header (by decide) (Aof.cr_not_mem_str _) _)]
  simp only [List.head?_cons, ne_eq, not_true_eq_false, if_false,
    List.tail_cons, parseLength_of_int (int_str_length py hword),
    not_lt.mpr h.count, hpos, Int.toNat_natCast,
    readBulkStrings_encoded h.length]
  rfl

/-- An array header that claims no parts is a frame of its own. -/
theorem readCommand_noop (raw : Bytes) {n : Int} (hraw : cr ∉ raw)
    (hlen : raw.length < streamLimit) (hint : py.int raw = some n)
    (hn : n ≤ 0) (y : Bytes) :
    (readCommand py).run (42 :: raw ++ crlf ++ y) = (.ok (some []), y) := by
  have hbound : ¬ maxMultibulkLength < n := by
    unfold maxMultibulkLength
    omega
  rw [readCommand_of_line (lineFits_header (by decide) hraw hlen _)
    (lineDecoder_header (by decide) hraw _)]
  simp only [List.head?_cons, ne_eq, not_true_eq_false, if_false,
    List.tail_cons, parseLength_of_int hint, hbound, hn, if_true]

/-- A reader at the end of the stream, before a frame or inside one. -/
def RunsOut (py : Interpreter) (x : Bytes) : Prop :=
  ∃ rest, (readCommand py).run x = (.ok none, rest) ∨
    (readCommand py).run x = (.error .connection, rest)

/-- Where a request is cut off, the reader runs out. -/
theorem runsOut_of_request {parts : List Bytes} (h : ValidRequest parts)
    {p q : Bytes} (hpq : p ++ q = encodeArray parts) (hq : q ≠ []) :
    RunsOut py p := by
  have hread : (readCommand py).run (encodeArray parts ++ []) = _ :=
    readCommand_encoded h []
  rw [List.append_nil, ← hpq] at hread
  have hfits := (frameFits_of_ok hread h.nonempty 0).of_append
  have hreadable : Aof.ReadableRecord py parts := h.readable
  have hword := Aof.encodes_record hreadable 0
  rw [encodeRecord, ← hpq] at hword
  have hmore := Decoder.more_of_begins (Aof.incremental_record 0) hword hq
  have hagrees := readCommand_agrees hfits
  rw [hmore] at hagrees
  unfold RunsOut
  generalize (readCommand py).run p = outcome at hagrees ⊢
  cases hagrees with
  | ended =>
      exact ⟨_, Or.inl rfl⟩
  | torn rest =>
      exact ⟨rest, Or.inr rfl⟩

/-- Where a header line is cut off, it runs out too. -/
theorem runsOut_of_line (line : Bytes) {p q : Bytes} (hline : cr ∉ line)
    (hlen : line.length ≤ streamLimit) (hpq : p ++ q = line ++ crlf)
    (hq : q ≠ []) : RunsOut py p := by
  have hword : Decoder.Encodes (lineDecoder Exc) (p ++ q) line := by
    rw [hpq]
    exact encodes_line hline
  have hmore := Decoder.more_of_begins incremental_line hword hq
  have hnone : findCrlf p = none := by
    unfold lineDecoder at hmore
    split at hmore
    · assumption
    · cases hmore
  have hfits : LineFits p := by
    have hpos := List.length_pos_of_ne_nil hq
    have htotal := congrArg List.length hpq
    simp only [List.length_append, crlf, List.length_cons,
      List.length_nil] at htotal
    simp only [LineFits, hnone]
    omega
  unfold RunsOut
  simp only [readCommand, Fallible.run_bind, readLine_of_more hfits hnone,
    true_and]
  by_cases hp : p = []
  · exact ⟨[], Or.inl (by simp [hp])⟩
  · exact ⟨[], Or.inr (by simp [hp])⟩

end Requests

section Finality

variable {α β : Type}

/-- What a reader got out of the front of a stream, and what it objected to,
stays so however the stream goes on. -/
structure Final (c : Fallible ReadError Bytes α) : Prop where
  ok : ∀ {x a rest}, c.run x = (.ok a, rest) →
    ∀ y, c.run (x ++ y) = (.ok a, rest ++ y)
  protocol : ∀ {x m rest}, c.run x = (.error (.protocol m), rest) →
    ∀ y, ∃ rest', c.run (x ++ y) = (.error (.protocol m), rest')

namespace Final

theorem pure (a : α) : Final (pure a : Fallible ReadError Bytes α) where
  ok := by
    intro x b rest h y
    cases h
    rfl
  protocol := by
    intro x m rest h
    cases h

theorem raise (e : ReadError) :
    Final (Fallible.raise e : Fallible ReadError Bytes α) where
  ok := by
    intro x a rest h
    cases h
  protocol := by
    intro x m rest h y
    cases h
    exact ⟨x ++ y, rfl⟩

theorem ofExcept (r : Except ReadError α) :
    Final (Fallible.ofExcept r : Fallible ReadError Bytes α) := by
  cases r with
  | error e =>
      exact raise e
  | ok a =>
      exact pure a

theorem bind {c : Fallible ReadError Bytes α}
    {k : α → Fallible ReadError Bytes β} (hc : Final c)
    (hk : ∀ a, Final (k a)) : Final (c >>= k) where
  ok := by
    intro x b rest h y
    rw [Fallible.run_bind] at h ⊢
    rcases hx : c.run x with ⟨e | a, mid⟩
    · rw [hx] at h
      cases h
    · rw [hx] at h
      rw [hc.ok hx y]
      exact (hk a).ok h y
  protocol := by
    intro x m rest h y
    rw [Fallible.run_bind] at h ⊢
    rcases hx : c.run x with ⟨e | a, mid⟩
    · rw [hx] at h
      cases h
      obtain ⟨rest', hxy⟩ := hc.protocol hx y
      exact ⟨rest', by rw [hxy]⟩
    · rw [hx] at h
      rw [hc.ok hx y]
      exact (hk a).protocol h y

theorem ite {c d : Fallible ReadError Bytes α} (p : Prop) [Decidable p]
    (hc : Final c) (hd : Final d) : Final (if p then c else d) := by
  split_ifs
  · exact hc
  · exact hd

end Final

/-- A header line that is too long remains too long. -/
theorem not_lineFits_append {x : Bytes} (h : ¬ LineFits x) (y : Bytes) :
    ¬ LineFits (x ++ y) :=
  fun hxy => h hxy.of_append

theorem final_readLine : Final (readLine false) where
  ok := by
    intro x line rest h y
    by_cases hx : LineFits x
    · cases hfind : findCrlf x with
      | none =>
          rw [readLine_of_more hx hfind] at h
          simp at h
      | some i =>
          have hline : lineDecoder Exc x =
              .done (x.take i) (x.drop (i + 2)) :=
            lineDecoder_of_some hfind
          obtain ⟨c, hc, hlonger⟩ := incremental_line.done_local hline
          have hxy := hlonger (x.drop (i + 2) ++ y)
          rw [← List.append_assoc, ← hc] at hxy
          rw [readLine_of_line hx hline] at h
          cases h
          refine readLine_of_line ?_ hxy false
          have hle := findCrlf_le hfind
          have hfind' := findCrlf_take_append hfind (x.drop (i + 2) ++ y)
          rw [← List.append_assoc, List.take_append_drop] at hfind'
          simp only [LineFits, hfind] at hx
          simpa only [LineFits, hfind'] using hx
    · rw [readLine_overrun hx] at h
      cases h
  protocol := by
    intro x m rest h y
    by_cases hx : LineFits x
    · cases hfind : findCrlf x with
      | none =>
          rw [readLine_of_more hx hfind] at h
          simp at h
      | some i =>
          have hline : lineDecoder Exc x =
              .done (x.take i) (x.drop (i + 2)) :=
            lineDecoder_of_some hfind
          rw [readLine_of_line hx hline] at h
          cases h
    · rw [readLine_overrun hx] at h
      cases h
      exact ⟨x ++ y, readLine_overrun (not_lineFits_append hx y) false⟩

theorem readBody_short {n : Nat} {x : Bytes} (h : x.length < n + 2) :
    (readBody n).run x = (.error .connection, []) := by
  have hread : (readexactly (n + crlf.length)).run x =
      (.error (.incompleteRead x), []) :=
    if_pos h
  simp only [readBody_run, hread]

/-- With the whole payload and two bytes more at hand, what follows does not
matter. -/
theorem readBody_append {n : Nat} {x : Bytes} (h : n + 2 ≤ x.length)
    (y : Bytes) :
    (readBody n).run (x ++ y) =
      (((readBody n).run x).1, ((readBody n).run x).2 ++ y) := by
  have hread : ∀ z, (readexactly (n + crlf.length)).run (x ++ z) =
      (.ok (x.take (n + 2)), x.drop (n + 2) ++ z) := by
    intro z
    have hlen : ¬ (x ++ z).length < n + crlf.length := by
      simp only [List.length_append, crlf, List.length_cons,
        List.length_nil]
      omega
    have hcrlf : crlf.length = 2 := rfl
    simp only [readexactly, Fallible.run, if_neg hlen]
    rw [hcrlf, List.take_append_of_le_length h,
      List.drop_append_of_le_length h]
  have hself := hread []
  rw [List.append_nil, List.append_nil] at hself
  simp only [readBody_run, hread y, hself]
  split_ifs <;> rfl

theorem final_readBody (n : Nat) : Final (readBody n) where
  ok := by
    intro x a rest h y
    by_cases hx : n + 2 ≤ x.length
    · rw [readBody_append hx, h]
    · rw [readBody_short (not_le.mp hx)] at h
      cases h
  protocol := by
    intro x m rest h y
    by_cases hx : n + 2 ≤ x.length
    · exact ⟨rest ++ y, by rw [readBody_append hx, h]⟩
    · rw [readBody_short (not_le.mp hx)] at h
      cases h

variable (py : Interpreter)

theorem final_readBulkString : Final (readBulkString py) := by
  rw [readBulkString_eq]
  refine final_readLine.bind fun line => ?_
  cases line with
  | none =>
      exact Final.raise _
  | some header =>
      refine Final.ite _ (Final.raise _) ?_
      refine (Final.ofExcept _).bind fun length => ?_
      exact Final.ite _ (Final.raise _) (final_readBody _)

theorem final_readBulkStrings : ∀ n, Final (readBulkStrings py n)
  | 0 => Final.pure []
  | n + 1 =>
      (final_readBulkString py).bind fun part =>
        (final_readBulkStrings n).bind fun parts =>
          Final.pure (part :: parts)

/-- What the reader of commands does with the first line it finds. -/
def commandAfter :
    Option Bytes → Fallible ReadError Bytes (Option (List Bytes))
  | none => pure none
  | some header =>
      if header.head? ≠ some 42 then
        Fallible.raise (.protocol (unexpected "*" header))
      else do
        let count ← Fallible.ofExcept
          (parseLength py header.tail "invalid multibulk length")
        if maxMultibulkLength < count then
          Fallible.raise (.protocol "invalid multibulk length")
        else if count ≤ 0 then
          pure (some [])
        else do
          let parts ← readBulkStrings py count.toNat
          pure (some parts)

theorem readCommand_eq :
    readCommand py = readLine true >>= commandAfter py := by
  rfl

theorem final_commandAfter : ∀ line, Final (commandAfter py line)
  | none => Final.pure none
  | some _ =>
      Final.ite _ (Final.raise _) ((Final.ofExcept _).bind fun count =>
        Final.ite _ (Final.raise _) (Final.ite _ (Final.pure _)
          ((final_readBulkStrings py count.toNat).bind fun parts =>
            Final.pure (some parts))))

/-- An empty stream is the only one on which it matters whether the stream may
end before a line. -/
theorem readLine_eq_of_ne_nil {x : Bytes} (h : x ≠ []) :
    (readLine true).run x = (readLine false).run x := by
  by_cases hx : LineFits x
  · cases hfind : findCrlf x with
    | none =>
        simp [readLine_of_more hx hfind, h]
    | some i =>
        have hline : lineDecoder Exc x =
            .done (x.take i) (x.drop (i + 2)) :=
          lineDecoder_of_some hfind
        rw [readLine_of_line hx hline, readLine_of_line hx hline]
  · rw [readLine_overrun hx, readLine_overrun hx]

/-- A protocol error stays one however the stream goes on. -/
theorem readCommand_protocol_append {x : Bytes} {m : String} {rest : Bytes}
    (h : (readCommand py).run x = (.error (.protocol m), rest)) (y : Bytes) :
    ∃ rest', (readCommand py).run (x ++ y) =
      (.error (.protocol m), rest') := by
  have hx : x ≠ [] := by
    rintro rfl
    cases h
  have hxy : x ++ y ≠ [] := fun hnil => hx (List.append_eq_nil_iff.mp hnil).1
  have hfinal := final_readLine.bind (final_commandAfter py)
  have heager : ∀ {z : Bytes}, z ≠ [] → (readCommand py).run z =
      (readLine false >>= commandAfter py).run z := by
    intro z hz
    simp only [readCommand_eq, Fallible.run_bind, readLine_eq_of_ne_nil hz]
  rw [heager hx] at h
  rw [heager hxy]
  exact hfinal.protocol h y

end Finality

end Resp

namespace Connection

open Resp

section Frames

/-- What a client sends: a request, or an array header without parts. -/
inductive Frame where
  | request (parts : List Bytes)
  | emptyArray
  | nullArray

namespace Frame

/-- The bytes of a frame. -/
def bytes : Frame → Bytes
  | request parts => encodeArray parts
  | emptyArray => ascii "*0\r\n"
  | nullArray => ascii "*-1\r\n"

/-- The requests a frame stands for: one, or none. -/
def requests : Frame → List (List Bytes)
  | request parts => [parts]
  | _ => []

/-- A request is one the reader accepts. -/
def Valid : Frame → Prop
  | request parts => ValidRequest parts
  | _ => True

variable {py : Interpreter}

theorem bytes_ne_nil (frame : Frame) : frame.bytes ≠ [] := by
  cases frame with
  | request parts =>
      exact Aof.encodeRecord_ne_nil parts
  | emptyArray =>
      decide
  | nullArray =>
      decide

theorem readCommand_request {parts : List Bytes}
    (h : (request parts).Valid) (y : Bytes) :
    (readCommand py).run ((request parts).bytes ++ y) =
      (.ok (some parts), y) :=
  readCommand_encoded h y

theorem readCommand_emptyArray (y : Bytes) :
    (readCommand py).run (emptyArray.bytes ++ y) = (.ok (some []), y) := by
  have hint : py.int (str 0) = some 0 :=
    int_str py (py.reads_of_le_word (by norm_num))
  exact readCommand_noop (str 0) (by decide) (by decide) hint
    le_rfl y

theorem readCommand_nullArray (y : Bytes) :
    (readCommand py).run (nullArray.bytes ++ y) = (.ok (some []), y) := by
  have hint : py.int (str (-1)) = some (-1) :=
    int_str py (py.reads_of_le_word (by norm_num))
  exact readCommand_noop (str (-1)) (by decide) (by decide) hint
    (by decide) y

/-- The reader runs out wherever a frame is cut off. -/
theorem runsOut {frame : Frame} (h : frame.Valid) {p q : Bytes}
    (hpq : p ++ q = frame.bytes) (hq : q ≠ []) : RunsOut py p := by
  cases frame with
  | request parts =>
      exact runsOut_of_request h hpq hq
  | emptyArray =>
      exact runsOut_of_line (ascii "*0") (by decide) (by decide)
        hpq hq
  | nullArray =>
      exact runsOut_of_line (ascii "*-1") (by decide) (by decide)
        hpq hq

end Frame

end Frames

section Answers

variable {J : Type} [Journal J] (py : Interpreter)

/-- The reply to one request and the state it leaves; an exception is answered
in general terms. -/
def answer (state : KeyValueStore × J) (request : List Bytes) :
    Bytes × (KeyValueStore × J) :=
  match (Commands.dispatch py request).run state with
  | (.ok reply, state') => (reply, state')
  | (.error _, state') => (internalError, state')

/-- The replies to requests applied one after another. -/
def answers :
    KeyValueStore × J → List (List Bytes) → Bytes × (KeyValueStore × J)
  | state, [] => ([], state)
  | state, request :: requests =>
      let first := answer py state request
      let others := answers first.2 requests
      (first.1 ++ others.1, others.2)

/-- How the bytes after the last whole frame end a session, and what is
written then: the stream ends there or within a frame, or the reader objects
to some bytes, whatever follows them. -/
inductive Ending (py : Interpreter) : Bytes → Bytes → Prop
  | closed : Ending py [] []
  | torn (frame : Frame) (h : frame.Valid) (p q : Bytes)
      (hpq : p ++ q = frame.bytes) (hq : q ≠ []) : Ending py p []
  | broken (bad junk rest : Bytes) (message : String)
      (h : (readCommand py).run bad = (.error (.protocol message), rest)) :
      Ending py (bad ++ junk) (protocolError message)

variable {py}

theorem serve_of_runsOut {x : Bytes} (h : RunsOut py x) (passes : Nat)
    (written : Bytes) (store : KeyValueStore) (journal : J) :
    serve py (passes + 1) x written store journal =
      some ⟨written, false, store, journal⟩ := by
  obtain ⟨rest, hnone | hgone⟩ := h
  · simp only [serve, hnone]
  · simp only [serve, hgone]

theorem serve_ending {tail last : Bytes} (h : Ending py tail last)
    (passes : Nat) (written : Bytes) (store : KeyValueStore) (journal : J) :
    serve py (passes + 1) tail written store journal =
      some ⟨written ++ last, false, store, journal⟩ := by
  cases h with
  | closed =>
      have hclosed : RunsOut py [] := ⟨[], Or.inl rfl⟩
      rw [List.append_nil]
      exact serve_of_runsOut hclosed passes written store journal
  | torn frame h p q hpq hq =>
      rw [List.append_nil]
      exact serve_of_runsOut (Frame.runsOut h hpq hq) passes written store
        journal
  | broken bad junk rest message h =>
      obtain ⟨rest', hread⟩ := readCommand_protocol_append py h junk
      simp only [serve, hread]

/-- One frame of a session: its requests are answered, and the session goes on
with exactly the bytes behind it. -/
theorem serve_frame {frame : Frame} (h : frame.Valid) (passes : Nat)
    (stream written : Bytes) (store : KeyValueStore) (journal : J) :
    serve py (passes + 1) (frame.bytes ++ stream) written store journal =
      serve py passes stream
        (written ++ (answers py (store, journal) frame.requests).1)
        (answers py (store, journal) frame.requests).2.1
        (answers py (store, journal) frame.requests).2.2 := by
  cases frame with
  | request parts =>
      obtain ⟨name, args, rfl⟩ := List.exists_cons_of_ne_nil h.nonempty
      simp only [serve, Frame.readCommand_request h, Frame.requests, answers,
        answer, List.append_nil]
      rcases (Commands.dispatch py (name :: args)).run (store, journal) with
        ⟨e | reply, store', journal'⟩ <;> rfl
  | emptyArray =>
      simp only [serve, Frame.readCommand_emptyArray, Frame.requests, answers,
        List.append_nil]
  | nullArray =>
      simp only [serve, Frame.readCommand_nullArray, Frame.requests, answers,
        List.append_nil]

theorem answers_append (state : KeyValueStore × J)
    (requests requests' : List (List Bytes)) :
    answers py state (requests ++ requests') =
      ((answers py state requests).1 ++
          (answers py (answers py state requests).2 requests').1,
        (answers py (answers py state requests).2 requests').2) := by
  induction requests generalizing state with
  | nil =>
      simp [answers]
  | cons request requests ih =>
      simp only [List.cons_append, answers, ih, List.append_assoc]

theorem serve_frames {frames : List Frame} {tail last : Bytes}
    (hframes : ∀ frame ∈ frames, frame.Valid) (h : Ending py tail last) :
    ∀ (passes : Nat) (written : Bytes) (store : KeyValueStore) (journal : J),
      (frames.flatMap Frame.bytes ++ tail).length < passes →
      serve py passes (frames.flatMap Frame.bytes ++ tail) written store
          journal =
        some ⟨written ++ (answers py (store, journal)
              (frames.flatMap Frame.requests)).1 ++ last, false,
          (answers py (store, journal) (frames.flatMap Frame.requests)).2.1,
          (answers py (store, journal)
            (frames.flatMap Frame.requests)).2.2⟩ := by
  induction frames with
  | nil =>
      intro passes written store journal hpasses
      obtain ⟨passes, rfl⟩ : ∃ n, passes = n + 1 := ⟨passes - 1, by omega⟩
      simpa [answers] using serve_ending h passes written store journal
  | cons frame frames ih =>
      intro passes written store journal hpasses
      have hhead := hframes frame (by simp)
      have htail := ih fun f hf => hframes f (List.mem_cons_of_mem _ hf)
      have hbytes := List.length_pos_of_ne_nil frame.bytes_ne_nil
      rw [List.flatMap_cons, List.append_assoc, List.length_append] at hpasses
      obtain ⟨passes, rfl⟩ : ∃ n, passes = n + 1 := ⟨passes - 1, by omega⟩
      rw [List.flatMap_cons, List.append_assoc, serve_frame hhead,
        htail passes _ _ _ (by omega), List.flatMap_cons, answers_append,
        List.append_assoc written]

/-- **One session, one ordered reply per command.** A session writes the
replies to the complete requests, applied one after another to the store and
the journal, then the one error that ends it, if there is one; no frame
without parts and no unfinished frame leaves a trace. -/
theorem session_answers_requests (py : Interpreter) (frames : List Frame)
    (hframes : ∀ frame ∈ frames, frame.Valid) (tail last : Bytes)
    (h : Ending py tail last) (store : KeyValueStore) (journal : J) :
    handleConnection py (frames.flatMap Frame.bytes ++ tail) store journal =
      some ⟨(answers py (store, journal)
            (frames.flatMap Frame.requests)).1 ++ last, false,
        (answers py (store, journal) (frames.flatMap Frame.requests)).2.1,
        (answers py (store, journal)
          (frames.flatMap Frame.requests)).2.2⟩ := by
  have hserve := serve_frames hframes h _ [] store journal
    (Nat.lt_succ_self _)
  simpa only [handleConnection, List.nil_append] using hserve

/-- A request, a frame without parts, and bytes that are no frame. -/
theorem session_answers_ping :
    handleConnection Interpreter.default
      ([Frame.request [ascii "PING"], Frame.nullArray].flatMap Frame.bytes ++
        (ascii "PING\r\n" ++ ascii "*1\r\n"))
      (KeyValueStore.init (Clock.frozen 0) 0 .noeviction) (⟨⟩ : NullJournal) =
    some ⟨ascii "+PONG\r\n" ++
        ascii "-ERR Protocol error: expected '*', got 'P'\r\n",
      false, KeyValueStore.init (Clock.frozen 0) 0 .noeviction, ⟨⟩⟩ := by
  have hlast : protocolError (unexpected "*" (ascii "PING")) =
      ascii "-ERR Protocol error: expected '*', got 'P'\r\n" := by
    decide +kernel
  have hread : (readCommand Interpreter.default).run (ascii "PING\r\n") =
      (.error (.protocol (unexpected "*" (ascii "PING"))), []) := by
    decide +kernel
  have hending := Ending.broken _ (ascii "*1\r\n") [] _ hread
  rw [hlast] at hending
  refine session_answers_requests Interpreter.default
    [Frame.request [ascii "PING"], Frame.nullArray] ?_ _ _ hending
    (KeyValueStore.init (Clock.frozen 0) 0 .noeviction) (⟨⟩ : NullJournal)
  intro frame hframe
  rcases List.mem_pair.mp hframe with rfl | rfl
  · exact ⟨by decide, by decide, by decide⟩
  · trivial

end Answers

end Connection

end PyRedis
