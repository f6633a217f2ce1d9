import PyRedis.Core.Commands
import PyRedis.Theory.RecordFraming

/-!
# Replies as frames

The grammar of replies as a decoder: what a client makes of the bytes it gets.
Every reply is a code word of it, so a client that reads a reply finds the end
of it where the server put it, whatever follows.  Texts stay on one line since
their line ends are replaced and no other character is encoded with the bytes
of one; payloads are kept apart by their length.
-/

namespace PyRedis

open Foundation

namespace Resp

section Grammar

/-- What a reply says. -/
inductive Reply where
  | simple (line : Bytes)
  | error (line : Bytes)
  | integer (n : Int)
  | bulk (payload : Bytes)
  | null
deriving DecidableEq

/-- A line that holds no part of a line end. -/
def wholeLine (line : Bytes) : Except Unit Bytes :=
  if cr ∈ line ∨ lf ∈ line then .error () else .ok line

/-- The payload of a bulk string, which ends with CRLF. -/
def bulkPayload (length : Nat) (body : Bytes) : Except Unit Reply :=
  if body.drop length = crlf then .ok (.bulk (body.take length))
  else .error ()

/-- What follows the first line of a reply, which tells its kind. -/
def replyAfter : Bytes → Decoder UInt8 Unit Reply
  | 43 :: line => Decoder.ofExcept ((wholeLine line).map .simple)
  | 45 :: line => Decoder.ofExcept ((wholeLine line).map .error)
  | 58 :: raw =>
      match Interpreter.exact.int raw with
      | some n => Decoder.ofExcept (.ok (.integer n))
      | none => Decoder.ofExcept (.error ())
  | 36 :: raw =>
      match Interpreter.exact.int raw with
      | some (Int.ofNat n) =>
          (Decoder.take (n + crlf.length)).andThen fun body _ =>
            Decoder.ofExcept (bulkPayload n body)
      | some n =>
          Decoder.ofExcept (if n = -1 then .ok .null else .error ())
      | none => Decoder.ofExcept (.error ())
  | _ => Decoder.ofExcept (.error ())

/-- The grammar of RESP2 replies. -/
def replyDecoder : Decoder UInt8 Unit Reply :=
  (lineDecoder Unit).andThen fun line _ => replyAfter line

/-- The bytes are one reply, and its end can be told whatever follows. -/
def OneFrame (bytes : Bytes) : Prop :=
  ∃ reply, ∀ rest, replyDecoder (bytes ++ rest) = .done reply rest

end Grammar

section Text

/-- Only an ASCII character is encoded with an ASCII byte. -/
theorem toNat_of_mem_utf8EncodeChar {c : Char} {b : UInt8}
    (h : b ∈ String.utf8EncodeChar c) (hb : b.toNat < 128) :
    c.toNat = b.toNat := by
  unfold String.utf8EncodeChar at h
  change _ ∈ ite (c.toNat ≤ 127) _ _ at h
  split_ifs at h with hascii
  · rw [List.mem_singleton.mp h, UInt8.toNat_ofNat']
    exact (Nat.mod_eq_of_lt (by omega)).symm
  -- Every byte of a longer encoding has its highest bit set.
  · simp only [List.mem_cons, List.not_mem_nil, or_false] at h
    rcases h with rfl | rfl <;>
      rw [UInt8.toNat_ofNat'] at hb <;> omega
  · simp only [List.mem_cons, List.not_mem_nil, or_false] at h
    rcases h with rfl | rfl | rfl <;>
      rw [UInt8.toNat_ofNat'] at hb <;> omega
  · simp only [List.mem_cons, List.not_mem_nil, or_false] at h
    rcases h with rfl | rfl | rfl | rfl <;>
      rw [UInt8.toNat_ofNat'] at hb <;> omega

theorem not_mem_singleLine {c : Char} (hc : c = '\r' ∨ c = '\n')
    (message : String) : c ∉ (singleLine message).toList := by
  simp only [singleLine, String.toList_map, List.mem_map, not_exists,
    not_and]
  intro d _ hd
  split_ifs at hd with hend
  · subst hd
    revert hc
    decide
  · subst hd
    exact hend hc

/-- A text whose line ends were replaced is encoded without one. -/
theorem not_mem_utf8_singleLine {b : UInt8} (hb : b = cr ∨ b = lf)
    (message : String) : b ∉ utf8 (singleLine message) := by
  intro hmem
  obtain ⟨c, hc, hbc⟩ := List.mem_flatMap.mp hmem
  have hsmall : b.toNat < 128 := by
    rcases hb with rfl | rfl <;> decide
  have hnat := toNat_of_mem_utf8EncodeChar hbc hsmall
  refine not_mem_singleLine ?_ message hc
  rcases hb with rfl | rfl
  · exact Or.inl (Char.toNat_inj.mp hnat)
  · exact Or.inr (Char.toNat_inj.mp hnat)

end Text

section CodeWords

theorem replyDecoder_of_line {line x rest : Bytes}
    (h : lineDecoder Unit x = .done line rest) :
    replyDecoder x = replyAfter line rest := by
  simp only [replyDecoder, Decoder.andThen, h]

theorem wholeLine_of_not_mem {line : Bytes} (hcr : cr ∉ line)
    (hlf : lf ∉ line) : wholeLine line = .ok line := by
  simp only [wholeLine, hcr, hlf, or_self, if_false]

/-- A simple string. -/
theorem oneFrame_simple (line : Bytes) (hcr : cr ∉ line) (hlf : lf ∉ line) :
    OneFrame (43 :: line ++ crlf) := by
  refine ⟨.simple line, fun rest => ?_⟩
  have hmem : cr ∉ (43 : UInt8) :: line := by
    simp [hcr, show cr ≠ 43 by decide]
  rw [replyDecoder_of_line (encodes_line hmem rest)]
  simp only [replyAfter, wholeLine_of_not_mem hcr hlf]
  rfl

theorem oneFrame_error (message : String) : OneFrame (encodeError message) := by
  have hcr := not_mem_utf8_singleLine (Or.inl rfl) message
  have hlf := not_mem_utf8_singleLine (Or.inr rfl) message
  have hmem : cr ∉ (45 : UInt8) :: utf8 (singleLine message) := by
    simp [hcr, show cr ≠ 45 by decide]
  have hform : encodeError message =
      45 :: utf8 (singleLine message) ++ crlf := by
    rfl
  refine ⟨.error (utf8 (singleLine message)), fun rest => ?_⟩
  rw [hform, replyDecoder_of_line (encodes_line hmem rest)]
  simp only [replyAfter, wholeLine_of_not_mem hcr hlf]
  rfl

theorem int_str_exact (n : Int) : Interpreter.exact.int (str n) = some n :=
  int_str Interpreter.exact (Or.inl rfl)

theorem oneFrame_integer (n : Int) : OneFrame (encodeInteger n) := by
  have hmem : cr ∉ (58 : UInt8) :: str n := by
    simp [Aof.cr_not_mem_str n, show cr ≠ 58 by decide]
  have hform : encodeInteger n = 58 :: str n ++ crlf := by
    rfl
  refine ⟨.integer n, fun rest => ?_⟩
  rw [hform, replyDecoder_of_line (encodes_line hmem rest)]
  simp only [replyAfter, int_str_exact]
  rfl

/-- A bulk string, whatever its payload holds. -/
theorem oneFrame_bulk (payload : Bytes) :
    OneFrame (encodeBulkString payload) := by
  have hmem : cr ∉ (36 : UInt8) :: str payload.length := by
    simp [Aof.cr_not_mem_str payload.length, show cr ≠ 36 by decide]
  have hform : encodeBulkString payload =
      36 :: str payload.length ++ crlf ++ (payload ++ crlf) := by
    simp [encodeBulkString, ascii]
  refine ⟨.bulk payload, fun rest => ?_⟩
  rw [hform, List.append_assoc,
    replyDecoder_of_line (encodes_line hmem (payload ++ crlf ++ rest))]
  have hbody := Decoder.encodes_take (ε := Unit) (payload ++ crlf) rest
  rw [List.length_append] at hbody
  simp only [replyAfter, int_str_exact, Decoder.andThen, hbody]
  simp [bulkPayload, Decoder.ofExcept]

theorem oneFrame_null : OneFrame nullBulkString := by
  have hmem : cr ∉ ascii "$-1" := by
    decide
  refine ⟨.null, fun rest => ?_⟩
  have hform : nullBulkString = ascii "$-1" ++ crlf := by
    rfl
  rw [hform, replyDecoder_of_line (encodes_line hmem rest)]
  rfl

end CodeWords

end Resp

namespace Commands

open Resp

variable {J : Type} {py : Interpreter}

section Replies

theorem returns_rescueInvalidExpire {α : Type} (name : String)
    {x : CommandM J α} {k : α → CommandM J Bytes}
    (hk : ∀ a, Fallible.Returns OneFrame (k a)) :
    Fallible.Returns OneFrame (rescueInvalidExpire name x k) := by
  intro s reply t hrun
  have hrescue : rescueInvalidExpire name x k s = (.ok reply, t) := hrun
  unfold rescueInvalidExpire at hrescue
  rcases hx : x.run s with ⟨e | a, t'⟩
  · rw [hx] at hrescue
    cases e with
    | store e =>
        cases e with
        | invalidExpire =>
            cases hrescue
            exact oneFrame_error _
        | _ =>
            cases hrescue
    | _ =>
        cases hrescue
  · rw [hx] at hrescue
    exact hk _ _ _ _ hrescue

theorem oneFrame_ok : OneFrame Resp.ok :=
  oneFrame_simple (ascii "OK") (by decide) (by decide)

theorem oneFrame_pong : OneFrame Resp.pong :=
  oneFrame_simple (ascii "PONG") (by decide) (by decide)

theorem returns_ping (args : List Bytes) :
    Fallible.Returns OneFrame (ping args : CommandM J Bytes) := by
  cases args with
  | nil =>
      exact .pure oneFrame_pong
  | cons message rest =>
      exact .pure (oneFrame_bulk message)

theorem returns_get (args : List Bytes) :
    Fallible.Returns OneFrame (get args : CommandM J Bytes) := by
  rcases args with _ | ⟨key, rest⟩
  · exact .raise _
  · refine .bind fun value => ?_
    cases value with
    | none =>
        exact .pure oneFrame_null
    | some value =>
        exact .pure (oneFrame_bulk value)

theorem returns_ttl (args : List Bytes) :
    Fallible.Returns OneFrame (ttl args : CommandM J Bytes) := by
  rcases args with _ | ⟨key, rest⟩
  · exact .raise _
  · refine .bind fun result => .ite ?_ (.pure (oneFrame_integer _))
    cases result.remainingMs with
    | none =>
        exact .pure (oneFrame_integer _)
    | some remaining =>
        exact .pure (oneFrame_integer _)

theorem returns_exists (args : List Bytes) :
    Fallible.Returns OneFrame (Commands.exists args : CommandM J Bytes) :=
  .bind fun _ => .pure (oneFrame_integer _)

theorem returns_dbsize (args : List Bytes) :
    Fallible.Returns OneFrame (dbsize args : CommandM J Bytes) :=
  .bind fun _ => .pure (oneFrame_integer _)

variable [Journal J]

theorem returns_set (args : List Bytes) :
    Fallible.Returns OneFrame (set py args : CommandM J Bytes) := by
  rcases args with _ | ⟨key, _ | ⟨value, options⟩⟩
  · exact .raise _
  · exact .raise _
  · refine .bind fun ttlMs => ?_
    cases ttlMs with
    | none =>
        exact .pure (oneFrame_error _)
    | some ttlMs =>
        exact returns_rescueInvalidExpire _ fun _ =>
          .bind fun _ => .bind fun _ => .bind fun _ => .pure oneFrame_ok

theorem returns_expire (args : List Bytes) :
    Fallible.Returns OneFrame (expire py args : CommandM J Bytes) := by
  rcases args with _ | ⟨key, _ | ⟨raw, rest⟩⟩
  · exact .raise _
  · exact .raise _
  · refine .bind fun _ => returns_rescueInvalidExpire _ fun applied => ?_
    refine .ite (.bind fun deadline => ?_) (.pure (oneFrame_integer _))
    cases deadline with
    | none =>
        exact .bind fun _ => .pure (oneFrame_integer _)
    | some deadline =>
        exact .bind fun _ => .pure (oneFrame_integer _)

theorem returns_persist (args : List Bytes) :
    Fallible.Returns OneFrame (persist args : CommandM J Bytes) := by
  rcases args with _ | ⟨key, rest⟩
  · exact .raise _
  · exact .bind fun _ => .ite
      (.bind fun _ => .pure (oneFrame_integer _)) (.pure (oneFrame_integer _))

theorem returns_delete (args : List Bytes) :
    Fallible.Returns OneFrame (delete args : CommandM J Bytes) :=
  .bind fun _ => .ite
    (.bind fun _ => .pure (oneFrame_integer _)) (.pure (oneFrame_integer _))

theorem returns_incr (args : List Bytes) :
    Fallible.Returns OneFrame (incr py args : CommandM J Bytes) := by
  rcases args with _ | ⟨key, rest⟩
  · exact .raise _
  · exact .bind fun _ => .bind fun _ => .bind fun _ => .bind fun _ =>
      .pure (oneFrame_integer _)

theorem returns_flushdb (args : List Bytes) :
    Fallible.Returns OneFrame (flushdb args : CommandM J Bytes) :=
  .bind fun _ => .bind fun _ => .pure oneFrame_ok

/-- Every handler answers with one frame. -/
theorem returns_handler {name : Bytes} {command : Command J}
    (h : (name, command) ∈ commandTable py) (args : List Bytes) :
    Fallible.Returns OneFrame (command.handler args) := by
  simp only [commandTable, List.mem_cons, Prod.mk.injEq, List.not_mem_nil,
    or_false] at h
  rcases h with ⟨-, rfl⟩ | ⟨-, rfl⟩ | ⟨-, rfl⟩ | ⟨-, rfl⟩ | ⟨-, rfl⟩ |
    ⟨-, rfl⟩ | ⟨-, rfl⟩ | ⟨-, rfl⟩ | ⟨-, rfl⟩ | ⟨-, rfl⟩ | ⟨-, rfl⟩
  · exact returns_ping args
  · exact returns_set args
  · exact returns_get args
  · exact returns_expire args
  · exact returns_ttl args
  · exact returns_persist args
  · exact returns_delete args
  · exact returns_exists args
  · exact returns_incr args
  · exact returns_dbsize args
  · exact returns_flushdb args

theorem returns_dispatch (request : List Bytes) :
    Fallible.Returns OneFrame (dispatch py request : CommandM J Bytes) := by
  cases request with
  | nil =>
      exact .raise _
  | cons name args =>
      cases hc : (lookupCommand py name : Option (Command J)) with
      | none =>
          simp only [dispatch, hc]
          exact .pure (oneFrame_error _)
      | some command =>
          obtain ⟨l, l', hl, -⟩ := List.lookup_eq_some_iff.mp hc
          have hmem : (upper name, command) ∈ commandTable py := by
            rw [hl]
            simp
          simp only [dispatch, hc]
          refine .ite (.pure (oneFrame_error _)) (.bind fun s => ?_)
          refine .ite (.pure (oneFrame_error _)) ?_
          refine .catching (returns_handler hmem args) fun e => ?_
          split
          · exact .pure (oneFrame_error _)
          · exact .pure (oneFrame_error _)
          · exact .raise _

/-- **Every reply is exactly one frame.** Whatever the request, the store and
the journal, the bytes `dispatch` returns are one complete reply of the
grammar, with none left over, and its end is where it is whatever follows. -/
theorem dispatch_reply_is_one_frame (py : Interpreter)
    (request : List Bytes) (state state' : KeyValueStore × J) (reply : Bytes)
    (h : (dispatch py request).run state = (.ok reply, state')) :
    ∃ value, replyDecoder reply = .done value [] ∧
      ∀ rest, replyDecoder (reply ++ rest) = .done value rest := by
  obtain ⟨value, hvalue⟩ := returns_dispatch request state reply state' h
  refine ⟨value, ?_, hvalue⟩
  simpa using hvalue []

/-- An echoed payload that looks like replies stays one reply. -/
theorem ping_reply_is_one_frame :
    ∃ value, replyDecoder (ascii "$8\r\n+OK\r\n:1\r\r\n") = .done value [] ∧
      ∀ rest, replyDecoder (ascii "$8\r\n+OK\r\n:1\r\r\n" ++ rest) =
        .done value rest := by
  have hping : (dispatch Interpreter.default
      [ascii "PING", ascii "+OK\r\n:1\r"]).run
        (KeyValueStore.init (Clock.frozen 0) 0 .noeviction,
          (⟨⟩ : NullJournal)) =
      (.ok (ascii "$8\r\n+OK\r\n:1\r\r\n"),
        (KeyValueStore.init (Clock.frozen 0) 0 .noeviction, ⟨⟩)) := by
    rfl
  exact dispatch_reply_is_one_frame Interpreter.default _ _ _ _ hping

end Replies

end Commands

end PyRedis
