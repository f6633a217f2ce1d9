import PyRedis.Core.Connection
import PyRedis.Core.Server
import PyRedis.Foundation.EventLoop
import PyRedis.Foundation.Segments

/-!
# Client sessions on the event loop

One task per connection.  The bytes of a client arrive in pieces, and its task
is suspended in `read_command` until what it awaits is there.  A turn takes a
task from one `await` to the next, so a turn runs at most one command, and it
runs it whole.

What a drain comes to is decided within the turn that wrote: until its task is
resumed nothing else can depend on it.
-/

namespace PyRedis

open Foundation

namespace Resp

/-- Where `read_command` awaits its stream: at its header line, or at the
header or the payload of a bulk string, with the number of bulk strings that
are left after this one and the parts read so far. -/
inductive Reading where
  | header
  | bulkHeader (left : Nat) (parts : List Bytes)
  | bulkBody (length left : Nat) (parts : List Bytes)
deriving DecidableEq

/-- A read that the end of the stream would cut short.  Before the end, the
reader waits for more. -/
def incomplete {α : Type} (read : Fallible StreamError Bytes α)
    (buffer : Bytes) : Bool :=
  match (read.run buffer).1 with
  | .error (.incompleteRead _) => true
  | _ => false

/-- What is awaited is not there yet. -/
def awaits : Reading → Bytes → Bool
  | .header => incomplete readuntil
  | .bulkHeader _ _ => incomplete readuntil
  | .bulkBody length _ _ => incomplete (readexactly (length + crlf.length))

/-- After a part: the next bulk string, or all the parts. -/
def afterPart (left : Nat) (parts : List Bytes) :
    Reading ⊕ Option (List Bytes) :=
  match left with
  | 0 => .inr (some parts)
  | left + 1 => .inl (.bulkHeader left parts)

/-- `read_command` from one of its awaits to the next, or to its end. -/
def segment (py : Interpreter) :
    Reading → Fallible ReadError Bytes (Reading ⊕ Option (List Bytes))
  | .header => do
      match ← readLine true with
      | none => pure (.inr none)
      | some header =>
          if header.head? ≠ some 42 then
            Fallible.raise (.protocol (unexpected "*" header))
          else do
            let count ← Fallible.ofExcept
              (parseLength py header.tail "invalid multibulk length")
            if maxMultibulkLength < count then
              Fallible.raise (.protocol "invalid multibulk length")
            else if count ≤ 0 then
              pure (.inr (some []))
            else
              pure (.inl (.bulkHeader (count.toNat - 1) []))
  | .bulkHeader left parts => do
      match ← readLine false with
      | none => Fallible.raise .connection
      | some header =>
          if header.head? ≠ some 36 then
            Fallible.raise (.protocol (unexpected "$" header))
          else do
            let length ← Fallible.ofExcept
              (parseLength py header.tail "invalid bulk length")
            if length < 0 ∨ maxBulkLength < length then
              Fallible.raise (.protocol "invalid bulk length")
            else
              pure (.inl (.bulkBody length.toNat left parts))
  | .bulkBody length left parts => fun buffer =>
      match (readexactly (length + crlf.length)).run buffer with
      | (.error _, rest) => (.error .connection, rest)
      | (.ok body, rest) =>
          if crlf <:+ body then
            (.ok (afterPart left (parts ++ [body.take length])), rest)
          else (.error (.protocol "invalid bulk length"), rest)

end Resp

/-- What a session is doing: it awaits its stream, or `handle_connection` has
returned, or an exception that no clause names has left it. -/
inductive Progress where
  | reading (q : Resp.Reading)
  | returned
  | escaped
deriving DecidableEq

/-- A connection: what has arrived and was not read, whether the end of the
stream has, whether it was reset, whether what its read awaited had arrived by
then, whether it was closed from this side, what the session is doing, and
everything it wrote. -/
structure Client where
  buffer : Bytes
  eof : Bool
  reset : Bool
  pending : Bool
  severed : Bool
  progress : Progress
  written : Bytes
deriving DecidableEq

/-- What reaches a connection from outside: bytes, the end of the stream, a
`ConnectionError` that reads and writes will raise, or `writer.close()`, after
which the stream is at its end and writes are lost. -/
inductive Arrival where
  | data (bytes : Bytes)
  | eof
  | reset
  | severed
deriving DecidableEq

/-- What a command comes to. -/
abbrev Reply := Except Exc (Option Bytes)

/-- What is written for a command; an exception is answered in general
terms. -/
def replyBytes : Reply → Bytes
  | .ok (some reply) => reply
  | .ok none => []
  | .error _ => Connection.internalError

namespace Client

/-- A connection from which nothing has arrived. -/
def fresh : Client where
  buffer := []
  eof := false
  reset := false
  pending := false
  severed := false
  progress := .reading .header
  written := []

/-- What the session awaits has arrived. -/
def ready (c : Client) : Bool :=
  match c.progress with
  | .reading q => c.eof || !Resp.awaits q c.buffer
  | _ => false

/-- Nothing follows the end of a stream.  A read that has only to be resumed
when the connection is reset does not notice. -/
def hear : Arrival → Client → Client
  | .data bytes, c =>
      if c.eof || c.reset then c else { c with buffer := c.buffer ++ bytes }
  | .eof, c => { c with eof := true }
  | .reset, c =>
      if c.reset then c else { c with reset := true, pending := c.ready }
  | .severed, c => { c with eof := true, severed := true }

/-- The session has read, and goes on with what is left. -/
def moved (c : Client) (rest : Bytes) (progress : Progress) : Client :=
  { c with buffer := rest, pending := false, progress := progress }

/-- Bytes are written. -/
def wrote (c : Client) (bytes : Bytes) : Client :=
  { c with written := c.written ++ bytes }

/-- The reply is written and drained. -/
def answered (c : Client) (rest : Bytes) (reply : Reply) : Client :=
  (c.wrote (replyBytes reply)).moved rest
    (if c.severed || c.reset then .returned else .reading .header)

/-- The loop of `handle_connection`, from one `await` to the next. -/
def turn (py : Interpreter) (c : Client) : Turn Client Server.Event Reply :=
  match c.progress with
  | .reading q =>
      -- a reset is raised by the next read, not by one that was pending
      if c.reset && !c.pending then .go { c with progress := .returned }
      else
        match Fallible.whenReady c.eof (Resp.awaits q) (Resp.segment py q)
            c.buffer with
        | none => .go c
        | some (.error (.protocol message), rest) =>
            .go ((c.wrote (Connection.protocolError message)).moved rest
              .returned)
        | some (.error .connection, rest) => .go (c.moved rest .returned)
        | some (.error .value, rest) => .go (c.moved rest .escaped)
        | some (.ok (.inl q'), rest) => .go (c.moved rest (.reading q'))
        | some (.ok (.inr none), rest) => .go (c.moved rest .returned)
        | some (.ok (.inr (some [])), rest) =>
            .go (c.moved rest (.reading .header))
        | some (.ok (.inr (some (name :: args))), rest) =>
            .call (.request (name :: args)) fun reply =>
              c.answered rest reply
  | _ => .go c

end Client

namespace Server

variable {J : Type} [Journal J]

/-- The event loop: one store and one journal, and a task for every
connection. -/
def loop (J : Type) [Journal J] (py : Interpreter) :
    EventLoop (KeyValueStore × J) Client Event Reply Arrival where
  perform event state := (handle py event).run state
  turn := Client.turn py
  hear := Client.hear

/-- What can happen on the loop: something arrives at a connection, its task
is resumed, or one of the two cycles takes its turn. -/
abbrev Action := EventLoop.Action Nat Event Arrival

/-- Connections are numbered.  One that was not made yet is one from which
nothing has arrived. -/
def listening (store : KeyValueStore) (journal : J) :
    EventLoop.World (KeyValueStore × J) Client Nat where
  shared := (store, journal)
  tasks _ := Client.fresh

end Server

end PyRedis
