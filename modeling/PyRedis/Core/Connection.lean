import PyRedis.Core.Commands

/-!
# One client session

Read a command, dispatch it, write the reply, repeat.  The peer's bytes are
those still to come before it closes its side, and writes succeed.
-/

namespace PyRedis
namespace Connection

open Foundation

variable {J : Type} [Journal J]

/-- How a session ends, with everything written to the client: the loop
returns, or an exception that no clause names leaves it. -/
structure Session (J : Type) where
  written : Bytes
  escaped : Bool
  store : KeyValueStore
  journal : J

/-- The text of a protocol error. -/
def protocolError (message : String) : Bytes :=
  Resp.encodeError ("ERR Protocol error: " ++ message)

def internalError : Bytes :=
  Resp.encodeError "ERR internal error"

/-- The loop of `handle_connection`, with the number of passes left; `none`
when they are used up. -/
def serve (py : Interpreter) :
    Nat → Bytes → Bytes → KeyValueStore → J → Option (Session J)
  | 0, _, _, _, _ => none
  | passes + 1, stream, written, store, journal =>
      match (Resp.readCommand py).run stream with
      | (.error (.protocol message), _) =>
          some ⟨written ++ protocolError message, false, store, journal⟩
      | (.error .connection, _) => some ⟨written, false, store, journal⟩
      | (.error .value, _) => some ⟨written, true, store, journal⟩
      | (.ok none, _) => some ⟨written, false, store, journal⟩
      | (.ok (some []), rest) => serve py passes rest written store journal
      | (.ok (some (name :: args)), rest) =>
          match (Commands.dispatch py (name :: args)).run (store, journal) with
          | (.ok reply, (store', journal')) =>
              serve py passes rest (written ++ reply) store' journal'
          | (.error _, (store', journal')) =>
              serve py passes rest (written ++ internalError) store' journal'

/-- Serve one client until it disconnects or desynchronizes the stream.
Every command read takes bytes, so the passes cannot run out. -/
def handleConnection (py : Interpreter) (stream : Bytes)
    (store : KeyValueStore) (journal : J) : Option (Session J) :=
  serve py (stream.length + 1) stream [] store journal

end Connection
end PyRedis
