import PyRedis.Core.Clients
import PyRedis.Foundation.Decoder
import PyRedis.Foundation.Linearizability

/-!
# The client of the demonstration

The other side of a connection: a client that sends a request, waits for the
reply and returns it.  Clients and server are joined by streams that carry any
number of bytes at a time.

A call that ends with an exception returns nothing: for the model it goes on
waiting.
-/

namespace PyRedis

open Foundation

namespace Demo

section Numbers

def isSpace (b : UInt8) : Bool :=
  b = 32 || (9 ≤ b.toNat && b.toNat ≤ 13)

/-- A text without the whitespace around it. -/
def strip (raw : Bytes) : Bytes :=
  ((raw.dropWhile isSpace).reverse.dropWhile isSpace).reverse

/-- The digits of a numeral, which single underscores may separate. -/
def digits : Bytes → Option Bytes
  | [] => none
  | [d] => if Decimal.isDigit d then some [d] else none
  | d :: b :: rest =>
      if Decimal.isDigit d then
        (if b = 95 then digits rest else digits (b :: rest)).map (d :: ·)
      else none

def natural (py : Interpreter) (raw : Bytes) : Option Nat := do
  let ds ← digits raw
  if py.Converts ds.length then some (Decimal.digitsValue ds) else none

/-- `int` on any bytes. -/
def int (py : Interpreter) (raw : Bytes) : Option Int :=
  match strip raw with
  | 45 :: rest => (natural py rest).map fun n : Nat => -(n : Int)
  | 43 :: rest => (natural py rest).map Int.ofNat
  | rest => (natural py rest).map Int.ofNat

end Numbers

section Slices

/-- Where a slice bound lies. -/
def bound (n : Int) (raw : Bytes) : Nat :=
  (if n < 0 then raw.length + n else n).toNat

/-- `raw[:n]`. -/
def sliceTo (n : Int) (raw : Bytes) : Bytes :=
  raw.take (bound n raw)

/-- `raw[n:]`. -/
def sliceFrom (n : Int) (raw : Bytes) : Bytes :=
  raw.drop (bound n raw)

end Slices

section Calls

/-- `bytes.decode`, with `none` for `UnicodeDecodeError`. -/
def decode (raw : Bytes) : Option String :=
  String.fromUTF8? raw.toByteArray

/-- What a call can raise when the reply is there: a `ValueError`, or the
`AssertionError` about an unexpected reply. -/
inductive Failure where
  | value
  | assertion
deriving DecidableEq

/-- What a call returns. -/
inductive Answer where
  | text (line : String)
  | number (n : Int)
  | nothing
  | payload (raw : Bytes)
deriving DecidableEq

/-- What `__call__` sends. -/
def frame (args : List Bytes) : Bytes :=
  ascii "*" ++ str args.length ++ crlf ++
    args.flatMap fun arg =>
      ascii "$" ++ str arg.length ++ crlf ++ arg ++ crlf

/-- `_read_line`.  Where more is needed, `_fill` waits for it. -/
def readLine : Decoder UInt8 Failure Bytes := fun buffer =>
  match Resp.findCrlf buffer with
  | none => .more
  | some i => .done (buffer.take i) (buffer.drop (i + 2))

/-- A value, or the `ValueError` of its conversion. -/
def converted {α : Type} (value : Option α) (answer : α → Answer) :
    Decoder UInt8 Failure Answer :=
  Decoder.ofExcept (value.elim (.error .value) fun a => .ok (answer a))

/-- The payload of a bulk string; what stands in place of its CRLF is
skipped. -/
def readPayload (length : Int) : Decoder UInt8 Failure Answer := fun buffer =>
  if (buffer.length : Int) < length + 2 then .more
  else .done (.payload (sliceTo length buffer))
    (sliceFrom (length + 2) buffer)

/-- What follows the first line of a reply. -/
def readBody (py : Interpreter) : Bytes → Decoder UInt8 Failure Answer
  | 43 :: body => converted (decode body) .text
  | 45 :: body => converted (decode body) fun line => .text ("(error) " ++ line)
  | 58 :: body => converted (int py body) .number
  | 36 :: body =>
      match int py body with
      | none => Decoder.ofExcept (.error .value)
      | some length =>
          if length = -1 then Decoder.ofExcept (.ok .nothing)
          else readPayload length
  | _ => Decoder.ofExcept (.error .assertion)

/-- `_read_reply`. -/
def readReply (py : Interpreter) : Decoder UInt8 Failure Answer :=
  readLine.andThen fun line _ => readBody py line

end Calls

end Demo

/-- The client's side of a connection: what it sent and the server has not
got, how much of what the server wrote has come, what of that is unread, and
whether a call waits for its reply. -/
structure Caller where
  outgoing : Bytes
  received : Nat
  buffer : Bytes
  waiting : Bool

/-- A server, and a client at the other end of every connection. -/
structure Network (J : Type) where
  server : EventLoop.World (KeyValueStore × J) Client Nat
  callers : Nat → Caller

namespace Network

open Server

/-- A request within the limits of the server. -/
def permitted (args : List Bytes) : Bool :=
  args ≠ [] && (args.length : Int) ≤ Resp.maxMultibulkLength &&
    args.all fun arg => (arg.length : Int) ≤ Resp.maxBulkLength

/-- What can happen next: a client calls, some of its bytes reach the server,
some of the server's bytes reach it, its call returns, or the server does
something or hears something other than bytes. -/
inductive Action where
  | ask (k : Nat) (args : List Bytes)
  | deliver (k n : Nat)
  | receive (k n : Nat)
  | answer (k : Nat)
  | serve (action : Server.Action)

/-- What has happened, as far as calls are concerned. -/
abbrev Chronicle := History Nat Event Reply Demo.Answer

variable {J : Type} [Journal J]

/-- The client of a connection gets a new state. -/
def assign (net : Network J) (k : Nat) (caller : Caller) : Network J :=
  { net with callers := Function.update net.callers k caller }

/-- The server does something. -/
def serve (py : Interpreter) (net : Network J) (action : Server.Action) :
    Chronicle × Network J :=
  let result := (loop J py).step net.server action
  (result.1.map .performed, { net with server := result.2 })

/-- One action, with what happens in it; `py` is the interpreter of the
server, `py'` that of the clients. -/
def step (py py' : Interpreter) (net : Network J) :
    Action → Chronicle × Network J
  | .ask k args =>
      let caller := net.callers k
      if caller.waiting || !permitted args then ([], net)
      else
        ([.asked k (.request args)],
          net.assign k
            { caller with
              outgoing := caller.outgoing ++ Demo.frame args
              waiting := true })
  | .deliver k n =>
      let caller := net.callers k
      (net.assign k { caller with outgoing := caller.outgoing.drop n }).serve
        py (.hear k (.data (caller.outgoing.take n)))
  | .receive k n =>
      let caller := net.callers k
      let bytes := ((net.server.tasks k).written.drop caller.received).take n
      ([], net.assign k
        { caller with
          received := caller.received + bytes.length
          buffer := caller.buffer ++ bytes })
  | .answer k =>
      let caller := net.callers k
      match caller.waiting, Demo.readReply py' caller.buffer with
      | true, .done answer rest =>
          ([.answered k answer],
            net.assign k { caller with buffer := rest, waiting := false })
      | _, _ => ([], net)
  | .serve (.hear _ (.data _)) => ([], net)
  | .serve action => net.serve py action

/-- A schedule, with what happens in it. -/
def run (py py' : Interpreter) (net : Network J) :
    List Action → Chronicle × Network J
  | [] => ([], net)
  | action :: actions =>
      let first := net.step py py' action
      let others := run py py' first.2 actions
      (first.1 ++ others.1, others.2)

/-- A server that nobody has called yet. -/
def start (store : KeyValueStore) (journal : J) : Network J where
  server := listening store journal
  callers _ := ⟨[], 0, [], false⟩

end Network

end PyRedis
