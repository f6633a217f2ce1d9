import PyRedis.Core.Python
import PyRedis.Foundation.Fallible

/-!
# RESP2 framing

The encoders of replies and log records, and the reader of client requests.

The reader works on an `asyncio.StreamReader`.  Whatever the packet boundaries,
what a reader can observe is the sequence of bytes still to come before the end
of the stream, so that sequence is the state; awaiting more data never shows.
-/

namespace PyRedis
namespace Resp

open Foundation

/-- Caps on what one request may claim. -/
def maxMultibulkLength : Int := 1024 * 1024

def maxBulkLength : Int := 64 * 1024 * 1024

/-- Fixed replies. -/
def ok : Bytes := ascii "+OK\r\n"

def pong : Bytes := ascii "+PONG\r\n"

def nullBulkString : Bytes := ascii "$-1\r\n"

section Encoding

def encodeInteger (value : Int) : Bytes :=
  ascii ":" ++ str value ++ crlf

def encodeBulkString (value : Bytes) : Bytes :=
  ascii "$" ++ str value.length ++ crlf ++ value ++ crlf

/-- An array of bulk strings. -/
def encodeArray (parts : List Bytes) : Bytes :=
  ascii "*" ++ str parts.length ++ crlf ++ parts.flatMap encodeBulkString

/-- CR and LF are replaced, so that an error stays on one line. -/
def singleLine (message : String) : String :=
  message.map (fun c => if c = '\r' ∨ c = '\n' then ' ' else c)

def encodeError (message : String) : Bytes :=
  ascii "-" ++ utf8 (singleLine message) ++ crlf

def hexDigit (n : Nat) : Char :=
  if n < 10 then Char.ofNat (48 + n) else Char.ofNat (87 + n)

/-- One byte as ASCII-safe text: itself, or `\xhh`. -/
def printableByte (b : UInt8) : String :=
  if 0x20 ≤ b.toNat ∧ b.toNat < 0x7F then
    String.ofList [Char.ofNat b.toNat]
  else
    String.ofList
      ['\\', 'x', hexDigit (b.toNat / 16), hexDigit (b.toNat % 16)]

def printable (raw : Bytes) : String :=
  String.join (raw.map printableByte)

end Encoding

section StreamReader

/-- What the reads of an `asyncio.StreamReader` raise. -/
inductive StreamError where
  | incompleteRead (received : Bytes)
  | limitOverrun
deriving DecidableEq

/-- Position of the first CRLF. -/
def findCrlf : Bytes → Option Nat
  | [] => none
  | [_] => none
  | a :: b :: rest =>
      if a = cr ∧ b = lf then some 0
      else (findCrlf (b :: rest)).map (· + 1)

/-- The default limit of a stream on the bytes before a separator. -/
def streamLimit : Nat := 2 ^ 16

/-- `StreamReader.readuntil(CRLF)`: the line with its separator.  Without a
separator in sight, one byte more than the limit is already too much. -/
def readuntil : Fallible StreamError Bytes Bytes := fun buffer =>
  match findCrlf buffer with
  | some i =>
      if i ≤ streamLimit then (.ok (buffer.take (i + 2)), buffer.drop (i + 2))
      else (.error .limitOverrun, buffer)
  | none =>
      if streamLimit < buffer.length - 1 then (.error .limitOverrun, buffer)
      else (.error (.incompleteRead buffer), [])

/-- `StreamReader.readexactly(n)`. -/
def readexactly (n : Nat) : Fallible StreamError Bytes Bytes := fun buffer =>
  if buffer.length < n then (.error (.incompleteRead buffer), [])
  else (.ok (buffer.take n), buffer.drop n)

end StreamReader

section Requests

/-- How reading a command can end without one: `ProtocolError`,
`ConnectionResetError`, or a `ValueError` out of `int`. -/
inductive ReadError where
  | protocol (message : String)
  | connection
  | value
deriving DecidableEq

/-- One header line without its terminator; `none` only for a clean end of
stream before the first byte. -/
def readLine (allowEof : Bool) : Fallible ReadError Bytes (Option Bytes) :=
  fun buffer =>
    match readuntil.run buffer with
    | (.ok line, rest) =>
        (.ok (some (line.take (line.length - crlf.length))), rest)
    | (.error (.incompleteRead received), rest) =>
        if allowEof ∧ received = [] then (.ok none, rest)
        else (.error .connection, rest)
    | (.error .limitOverrun, rest) =>
        (.error (.protocol "too big mbulk count string"), rest)

/-- A RESP length: an optional minus sign, then ASCII digits, nothing else. -/
def parseLength (py : Interpreter) (raw : Bytes) (message : String) :
    Except ReadError Int :=
  if isDigits (Decimal.splitSign raw).2 then
    match py.int raw with
    | some n => .ok n
    | none => .error .value
  else .error (.protocol message)

/-- The error for a header line that starts with the wrong byte. -/
def unexpected (wanted : String) (header : Bytes) : String :=
  "expected '" ++ wanted ++ "', got '" ++ printable (header.take 1) ++ "'"

def readBulkString (py : Interpreter) : Fallible ReadError Bytes Bytes := do
  match ← readLine false with
  | none => Fallible.raise .connection
  | some header =>
      if header.head? ≠ some 36 then
        Fallible.raise (.protocol (unexpected "$" header))
      else do
        let length ←
          Fallible.ofExcept (parseLength py header.tail "invalid bulk length")
        if length < 0 ∨ maxBulkLength < length then
          Fallible.raise (.protocol "invalid bulk length")
        else fun buffer =>
          -- The terminator is read with the payload, so a payload holding
          -- CRLF survives and a missing terminator is noticed.
          match (readexactly (length.toNat + crlf.length)).run buffer with
          | (.error _, rest) => (.error .connection, rest)
          | (.ok body, rest) =>
              if crlf <:+ body then (.ok (body.take length.toNat), rest)
              else (.error (.protocol "invalid bulk length"), rest)

def readBulkStrings (py : Interpreter) :
    Nat → Fallible ReadError Bytes (List Bytes)
  | 0 => pure []
  | n + 1 => do
      let part ← readBulkString py
      let parts ← readBulkStrings py n
      pure (part :: parts)

/-- One command: its arguments, `none` at a clean end of stream, and an empty
list for the no-op frames. -/
def readCommand (py : Interpreter) :
    Fallible ReadError Bytes (Option (List Bytes)) := do
  match ← readLine true with
  | none => pure none
  | some header =>
      if header.head? ≠ some 42 then
        Fallible.raise (.protocol (unexpected "*" header))
      else do
        let count ← Fallible.ofExcept
          (parseLength py header.tail "invalid multibulk length")
        if maxMultibulkLength < count then
          Fallible.raise (.protocol "invalid multibulk length")
        else if count ≤ 0 then
          pure (some [])
        else do
          let parts ← readBulkStrings py count.toNat
          pure (some parts)

end Requests

end Resp
end PyRedis
