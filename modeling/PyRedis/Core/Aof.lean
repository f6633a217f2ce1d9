import PyRedis.Core.Resp
import PyRedis.Core.Store

/-!
# Append-only persistence

The journal that records mutations, and the loader that scans a log and
replays it into a store.

Input and output are modelled by what the operating system answers: a file
object carries the sequence of outcomes its calls will have, so a journal may
fail at any call, with any number of bytes already written.
-/

namespace PyRedis

open Foundation

inductive FsyncPolicy where
  | always
  | everysec
  | no
deriving DecidableEq

/-- Where mutations are recorded. -/
class Journal (J : Type) where
  failed : J → Bool
  append : Bytes → Fallible Exc J Unit
  sync : Fallible Exc J Unit

/-- The journal used when persistence is switched off. -/
structure NullJournal where

instance : Journal NullJournal where
  failed _ := false
  append _ := pure ()
  sync := pure ()

section BinaryFile

/-- What one call on a file does: how many of the bytes it holds back reach
the file at once, and whether the call then raises `OSError`. -/
structure IoOutcome where
  moved : Nat
  fails : Bool
deriving DecidableEq

/-- A file opened for appending: its content, the bytes still buffered in the
process, and the outcomes of the calls to come. -/
structure BinaryFile where
  content : Bytes
  buffered : Bytes
  outcomes : Nat → IoOutcome
  calls : Nat

namespace BinaryFile

def outcome (f : BinaryFile) : IoOutcome :=
  f.outcomes f.calls

/-- Hand the first `n` buffered bytes to the operating system. -/
def moveOut (f : BinaryFile) (n : Nat) : BinaryFile :=
  { f with
    content := f.content ++ f.buffered.take n
    buffered := f.buffered.drop n
    calls := f.calls + 1 }

/-- `write`: the bytes join the buffer, and some may be written at once. -/
def write (record : Bytes) : Fallible Unit BinaryFile Unit := fun f =>
  let held := { f with buffered := f.buffered ++ record }
  (if f.outcome.fails then .error () else .ok (),
    held.moveOut f.outcome.moved)

/-- `flush`: everything buffered is written, unless the call fails. -/
def flush : Fallible Unit BinaryFile Unit := fun f =>
  if f.outcome.fails then (.error (), f.moveOut f.outcome.moved)
  else (.ok (), f.moveOut f.buffered.length)

/-- `os.fsync`: asks for durability and moves no bytes. -/
def fsync : Fallible Unit BinaryFile Unit := fun f =>
  (if f.outcome.fails then .error () else .ok (), f.moveOut 0)

end BinaryFile

end BinaryFile

/-- A journal backed by a real file. -/
structure AppendOnlyFile where
  policy : FsyncPolicy
  hasFailed : Bool
  file : BinaryFile

namespace AppendOnlyFile

/-- A calculation on the file. -/
def onFile (x : Fallible Unit BinaryFile Unit) :
    Fallible Unit AppendOnlyFile Unit := fun j =>
  ((x.run j.file).1, { j with file := (x.run j.file).2 })

/-- `_fail`: the journal gives up for good. -/
def fail (action : String) : Fallible Exc AppendOnlyFile Unit := fun j =>
  (.error (.persistence (action ++ " failed")), { j with hasFailed := true })

/-- The body of a `try` whose `OSError` makes the journal fail. -/
def attempt (action : String) (x : Fallible Unit AppendOnlyFile Unit) :
    Fallible Exc AppendOnlyFile Unit := fun j =>
  match x.run j with
  | (.ok _, j') => (.ok (), j')
  | (.error _, j') => (fail action).run j'

/-- Record one mutation, syncing first if the policy demands it. -/
def append (record : Bytes) : Fallible Exc AppendOnlyFile Unit := do
  let j ← Fallible.get
  if j.hasFailed then
    Fallible.raise (.persistence "journal has failed; restart to recover")
  else
    attempt "append" (do
      onFile (BinaryFile.write record)
      onFile BinaryFile.flush
      if j.policy = .always then onFile BinaryFile.fsync else pure ())

/-- Force the operating system to commit what has been written. -/
def sync : Fallible Exc AppendOnlyFile Unit := do
  let j ← Fallible.get
  if j.hasFailed then pure ()
  else
    attempt "fsync" (do
      onFile BinaryFile.flush
      onFile BinaryFile.fsync)

instance : Journal AppendOnlyFile where
  failed j := j.hasFailed
  append := append
  sync := sync

end AppendOnlyFile

section Encoding

/-- One log record. -/
def encodeRecord (parts : List Bytes) : Bytes :=
  Resp.encodeArray parts

/-- The canonical form of a write, with its deadline if it has one. -/
def encodeSet (key value : Bytes) : Option Int → Bytes
  | none => encodeRecord [ascii "SET", key, value]
  | some deadline =>
      encodeRecord [ascii "SET", key, value, ascii "PXAT", str deadline]

def encodeDelete (keys : List Bytes) : Bytes :=
  encodeRecord (ascii "DEL" :: keys)

end Encoding

namespace Aof

structure Record where
  offset : Nat
  parts : List Bytes
deriving DecidableEq

structure Scan where
  records : List Record
  consumed : Nat
  trailing : Nat
deriving DecidableEq

structure LoadResult where
  records : Nat
  keys : Nat
  expired : Nat
  repaired : Nat
deriving DecidableEq

section Scanning

/-- The line at an offset, and where the next one starts. -/
def readLine (data : Bytes) (offset : Nat) : Option Bytes × Nat :=
  match Resp.findCrlf (data.drop offset) with
  | none => (none, offset)
  | some i => (some ((data.drop offset).take i), offset + i + crlf.length)

def count (py : Interpreter) (raw : Bytes) (offset : Nat) (reason : String) :
    Except Exc Int :=
  if isDigits (Decimal.splitSign raw).2 then
    match py.int raw with
    | some n => .ok n
    | none => .error .value
  else .error (.corrupt offset reason)

/-- The bulk string whose header starts at a cursor, and where it ends. -/
def readPart (py : Interpreter) (data : Bytes) (cursor : Nat) :
    Except Exc (Option (Bytes × Nat)) :=
  match readLine data cursor with
  | (none, _) => .ok none
  | (some line, after) =>
      if line.head? ≠ some 36 then
        .error (.corrupt cursor (Resp.unexpected "$" line))
      else do
        let length ← count py line.tail cursor "invalid bulk length"
        if length < 0 then
          .error (.corrupt cursor "invalid bulk length")
        else
          let last := after + length.toNat
          if data.length < last + crlf.length then .ok none
          else if (data.drop last).take crlf.length ≠ crlf then
            .error (.corrupt cursor "bulk string is not terminated")
          else
            .ok (some ((data.drop after).take length.toNat,
              last + crlf.length))

/-- The loop over the parts of a record. -/
def readParts (py : Interpreter) (data : Bytes) :
    Nat → Nat → List Bytes → Except Exc (Option (List Bytes × Nat))
  | 0, cursor, parts => .ok (some (parts, cursor))
  | n + 1, cursor, parts => do
      match ← readPart py data cursor with
      | none => .ok none
      | some (part, next) => readParts py data n next (parts ++ [part])

/-- The record at an offset; no parts stand for a record that runs past the
end of the data, and the offset then comes back unchanged. -/
def readRecord (py : Interpreter) (data : Bytes) (offset : Nat) :
    Except Exc (Option (List Bytes) × Nat) :=
  match readLine data offset with
  | (none, _) => .ok (none, offset)
  | (some header, cursor) =>
      if header.head? ≠ some 42 then
        .error (.corrupt offset (Resp.unexpected "*" header))
      else do
        let n ← count py header.tail offset "invalid multibulk length"
        if n ≤ 0 then
          .error (.corrupt offset "invalid multibulk length")
        else do
          match ← readParts py data n.toNat cursor [] with
          | none => .ok (none, offset)
          | some (parts, next) => .ok (some parts, next)

/-- The loop of `scan`, with the number of passes left.  Every record takes at
least one byte, so one pass more than there are bytes is enough. -/
def scanFrom (py : Interpreter) (data : Bytes) :
    Nat → Nat → List Record → Except Exc Scan
  | 0, _, _ => .error .spin
  | passes + 1, offset, records =>
      if offset < data.length then do
        match ← readRecord py data offset with
        | (none, _) => .ok ⟨records, offset, data.length - offset⟩
        | (some parts, next) =>
            scanFrom py data passes next (records ++ [⟨offset, parts⟩])
      else .ok ⟨records, offset, 0⟩

/-- Split a log into records, stopping at the first incomplete one. -/
def scan (py : Interpreter) (data : Bytes) : Except Exc Scan :=
  scanFrom py data (data.length + 1) 0 []

end Scanning

section Replay

open KeyValueStore

/-- `AofCorruptError` at a record. -/
def corrupt (record : Record) (reason : String) : StoreM Unit :=
  Fallible.raise (.corrupt record.offset reason)

/-- Apply one record through the store's recovery primitives. -/
def applyRecord (py : Interpreter) (record : Record) : StoreM Unit :=
  match record.parts with
  | [] => Fallible.raise .index
  | first :: args =>
      if upper first = ascii "SET" then
        match args with
        | [key, value] => restore key value none
        | [key, value, option, raw] =>
            if upper option = ascii "PXAT" then do
              let deadline ← Fallible.ofExcept
                (count py raw record.offset "malformed PXAT deadline")
              restore key value (some deadline)
            else corrupt record "malformed SET record"
        | _ => corrupt record "malformed SET record"
      else if upper first = ascii "PEXPIREAT" then
        match args with
        | [key, raw] => do
            let deadline ← Fallible.ofExcept
              (count py raw record.offset "bad deadline")
            setDeadline key deadline
        | _ => corrupt record "malformed PEXPIREAT record"
      else if upper first = ascii "DEL" then
        match args with
        | [] => corrupt record "malformed DEL record"
        | keys => discard keys
      else if upper first = ascii "PERSIST" then
        match args with
        | [key] => clearDeadline key
        | _ => corrupt record "malformed PERSIST record"
      else if upper first = ascii "FLUSHDB" then
        match args with
        | [] => flushdb
        | _ => corrupt record "malformed FLUSHDB record"
      else
        corrupt record
          ("unknown record '" ++ Resp.printable (first.take 32) ++ "'")

/-- A log on disk: its content, if it exists, and which of the calls that
read it, truncate it, commit the truncation and open it for appending fail. -/
structure LogFile where
  content : Option Bytes
  readFails : Bool
  truncateFails : Bool
  fsyncFails : Bool
  openFails : Bool

/-- `_truncate`. -/
def truncate (size : Nat) : Fallible Exc LogFile Unit := fun file =>
  if file.truncateFails then
    (.error (.persistence "cannot repair"), file)
  else
    (if file.fsyncFails then .error (.persistence "cannot repair")
      else .ok (),
      { file with content := file.content.map (·.take size) })

/-- The bytes of a log that exists. -/
def readBytes : Fallible Exc LogFile Bytes := fun file =>
  if file.readFails then (.error (.persistence "cannot read"), file)
  else (.ok (file.content.getD []), file)

/-- Replay a log into a store, repairing a torn final record. -/
def load (py : Interpreter) :
    Fallible Exc (KeyValueStore × LogFile) LoadResult := do
  let s ← Fallible.get
  if s.2.content = none then pure ⟨0, 0, 0, 0⟩
  else do
    let data ← Fallible.onSnd readBytes
    let scanned ← Fallible.ofExcept (scan py data)
    Fallible.onFst (Fallible.forEach (applyRecord py) scanned.records)
    if scanned.trailing ≠ 0 then
      Fallible.onSnd (truncate scanned.consumed)
    else pure ()
    let expired ← Fallible.onFst dropExpired
    let keys ← Fallible.onFst dbsize
    pure ⟨scanned.records.length, keys, expired, scanned.trailing⟩

end Replay

end Aof

end PyRedis
