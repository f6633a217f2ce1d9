import PyRedis.Core.Server

/-!
# What is on disk

`os.fsync` moves no bytes, so the journal over a file does not show what it is
for.  Here the same journal is written over a file that remembers how much of
it was committed: these bytes survive a power failure, and of the others a
beginning may.  It is also the journal that is closed when the server stops.

A life of the server goes from its recovery to its end, and the next one
starts from the file it leaves.
-/

namespace PyRedis

open Foundation

/-- A journal backed by a real file, and how many bytes of the file have been
committed. -/
structure DurableFile where
  journal : AppendOnlyFile
  committed : Nat

namespace BinaryFile

/-- `close` writes what is still buffered, unless that fails. -/
def close : Fallible Unit BinaryFile Unit :=
  flush

end BinaryFile

namespace DurableFile

/-- A call on the file that commits nothing. -/
def onFile (x : Fallible Unit BinaryFile Unit) :
    Fallible Unit DurableFile Unit := fun d =>
  (((AppendOnlyFile.onFile x).run d.journal).1,
    { d with journal := ((AppendOnlyFile.onFile x).run d.journal).2 })

/-- `os.fsync`: when it returns, the file as it is by then is committed. -/
def fsync : Fallible Unit DurableFile Unit := do
  onFile BinaryFile.fsync
  Fallible.modify fun d =>
    { d with committed := d.journal.file.content.length }

/-- `_fail`: the journal gives up for good. -/
def fail (action : String) : Fallible Exc DurableFile Unit := fun d =>
  (((AppendOnlyFile.fail action).run d.journal).1,
    { d with journal := ((AppendOnlyFile.fail action).run d.journal).2 })

/-- The body of a `try` whose `OSError` makes the journal fail. -/
def attempt (action : String) (x : Fallible Unit DurableFile Unit) :
    Fallible Exc DurableFile Unit := fun d =>
  match x.run d with
  | (.ok _, d') => (.ok (), d')
  | (.error _, d') => (fail action).run d'

/-- Record one mutation, syncing first if the policy demands it. -/
def append (record : Bytes) : Fallible Exc DurableFile Unit := do
  let d ← Fallible.get
  if d.journal.hasFailed then
    Fallible.raise (.persistence "journal has failed; restart to recover")
  else
    attempt "append" (do
      onFile (BinaryFile.write record)
      onFile BinaryFile.flush
      if d.journal.policy = .always then fsync else pure ())

/-- Force the operating system to commit what has been written. -/
def sync : Fallible Exc DurableFile Unit := do
  let d ← Fallible.get
  if d.journal.hasFailed then pure ()
  else
    attempt "fsync" (do
      onFile BinaryFile.flush
      fsync)

/-- `with suppress(OSError)`. -/
def suppress (x : Fallible Unit DurableFile Unit) :
    Fallible Unit DurableFile Unit :=
  x.catching fun _ => pure ()

/-- `close`: a journal that works is committed, and the file is closed in any
case. -/
def close : Fallible Unit DurableFile Unit := do
  let d ← Fallible.get
  if d.journal.hasFailed then pure ()
  else
    suppress (do
      onFile BinaryFile.flush
      fsync)
  suppress (onFile BinaryFile.close)

instance : Journal DurableFile where
  failed d := d.journal.hasFailed
  append := append
  sync := sync

end DurableFile

namespace Server

/-- How a life ends: the process is killed, or the power fails, with so many
bytes of the file left; or the server is stopped, and closes its journal. -/
inductive Stop where
  | cut (left : Nat)
  | closed

/-- One life of the server: its settings, what the operating system will
answer when the log is read, repaired and opened and to the calls of the
journal, what happens, and how it ends. -/
structure Life where
  clock : Clock
  maxmemory : Int
  policy : MaxmemoryPolicy
  fsync : FsyncPolicy
  readFails : Bool
  truncateFails : Bool
  fsyncFails : Bool
  openFails : Bool
  outcomes : Nat → IoOutcome
  events : List Event
  stop : Stop

namespace Life

/-- The log that a life finds. -/
def log (life : Life) (content : Option Bytes) : Aof.LogFile :=
  ⟨content, life.readFails, life.truncateFails, life.fsyncFails,
    life.openFails⟩

/-- How a life starts. -/
def start (py : Interpreter) (life : Life) (content : Option Bytes) :
    Except Exc (KeyValueStore × AppendOnlyFile) :=
  recover py life.fsync life.outcomes
    (KeyValueStore.init life.clock life.maxmemory life.policy)
    (life.log content)

/-- The server at the end of a life that has started, nothing of its file
known to be committed before. -/
def last (py : Interpreter) (life : Life)
    (state : KeyValueStore × AppendOnlyFile) : KeyValueStore × DurableFile :=
  afterEvents py (state.1, ⟨state.2, 0⟩) life.events

/-- The file that a life leaves.  One that cannot start may have repaired it;
and opening it creates it. -/
def leaves (py : Interpreter) (life : Life) (content : Option Bytes) :
    Option Bytes :=
  match life.start py content with
  | .error _ => ((Aof.load py).run
      (KeyValueStore.init life.clock life.maxmemory life.policy,
        life.log content)).2.2.content
  | .ok state =>
      match life.stop with
      | .cut left =>
          some ((life.last py state).2.journal.file.content.take left)
      | .closed =>
          some ((DurableFile.close.run (life.last py state).2).2
            |>.journal.file.content)

end Life

end Server

end PyRedis
