import PyRedis.Core.Commands

/-!
# The server between two commands

A server recovers its log, and from then on one event happens at a time on the
event loop: a request of some client, a sweep of expired keys, or the periodic
commit of the journal.
-/

namespace PyRedis
namespace Server

open Foundation

variable {J : Type} [Journal J]

/-- What happens on the event loop. -/
inductive Event where
  | request (parts : List Bytes)
  | sweep (limit : Nat)
  | fsync

/-- One turn of `_fsync_cycle`: a failure has marked the journal, and that is
all it does. -/
def fsyncCycle : Commands.CommandM J Unit :=
  (Fallible.onSnd Journal.sync).catching fun
    | .persistence _ => pure ()
    | e => Fallible.raise e

/-- One event, with the reply if there is one. -/
def handle (py : Interpreter) : Event → Commands.CommandM J (Option Bytes)
  | .request parts => do
      let reply ← Commands.dispatch py parts
      pure (some reply)
  | .sweep limit => do
      let _ ← Commands.onStore (KeyValueStore.sweepExpired limit)
      pure none
  | .fsync => do
      fsyncCycle
      pure none

/-- The store and the journal after some events, whatever each raised. -/
def afterEvents (py : Interpreter) (state : KeyValueStore × J)
    (events : List Event) : KeyValueStore × J :=
  events.foldl (fun state event => ((handle py event).run state).2) state

/-- A journal that has just been opened on a log, with what the operating system
will answer to its calls. -/
def newJournal (policy : FsyncPolicy) (log : Aof.LogFile)
    (outcomes : Nat → IoOutcome) : AppendOnlyFile where
  policy := policy
  hasFailed := false
  file := ⟨log.content.getD [], [], outcomes, 0⟩

/-- `AppendOnlyFile.__init__`: a log that cannot be opened for appending is a
`PersistenceError`. -/
def openJournal (policy : FsyncPolicy) (log : Aof.LogFile)
    (outcomes : Nat → IoOutcome) : Except Exc AppendOnlyFile :=
  if log.openFails then .error (.persistence "cannot open")
  else .ok (newJournal policy log outcomes)

/-- `_recover`: replay the append-only file, then open it for writing.  Any
failure here is fatal. -/
def recover (py : Interpreter) (policy : FsyncPolicy)
    (outcomes : Nat → IoOutcome) (store : KeyValueStore)
    (log : Aof.LogFile) : Except Exc (KeyValueStore × AppendOnlyFile) :=
  match (Aof.load py).run (store, log) with
  | (.error e, _) => .error e
  | (.ok _, (store', log')) =>
      match openJournal policy log' outcomes with
      | .error e => .error e
      | .ok journal => .ok (store', journal)

def exitPersistenceError : Nat := 3

/-- What `main` returns when an exception leaves `Server.run`: one code for
every `AofError`, and no code for an exception that none of its clauses
names. -/
def exitCode : Exc → Option Nat
  | .corrupt _ _ => some exitPersistenceError
  | .persistence _ => some exitPersistenceError
  | _ => none

end Server
end PyRedis
