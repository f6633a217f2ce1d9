import PyRedis.Core.Aof

/-!
# Command dispatch

A request of raw bytes in, an encoded reply out.  Every handler works on the
store and the journal together, and the journal may be of any kind.
-/

namespace PyRedis
namespace Commands

open Foundation

variable {J : Type} [Journal J]

/-- A computation on the store and the journal. -/
abbrev CommandM (J : Type) := Fallible Exc (KeyValueStore × J)

/-- A step of the store within a command. -/
def onStore {α : Type} (x : StoreM α) : CommandM J α :=
  Fallible.onFst x

/-- Hand a record to the journal. -/
def append (record : Bytes) : CommandM J Unit :=
  Fallible.onSnd (Journal.append record)

def persistenceError : String := "ERR persistence failure"

/-- TTL sentinels. -/
def ttlNoKey : Int := -2

def ttlNoExpiry : Int := -1

def millisPerSecond : Int := 1000

def maxReportedArgs : Nat := 20

def maxReportedArgBytes : Nat := 128

/-- One entry in the command table. -/
structure Command (J : Type) where
  name : String
  handler : List Bytes → CommandM J Bytes
  minArgs : Nat
  maxArgs : Option Nat
  mutates : Bool

/-- Record the keys a write had to evict, before recording the write. -/
def journalEvictions : CommandM J Unit := do
  let evicted ← onStore KeyValueStore.takeEvicted
  Fallible.forEach (fun key => append (encodeDelete [key])) evicted

/-- `int(flag)`. -/
def flag (b : Bool) : Int :=
  if b then 1 else 0

section Handlers

def ping : List Bytes → CommandM J Bytes
  | [] => pure Resp.pong
  | message :: _ => pure (Resp.encodeBulkString message)

/-- The duration a SET asks for; `none` for a syntax error. -/
def setOptions (py : Interpreter) :
    List Bytes → Except Exc (Option (Option Int))
  | [] => .ok (some none)
  | [option, raw] =>
      if upper option = ascii "EX" then do
        let seconds ← parseInt py raw
        .ok (some (some (seconds * millisPerSecond)))
      else if upper option = ascii "PX" then do
        let ms ← parseInt py raw
        .ok (some (some ms))
      else .ok none
  | _ => .ok none

/-- Answer an invalid expire time in the name of the command that was run. -/
def rescueInvalidExpire {α : Type} (name : String)
    (x : CommandM J α) (k : α → CommandM J Bytes) : CommandM J Bytes :=
  fun s =>
    match x.run s with
    | (.ok a, t) => (k a).run t
    | (.error (.store .invalidExpire), t) =>
        (.ok (Resp.encodeError
          ("ERR invalid expire time in '" ++ name ++ "' command")), t)
    | (.error e, t) => (.error e, t)

/-- SET key value [EX seconds | PX milliseconds]. -/
def set (py : Interpreter) : List Bytes → CommandM J Bytes
  | key :: value :: options => do
      match ← Fallible.ofExcept (setOptions py options) with
      | none => pure (Resp.encodeError "ERR syntax error")
      | some ttlMs =>
          rescueInvalidExpire "set"
            (onStore (KeyValueStore.set key value ttlMs)) fun _ => do
              journalEvictions
              let deadline ← onStore (KeyValueStore.deadlineMs key)
              append (encodeSet key value deadline)
              pure Resp.ok
  | _ => Fallible.raise .index

def expire (py : Interpreter) : List Bytes → CommandM J Bytes
  | key :: raw :: _ => do
      let seconds ← Fallible.ofExcept (parseInt py raw)
      rescueInvalidExpire "expire"
        (onStore (KeyValueStore.expire key (seconds * millisPerSecond)))
        fun applied => do
          if applied then do
            match ← onStore (KeyValueStore.deadlineMs key) with
            | none => append (encodeDelete [key])
            | some deadline =>
                append (encodeRecord [ascii "PEXPIREAT", key, str deadline])
          else pure ()
          pure (Resp.encodeInteger (flag applied))
  | _ => Fallible.raise .index

def ttl : List Bytes → CommandM J Bytes
  | key :: _ => do
      let result ← onStore (KeyValueStore.ttl key)
      if result.present then
        match result.remainingMs with
        | none => pure (Resp.encodeInteger ttlNoExpiry)
        | some remaining =>
            -- Python's `//` rounds down, and so does `Int.div` here: the
            -- divisor is positive.
            pure (Resp.encodeInteger ((remaining + 500) / millisPerSecond))
      else pure (Resp.encodeInteger ttlNoKey)
  | _ => Fallible.raise .index

def persist : List Bytes → CommandM J Bytes
  | key :: _ => do
      let removed ← onStore (KeyValueStore.persist key)
      if removed then append (encodeRecord [ascii "PERSIST", key])
      else pure ()
      pure (Resp.encodeInteger (flag removed))
  | _ => Fallible.raise .index

def get : List Bytes → CommandM J Bytes
  | key :: _ => do
      match ← onStore (KeyValueStore.get key) with
      | none => pure Resp.nullBulkString
      | some value => pure (Resp.encodeBulkString value)
  | _ => Fallible.raise .index

def delete (args : List Bytes) : CommandM J Bytes := do
  let removed ← onStore (KeyValueStore.delete args)
  if removed ≠ 0 then append (encodeDelete args) else pure ()
  pure (Resp.encodeInteger removed)

def «exists» (args : List Bytes) : CommandM J Bytes := do
  let present ← onStore (KeyValueStore.exists args)
  pure (Resp.encodeInteger present)

/-- INCR, recorded as the value it produced. -/
def incr (py : Interpreter) : List Bytes → CommandM J Bytes
  | key :: _ => do
      let updated ← onStore (KeyValueStore.incr py key)
      journalEvictions
      let deadline ← onStore (KeyValueStore.deadlineMs key)
      append (encodeSet key (str updated) deadline)
      pure (Resp.encodeInteger updated)
  | _ => Fallible.raise .index

def dbsize (_ : List Bytes) : CommandM J Bytes := do
  let keys ← onStore KeyValueStore.dbsize
  pure (Resp.encodeInteger keys)

def flushdb (_ : List Bytes) : CommandM J Bytes := do
  onStore KeyValueStore.flushdb
  append (encodeRecord [ascii "FLUSHDB"])
  pure Resp.ok

end Handlers

/-- `_COMMANDS`. -/
def commandTable (py : Interpreter) : List (Bytes × Command J) :=
  [(ascii "PING", ⟨"ping", ping, 0, some 1, false⟩),
   (ascii "SET", ⟨"set", set py, 2, some 4, true⟩),
   (ascii "GET", ⟨"get", get, 1, some 1, false⟩),
   (ascii "EXPIRE", ⟨"expire", expire py, 2, some 2, true⟩),
   (ascii "TTL", ⟨"ttl", ttl, 1, some 1, false⟩),
   (ascii "PERSIST", ⟨"persist", persist, 1, some 1, true⟩),
   (ascii "DEL", ⟨"del", delete, 1, none, true⟩),
   (ascii "EXISTS", ⟨"exists", Commands.exists, 1, none, false⟩),
   (ascii "INCR", ⟨"incr", incr py, 1, some 1, true⟩),
   (ascii "DBSIZE", ⟨"dbsize", dbsize, 0, some 0, false⟩),
   (ascii "FLUSHDB", ⟨"flushdb", flushdb, 0, some 0, true⟩)]

/-- The command a name stands for, whatever its case. -/
def lookupCommand (py : Interpreter) (name : Bytes) : Option (Command J) :=
  (commandTable py).lookup (upper name)

def quote (raw : Bytes) : String :=
  Resp.printable (raw.take maxReportedArgBytes)

def unknownCommand (name : Bytes) (args : List Bytes) : String :=
  "ERR unknown command '" ++ quote name ++ "', with args beginning with: " ++
    String.join ((args.take maxReportedArgs).map
      (fun arg => "'" ++ quote arg ++ "', "))

/-- The number of arguments is outside what the command takes. -/
def Command.wrongArity (command : Command J) (args : List Bytes) : Bool :=
  decide (args.length < command.minArgs) ||
    match command.maxArgs with
    | none => false
    | some most => decide (most < args.length)

def wrongNumberOfArguments (name : String) : String :=
  "ERR wrong number of arguments for '" ++ name ++ "' command"

/-- Execute a request against the store and return the encoded reply. -/
def dispatch (py : Interpreter) : List Bytes → CommandM J Bytes
  | [] => Fallible.raise .index
  | name :: args =>
      match lookupCommand py name with
      | none => pure (Resp.encodeError (unknownCommand name args))
      | some command => do
          if command.wrongArity args then
            pure (Resp.encodeError (wrongNumberOfArguments command.name))
          else do
            let s ← Fallible.get
            if command.mutates && Journal.failed s.2 then
              pure (Resp.encodeError persistenceError)
            else
              (command.handler args).catching fun
                | .persistence _ => pure (Resp.encodeError persistenceError)
                | .store e =>
                    pure (Resp.encodeError (e.code ++ " " ++ e.message))
                | e => Fallible.raise e

end Commands
end PyRedis
