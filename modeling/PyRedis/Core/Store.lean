import PyRedis.Core.Python
import PyRedis.Foundation.Fallible
import PyRedis.Foundation.OrderedDict

/-!
# The in-memory keyspace

The core key-value store: data, deadlines, the memory account, the recency
counters and the two long-lived cursors, with every public operation.

The clock is part of the store.  It is an arbitrary sequence of readings, and
each call of the clock takes the next one, so that time may pass within a
single operation.  A cursor is kept with the key to be popped next at its head.

An operation is a `Fallible` computation: an exception leaves the state as far
as it had been changed.  Removing a key that is not there raises `KeyError`, as
`dict.pop` does.
-/

namespace PyRedis

open Foundation

def int64Min : Int := -2 ^ 63

def int64Max : Int := 2 ^ 63 - 1

/-- What one key is modelled to cost beyond its bytes. -/
def entryOverheadBytes : Int := 64

/-- How many keys an eviction looks at. -/
def maxmemorySamples : Nat := 5

inductive MaxmemoryPolicy where
  | noeviction
  | allkeysLru
deriving DecidableEq

/-- The errors the store reports back to a client. -/
inductive StoreError where
  | notAnInteger
  | integerOverflow
  | invalidExpire
  | outOfMemory
deriving DecidableEq

namespace StoreError

/-- The RESP error code the reply carries. -/
def code : StoreError → String
  | outOfMemory => "OOM"
  | _ => "ERR"

def message : StoreError → String
  | notAnInteger => "value is not an integer or out of range"
  | integerOverflow => "increment or decrement would overflow"
  | invalidExpire => "invalid expire time"
  | outOfMemory => "command not allowed when used memory > 'maxmemory'."

end StoreError

/-- Everything the modelled functions can raise.  `spin` marks a loop that has
used up the number of passes it was given. -/
inductive Exc where
  | store (e : StoreError)
  | persistence (reason : String)
  | corrupt (offset : Nat) (reason : String)
  | value
  | key
  | index
  | spin
deriving DecidableEq

/-- A clock: the readings it will give, and how many were taken. -/
structure Clock where
  readings : Nat → Int
  taken : Nat

namespace Clock

def now (c : Clock) : Int :=
  c.readings c.taken

def advance (c : Clock) : Clock :=
  { c with taken := c.taken + 1 }

/-- A clock that stands still. -/
def frozen (t : Int) : Clock :=
  ⟨fun _ => t, 0⟩

end Clock

/-- `TtlResult`. -/
structure TtlResult where
  present : Bool
  remainingMs : Option Int
deriving DecidableEq

structure KeyValueStore where
  data : OrderedDict Bytes Bytes
  expires : OrderedDict Bytes Int
  clock : Clock
  sweepCursor : List Bytes
  maxmemory : Int
  policy : MaxmemoryPolicy
  memory : Int
  access : OrderedDict Bytes Nat
  tick : Nat
  evictCursor : List Bytes
  evicted : List Bytes

/-- A computation on the store. -/
abbrev StoreM := Fallible Exc KeyValueStore

/-- What one entry is modelled to occupy. -/
def cost (key value : Bytes) : Int :=
  key.length + value.length + entryOverheadBytes

/-- `0|-?[1-9][0-9]*`, matched against the whole text. -/
def isCanonical (value : Bytes) : Bool :=
  value == [48] ||
    match (Decimal.splitSign value).2 with
    | [] => false
    | b :: rest => Decimal.isDigit b && b != 48 && rest.all Decimal.isDigit

/-- Read a value as a canonical decimal signed 64-bit integer. -/
def parseInt (py : Interpreter) (value : Bytes) : Except Exc Int :=
  if isCanonical value then
    match py.int value with
    | none => .error .value
    | some parsed =>
        if int64Min ≤ parsed ∧ parsed ≤ int64Max then .ok parsed
        else .error (.store .notAnInteger)
  else .error (.store .notAnInteger)

namespace KeyValueStore

/-- `KeyValueStore.__init__`. -/
def init (clock : Clock) (maxmemory : Int) (policy : MaxmemoryPolicy) :
    KeyValueStore where
  data := .empty
  expires := .empty
  clock := clock
  sweepCursor := []
  maxmemory := maxmemory
  policy := policy
  memory := 0
  access := .empty
  tick := 0
  evictCursor := []
  evicted := []

section Helpers

/-- Take a reading of the clock. -/
def readClock : StoreM Int := fun s =>
  (.ok s.clock.now, { s with clock := s.clock.advance })

/-- What remains of a store when a key with this value is taken out. -/
def without (s : KeyValueStore) (key value : Bytes) : KeyValueStore :=
  { s with
    data := s.data.erase key
    memory := s.memory - cost key value
    expires := s.expires.erase key
    access := s.access.erase key }

def remove (key : Bytes) : StoreM Unit := fun s =>
  match s.data.lookup key with
  | none => (.error .key, s)
  | some value => (.ok (), s.without key value)

/-- Store a value, keeping the memory total exact. -/
def write (s : KeyValueStore) (key value : Bytes) : KeyValueStore :=
  { s with
    memory :=
      match s.data.lookup key with
      | none => s.memory + cost key value
      | some previous => s.memory + (value.length - previous.length)
    data := s.data.set key value }

/-- Mark a key as just used. -/
def touch (s : KeyValueStore) (key : Bytes) : KeyValueStore :=
  { s with
    tick := s.tick + 1
    access := s.access.set key (s.tick + 1) }

def setExpires (s : KeyValueStore) (key : Bytes) (deadline : Int) :
    KeyValueStore :=
  { s with expires := s.expires.set key deadline }

def popExpires (s : KeyValueStore) (key : Bytes) : KeyValueStore :=
  { s with expires := s.expires.erase key }

/-- Install a deadline, or clear it. -/
def assignExpires (s : KeyValueStore) (key : Bytes) :
    Option Int → KeyValueStore
  | none => s.popExpires key
  | some deadline => s.setExpires key deadline

def deadline (ttlMs : Int) : StoreM Int := do
  if ttlMs ≤ 0 then
    Fallible.raise (.store .invalidExpire)
  else do
    let now ← readClock
    if int64Max < now + ttlMs then
      Fallible.raise (.store .invalidExpire)
    else
      pure (now + ttlMs)

/-- Delete a key if its deadline has arrived.  The clock is read only for a
key that has a deadline, and only when no reading was passed in. -/
def dropIfExpired (key : Bytes) (now : Option Int) : StoreM Unit := do
  let s ← Fallible.get
  match s.expires.lookup key with
  | none => pure ()
  | some deadline => do
      let now ← (match now with
        | none => readClock
        | some t => pure t)
      if deadline ≤ now then remove key else pure ()

/-- One key of the reclaim at a reading. -/
def dropStep (now : Int) (removed : Nat) (key : Bytes) : StoreM Nat := do
  let s ← Fallible.get
  match s.expires.lookup key with
  | none => Fallible.raise .key
  | some deadline =>
      if deadline ≤ now then do
        remove key
        pure (removed + 1)
      else pure removed

/-- Remove every key whose deadline has passed. -/
def dropExpired : StoreM Nat := do
  let now ← readClock
  let s ← Fallible.get
  s.expires.keys.foldlM (dropStep now) 0

end Helpers

section MemoryLimits

/-- What the memory total would become if `key` came to cost `cost'`. -/
def projected (s : KeyValueStore) (key : Bytes) (cost' : Int) : Int :=
  s.memory - (match s.data.lookup key with
    | none => 0
    | some value => cost key value) + cost'

/-- Pop from a cursor until it is empty or the sample is full. -/
def draw (s : KeyValueStore) (exclude : Bytes) :
    List Bytes → List Bytes → List Bytes × List Bytes
  | candidates, [] => (candidates, [])
  | candidates, candidate :: cursor =>
      if candidates.length < maxmemorySamples then
        if candidate ≠ exclude ∧ candidate ∈ s.data then
          draw s exclude (candidates ++ [candidate]) cursor
        else draw s exclude candidates cursor
      else (candidates, candidate :: cursor)

/-- A cursor refilled with every key but the excluded one; the last key of the
dictionary is popped first. -/
def refill (s : KeyValueStore) (exclude : Bytes) : List Bytes :=
  (s.data.keys.filter (fun key => key ≠ exclude)).reverse

/-- The sample of one selection and the cursor it leaves.  The loop of the
source draws from the cursor it finds, and when that runs out before the
sample is full it refills the cursor once and goes on. -/
def sample (s : KeyValueStore) (exclude : Bytes) : List Bytes × List Bytes :=
  let first := draw s exclude [] s.evictCursor
  if first.1.length < maxmemorySamples then
    draw s exclude first.1 (refill s exclude)
  else first

/-- The first element with the smallest rank, as `min` with a key picks it. -/
def leastBy (rank : Bytes → Nat) : Bytes → List Bytes → Bytes
  | best, [] => best
  | best, candidate :: rest =>
      if rank candidate < rank best then leastBy rank candidate rest
      else leastBy rank best rest

/-- The access counter of a key, 0 when it has none. -/
def accessOf (s : KeyValueStore) (key : Bytes) : Nat :=
  (s.access.lookup key).getD 0

/-- The least recently used key of a small sample, never `exclude`. -/
def selectVictim (exclude : Bytes) : StoreM (Option Bytes) := fun s =>
  let drawn := sample s exclude
  let s' := { s with evictCursor := drawn.2 }
  match drawn.1 with
  | [] => (.ok none, s')
  | best :: rest => (.ok (some (leastBy s.accessOf best rest)), s')

/-- Evict until the write fits.  Every pass removes a key or raises, so one
pass more than there are keys is enough. -/
def evictUntilFits (key : Bytes) (cost' : Int) : Nat → StoreM Unit
  | 0 => Fallible.raise .spin
  | passes + 1 => do
      let s ← Fallible.get
      if s.maxmemory < s.projected key cost' then do
        match ← selectVictim key with
        | none => Fallible.raise (.store .outOfMemory)
        | some victim => do
            remove victim
            Fallible.modify (fun s =>
              { s with evicted := s.evicted ++ [victim] })
            evictUntilFits key cost' passes
      else pure ()

/-- Make room for `key` holding `value`, or refuse the write. -/
def admitWrite (key value : Bytes) : StoreM Unit := do
  let s ← Fallible.get
  if s.maxmemory = 0 then pure ()
  else if s.projected key (cost key value) ≤ s.maxmemory then pure ()
  else if s.policy = .noeviction then
    Fallible.raise (.store .outOfMemory)
  else if s.maxmemory < cost key value then
    -- Even an empty keyspace could not hold it; refuse before evicting.
    Fallible.raise (.store .outOfMemory)
  else do
    -- Reclaim what has merely expired before destroying anything live.
    let _ ← dropExpired
    let s ← Fallible.get
    evictUntilFits key (cost key value) (s.data.size + 1)

end MemoryLimits

section Operations

def set (key value : Bytes) (ttlMs : Option Int) : StoreM Unit := do
  let deadline ← (match ttlMs with
    | none => pure none
    | some ttl => do
        let d ← deadline ttl
        pure (some d))
  admitWrite key value
  Fallible.modify (fun s => s.write key value)
  Fallible.modify (fun s => s.assignExpires key deadline)
  Fallible.modify (fun s => s.touch key)

def get (key : Bytes) : StoreM (Option Bytes) := do
  dropIfExpired key none
  let s ← Fallible.get
  match s.data.lookup key with
  | none => pure none
  | some value => do
      Fallible.modify (fun s => s.touch key)
      pure (some value)

/-- One key of a `delete`. -/
def deleteStep (removed : Nat) (key : Bytes) : StoreM Nat := do
  dropIfExpired key none
  let s ← Fallible.get
  if key ∈ s.data then do
    remove key
    pure (removed + 1)
  else pure removed

def delete (keys : List Bytes) : StoreM Nat :=
  keys.foldlM deleteStep 0

/-- One key of an `exists`. -/
def existsStep (present : Nat) (key : Bytes) : StoreM Nat := do
  dropIfExpired key none
  let s ← Fallible.get
  if key ∈ s.data then pure (present + 1) else pure present

def «exists» (keys : List Bytes) : StoreM Nat :=
  keys.foldlM existsStep 0

def incr (py : Interpreter) (key : Bytes) : StoreM Int := do
  dropIfExpired key none
  let s ← Fallible.get
  let current ← (match s.data.lookup key with
    | none => pure 0
    | some raw => Fallible.ofExcept (parseInt py raw))
  if int64Max < current + 1 then
    Fallible.raise (.store .integerOverflow)
  else do
    admitWrite key (str (current + 1))
    Fallible.modify (fun s => s.write key (str (current + 1)))
    Fallible.modify (fun s => s.touch key)
    pure (current + 1)

def expire (key : Bytes) (ttlMs : Int) : StoreM Bool := do
  dropIfExpired key none
  let s ← Fallible.get
  if key ∈ s.data then
    if ttlMs ≤ 0 then do
      remove key
      pure true
    else do
      let d ← deadline ttlMs
      Fallible.modify (fun s => s.setExpires key d)
      pure true
  else pure false

def ttl (key : Bytes) : StoreM TtlResult := do
  let now ← readClock
  dropIfExpired key (some now)
  let s ← Fallible.get
  if key ∈ s.data then
    match s.expires.lookup key with
    | none => pure ⟨true, none⟩
    | some deadline => pure ⟨true, some (deadline - now)⟩
  else pure ⟨false, none⟩

def persist (key : Bytes) : StoreM Bool := do
  dropIfExpired key none
  let s ← Fallible.get
  if key ∈ s.data ∧ key ∈ s.expires then do
    Fallible.modify (fun s => s.popExpires key)
    pure true
  else pure false

/-- The deadline stored for a key; expiry is not evaluated. -/
def deadlineMs (key : Bytes) : StoreM (Option Int) := do
  let s ← Fallible.get
  pure (s.expires.lookup key)

/-- The number of live keys, after collecting the expired ones. -/
def dbsize : StoreM Nat := do
  let _ ← dropExpired
  let s ← Fallible.get
  pure s.data.size

def cleared (s : KeyValueStore) : KeyValueStore :=
  { s with
    data := .empty
    expires := .empty
    sweepCursor := []
    access := .empty
    evictCursor := []
    memory := 0 }

def flushdb : StoreM Unit :=
  Fallible.modify cleared

/-- The keys evicted since the last report, which are then forgotten. -/
def takeEvicted : StoreM (List Bytes) := fun s =>
  (.ok s.evicted, { s with evicted := [] })

/-- The loop of `sweep_expired`, with the number of passes left. -/
def sweepLoop (now : Int) : Nat → Bool → Nat → StoreM Nat
  | 0, _, removed => pure removed
  | passes + 1, refilled, removed => do
      let s ← Fallible.get
      if s.sweepCursor = [] ∧ (refilled ∨ s.expires.keys = []) then
        pure removed
      else do
        let cursor :=
          if s.sweepCursor = [] then s.expires.keys.reverse else s.sweepCursor
        let refilled := refilled || s.sweepCursor.isEmpty
        match cursor with
        | [] => Fallible.raise .index
        | key :: cursor => do
            Fallible.modify (fun s => { s with sweepCursor := cursor })
            match s.expires.lookup key with
            | none => sweepLoop now passes refilled removed
            | some deadline =>
                if deadline ≤ now then do
                  remove key
                  sweepLoop now passes refilled (removed + 1)
                else sweepLoop now passes refilled removed

/-- Examine at most `limit` keys with deadlines; drop the expired ones. -/
def sweepExpired (limit : Nat) : StoreM Nat := do
  let now ← readClock
  sweepLoop now limit false 0

end Operations

section Recovery

/-- Put a key back exactly as recorded. -/
def restore (key value : Bytes) (deadlineMs : Option Int) : StoreM Unit := do
  Fallible.modify (fun s => s.write key value)
  Fallible.modify (fun s => s.assignExpires key deadlineMs)

/-- Attach an absolute deadline to an existing key. -/
def setDeadline (key : Bytes) (deadlineMs : Int) : StoreM Unit :=
  Fallible.modify (fun s =>
    if key ∈ s.data then s.setExpires key deadlineMs else s)

/-- Drop the deadline of a key, if it has one. -/
def clearDeadline (key : Bytes) : StoreM Unit :=
  Fallible.modify (fun s => s.popExpires key)

/-- One key of a `discard`. -/
def discardStep (key : Bytes) : StoreM Unit := do
  let s ← Fallible.get
  if key ∈ s.data then remove key else pure ()

/-- Remove keys unconditionally, reporting nothing. -/
def discard (keys : List Bytes) : StoreM Unit :=
  Fallible.forEach discardStep keys

end Recovery

end KeyValueStore

end PyRedis
