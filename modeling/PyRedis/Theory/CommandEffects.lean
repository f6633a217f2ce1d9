import PyRedis.Core.Commands
import PyRedis.Theory.Keyspace

/-!
# Commands as effects on the store

Every command first works on the store, then hands its records to the journal,
then answers.  `Effect` is what the first part yields: the facts to be
recorded, and the reply.  A handler is the `commit` of its effect, whatever
the journal, and so `dispatch_run` separates the two halves of a request: what
it does to the store never depends on whether the journal takes its records.
-/

namespace PyRedis
namespace Commands

open Foundation

/-- What a command asks to be recorded, and what it answers. -/
structure Effect where
  facts : List Write
  reply : Bytes

/-- The parts of the record that states a fact. -/
def factParts : Write → List Bytes
  | .put key value none => [ascii "SET", key, value]
  | .put key value (some d) =>
      [ascii "SET", key, value, ascii "PXAT", str d]
  | .expireAt key d => [ascii "PEXPIREAT", key, str d]
  | .persist key => [ascii "PERSIST", key]
  | .drop keys => ascii "DEL" :: keys
  | .dropAll => [ascii "FLUSHDB"]

/-- The record that states a fact. -/
def encodeFact (f : Write) : Bytes :=
  encodeRecord (factParts f)

theorem encodeFact_put (key value : Bytes) (d : Option Int) :
    encodeFact (.put key value d) = encodeSet key value d := by
  cases d <;> rfl

theorem encodeFact_drop (keys : List Bytes) :
    encodeFact (.drop keys) = encodeDelete keys := by
  rfl

section Journal

variable {J : Type} [Journal J]

/-- Hand the records of some facts to a journal, in order. -/
def recordAll (fs : List Write) : Fallible Exc J Unit :=
  Fallible.forEach (fun f => Journal.append (encodeFact f)) fs

/-- Work on the store, record what happened, answer. -/
def commit (x : StoreM Effect) : CommandM J Bytes := do
  let effect ← onStore x
  Fallible.onSnd (recordAll effect.facts)
  pure effect.reply

theorem commit_run (x : StoreM Effect) (s : KeyValueStore) (j : J) :
    (commit x).run (s, j) =
      match x.run s with
      | (.error e, t) => (.error e, (t, j))
      | (.ok effect, t) =>
          match (recordAll effect.facts).run j with
          | (.ok _, j') => (.ok effect.reply, (t, j'))
          | (.error e, j') => (.error e, (t, j')) := by
  simp only [commit, onStore, Fallible.run_bind, Fallible.run_onFst]
  rcases x.run s with ⟨e | effect, t⟩
  · rfl
  · simp only [Fallible.run_onSnd]
    rcases (recordAll effect.facts).run j with ⟨e | _, j'⟩ <;> rfl

theorem commit_pure (reply : Bytes) :
    (commit (pure ⟨[], reply⟩) : CommandM J Bytes) = pure reply := by
  rfl

theorem commit_bind {α : Type} (x : StoreM α) (k : α → StoreM Effect) :
    (commit (x >>= k) : CommandM J Bytes) =
      onStore x >>= fun a => commit (k a) := by
  apply Fallible.ext
  rintro ⟨s, j⟩
  simp only [commit_run, onStore, Fallible.run_bind, Fallible.run_onFst]
  rcases x.run s with ⟨e | a, t⟩
  · rfl
  · simp only [commit_run]

theorem commit_ofExcept {α : Type} (r : Except Exc α)
    (k : α → StoreM Effect) :
    (commit (Fallible.ofExcept r >>= k) : CommandM J Bytes) =
      Fallible.ofExcept r >>= fun a => commit (k a) := by
  cases r <;> rfl

/-- One fact, recorded by its record. -/
theorem commit_fact (f : Write) (reply : Bytes) :
    (commit (pure ⟨[f], reply⟩) : CommandM J Bytes) =
      (do
        append (encodeFact f)
        pure reply) := by
  apply Fallible.ext
  rintro ⟨s, j⟩
  simp only [commit_run, append, recordAll, Fallible.forEach,
    Fallible.run_bind, Fallible.run_pure, Fallible.run_onSnd]
  rcases (Journal.append (encodeFact f)).run j with ⟨e | _, j'⟩ <;> rfl

theorem recordAll_append_run (fs gs : List Write) (j : J) :
    (recordAll (fs ++ gs)).run j =
      match (recordAll fs).run j with
      | (.ok _, j') => (recordAll gs).run j'
      | (.error e, j') => (.error e, j') := by
  unfold recordAll
  rw [Fallible.run_forEach_append]
  rcases (Fallible.forEach (fun f => Journal.append (encodeFact f)) fs).run j
    with ⟨e | _, j'⟩ <;> rfl

theorem recordAll_singleton (f : Write) (j : J) :
    (recordAll [f]).run j = (Journal.append (encodeFact f)).run j := by
  simp only [recordAll, Fallible.forEach, Fallible.run_bind]
  rcases (Journal.append (encodeFact f)).run j with ⟨e | _, j'⟩ <;> rfl

/-- `_journal_evictions` records one removal for each evicted key. -/
theorem journalEvictions_run (s : KeyValueStore) (j : J) :
    (journalEvictions : CommandM J Unit).run (s, j) =
      (Fallible.onSnd (recordAll (s.evicted.map (fun k => .drop [k])))).run
        (s.relabel s.evictCursor [], j) := by
  unfold recordAll
  rw [Fallible.forEach_map, ← Fallible.run_forEach_onSnd]
  rfl

/-- The records of an admitted write: its evictions, then the write itself.
Reading the deadline between them changes nothing. -/
theorem commit_write (key value reply : Bytes) :
    (do
      journalEvictions
      let deadline ← onStore (KeyValueStore.deadlineMs key)
      append (encodeSet key value deadline)
      pure reply : CommandM J Bytes) =
    commit (do
      let evicted ← KeyValueStore.takeEvicted
      let deadline ← KeyValueStore.deadlineMs key
      pure ⟨evicted.map (fun k => .drop [k]) ++ [.put key value deadline],
        reply⟩) := by
  apply Fallible.ext
  rintro ⟨s, j⟩
  have hevicted : (do
      let evicted ← KeyValueStore.takeEvicted
      let deadline ← KeyValueStore.deadlineMs key
      pure ⟨evicted.map (fun k => .drop [k]) ++ [.put key value deadline],
        reply⟩ : StoreM Effect).run s =
      (.ok ⟨s.evicted.map (fun k => .drop [k]) ++
        [.put key value (s.expires.lookup key)], reply⟩,
        s.relabel s.evictCursor []) := rfl
  rw [commit_run, hevicted]
  simp only [Fallible.run_bind, journalEvictions_run, Fallible.run_onSnd,
    recordAll_append_run]
  rcases (recordAll (s.evicted.map (fun k => .drop [k]))).run j
    with ⟨e | _, j'⟩
  · rfl
  · simp only [recordAll_singleton, encodeFact_put, append, onStore,
      Fallible.run_onFst, KeyValueStore.deadlineMs, Fallible.run_bind,
      Fallible.run_get, Fallible.run_pure, Fallible.run_onSnd]
    have hlookup : (s.relabel s.evictCursor []).expires.lookup key =
        s.expires.lookup key := rfl
    rw [hlookup]
    rcases (Journal.append
      (encodeSet key value (s.expires.lookup key))).run j' with ⟨e | _, j''⟩
      <;> rfl

end Journal

namespace Effects

/-- `rescueInvalidExpire`, on the store alone. -/
def rescueInvalidExpire {α : Type} (name : String) (x : StoreM α)
    (k : α → StoreM Effect) : StoreM Effect := fun s =>
  match x.run s with
  | (.ok a, t) => (k a).run t
  | (.error (.store .invalidExpire), t) =>
      (.ok ⟨[], Resp.encodeError
        ("ERR invalid expire time in '" ++ name ++ "' command")⟩, t)
  | (.error e, t) => (.error e, t)

theorem rescue_run_ok {α : Type} {name : String} {x : StoreM α}
    {k : α → StoreM Effect} {s t : KeyValueStore} {a : α}
    (h : x.run s = (.ok a, t)) :
    (rescueInvalidExpire name x k).run s = (k a).run t := by
  simp only [Fallible.run, rescueInvalidExpire] at h ⊢
  rw [h]

theorem rescue_run_invalid {α : Type} {name : String} {x : StoreM α}
    {k : α → StoreM Effect} {s t : KeyValueStore}
    (h : x.run s = (.error (.store .invalidExpire), t)) :
    (rescueInvalidExpire name x k).run s =
      (.ok ⟨[], Resp.encodeError
        ("ERR invalid expire time in '" ++ name ++ "' command")⟩, t) := by
  simp only [Fallible.run, rescueInvalidExpire] at h ⊢
  rw [h]

theorem rescue_run_error {α : Type} {name : String} {x : StoreM α}
    {k : α → StoreM Effect} {s t : KeyValueStore} {e : Exc}
    (h : x.run s = (.error e, t)) (he : e ≠ .store .invalidExpire) :
    (rescueInvalidExpire name x k).run s = (.error e, t) := by
  simp only [Fallible.run, rescueInvalidExpire] at h ⊢
  rw [h]
  split
  · next heq =>
      cases heq
  · next heq =>
      cases heq
      exact absurd rfl he
  · next heq =>
      cases heq
      rfl

/-- An admitted write: the report of the evicted keys, then the write. -/
def written (key value reply : Bytes) : StoreM Effect := do
  let evicted ← KeyValueStore.takeEvicted
  let deadline ← KeyValueStore.deadlineMs key
  pure ⟨evicted.map (fun k => .drop [k]) ++ [.put key value deadline], reply⟩

def ping : List Bytes → StoreM Effect
  | [] => pure ⟨[], Resp.pong⟩
  | message :: _ => pure ⟨[], Resp.encodeBulkString message⟩

def set (py : Interpreter) : List Bytes → StoreM Effect
  | key :: value :: options => do
      match ← Fallible.ofExcept (setOptions py options) with
      | none => pure ⟨[], Resp.encodeError "ERR syntax error"⟩
      | some ttlMs =>
          rescueInvalidExpire "set" (KeyValueStore.set key value ttlMs)
            fun _ => written key value Resp.ok
  | _ => Fallible.raise .index

/-- What an `expire` that applied records: the deadline it left, or that the
key is gone. -/
def expiry (key : Bytes) : Option Int → Write
  | none => .drop [key]
  | some deadline => .expireAt key deadline

def expire (py : Interpreter) : List Bytes → StoreM Effect
  | key :: raw :: _ => do
      let seconds ← Fallible.ofExcept (parseInt py raw)
      rescueInvalidExpire "expire"
        (KeyValueStore.expire key (seconds * millisPerSecond)) fun applied =>
          if applied then do
            let deadline ← KeyValueStore.deadlineMs key
            pure ⟨[expiry key deadline], Resp.encodeInteger 1⟩
          else pure ⟨[], Resp.encodeInteger 0⟩
  | _ => Fallible.raise .index

/-- The reply to a TTL query. -/
def ttlReply (result : TtlResult) : Int :=
  if result.present then
    match result.remainingMs with
    | none => ttlNoExpiry
    | some remaining => (remaining + 500) / millisPerSecond
  else ttlNoKey

def ttl : List Bytes → StoreM Effect
  | key :: _ => do
      let result ← KeyValueStore.ttl key
      pure ⟨[], Resp.encodeInteger (ttlReply result)⟩
  | _ => Fallible.raise .index

def persist : List Bytes → StoreM Effect
  | key :: _ => do
      let removed ← KeyValueStore.persist key
      pure ⟨if removed then [.persist key] else [],
        Resp.encodeInteger (flag removed)⟩
  | _ => Fallible.raise .index

/-- The reply to a GET. -/
def getReply : Option Bytes → Bytes
  | none => Resp.nullBulkString
  | some value => Resp.encodeBulkString value

def get : List Bytes → StoreM Effect
  | key :: _ => do
      let value ← KeyValueStore.get key
      pure ⟨[], getReply value⟩
  | _ => Fallible.raise .index

def delete (args : List Bytes) : StoreM Effect := do
  let removed ← KeyValueStore.delete args
  pure ⟨if removed ≠ 0 then [.drop args] else [],
    Resp.encodeInteger removed⟩

def «exists» (args : List Bytes) : StoreM Effect := do
  let present ← KeyValueStore.exists args
  pure ⟨[], Resp.encodeInteger present⟩

def incr (py : Interpreter) : List Bytes → StoreM Effect
  | key :: _ => do
      let updated ← KeyValueStore.incr py key
      written key (str updated) (Resp.encodeInteger updated)
  | _ => Fallible.raise .index

def dbsize (_ : List Bytes) : StoreM Effect := do
  let keys ← KeyValueStore.dbsize
  pure ⟨[], Resp.encodeInteger keys⟩

def flushdb (_ : List Bytes) : StoreM Effect := do
  KeyValueStore.flushdb
  pure ⟨[.dropAll], Resp.ok⟩

end Effects

section Handlers

variable {J : Type} [Journal J]

theorem commit_rescue {α : Type} (name : String) (x : StoreM α)
    (k : α → StoreM Effect) :
    (commit (Effects.rescueInvalidExpire name x k) : CommandM J Bytes) =
      rescueInvalidExpire name (onStore x) fun a => commit (k a) := by
  apply Fallible.ext
  rintro ⟨s, j⟩
  rw [commit_run]
  simp only [Effects.rescueInvalidExpire, rescueInvalidExpire, Fallible.run,
    onStore, Fallible.onFst]
  rcases x s with ⟨e | a, t⟩
  · cases e with
    | store e =>
        cases e <;> rfl
    | _ =>
        rfl
  · exact (commit_run (k a) t j).symm

theorem ping_eq_commit :
    (ping : List Bytes → CommandM J Bytes) =
      fun args => commit (Effects.ping args) := by
  funext args
  cases args <;> rfl

theorem set_eq_commit (py : Interpreter) :
    (set py : List Bytes → CommandM J Bytes) =
      fun args => commit (Effects.set py args) := by
  funext args
  rcases args with _ | ⟨key, _ | ⟨value, options⟩⟩
  · rfl
  · rfl
  · simp only [set, Effects.set, commit_ofExcept]
    congr 1
    funext ttlMs
    cases ttlMs with
    | none =>
        rfl
    | some ttlMs =>
        simp only [commit_rescue, Effects.written, commit_write]

theorem expire_eq_commit (py : Interpreter) :
    (expire py : List Bytes → CommandM J Bytes) =
      fun args => commit (Effects.expire py args) := by
  funext args
  rcases args with _ | ⟨key, _ | ⟨raw, _⟩⟩
  · rfl
  · rfl
  · simp only [expire, Effects.expire, commit_ofExcept, commit_rescue]
    congr 1
    funext seconds
    congr 1
    funext applied
    cases applied with
    | false =>
        rfl
    | true =>
        apply Fallible.ext
        rintro ⟨s, j⟩
        simp only [if_true, commit_bind, commit_fact, onStore, flag,
          Fallible.run_bind, Fallible.run_onFst,
          KeyValueStore.deadlineMs, Fallible.run_get, Fallible.run_pure]
        cases s.expires.lookup key <;> rfl

theorem ttl_eq_commit :
    (ttl : List Bytes → CommandM J Bytes) =
      fun args => commit (Effects.ttl args) := by
  funext args
  cases args with
  | nil =>
      rfl
  | cons key _ =>
      simp only [ttl, Effects.ttl, commit_bind, commit_pure]
      congr 1
      funext result
      unfold Effects.ttlReply
      split_ifs
      · cases result.remainingMs <;> rfl
      · rfl

theorem persist_eq_commit :
    (persist : List Bytes → CommandM J Bytes) =
      fun args => commit (Effects.persist args) := by
  funext args
  cases args with
  | nil =>
      rfl
  | cons key _ =>
      simp only [persist, Effects.persist, commit_bind]
      congr 1
      funext removed
      cases removed with
      | false =>
          rfl
      | true =>
          simp only [if_true, commit_fact]
          rfl

theorem get_eq_commit :
    (get : List Bytes → CommandM J Bytes) =
      fun args => commit (Effects.get args) := by
  funext args
  cases args with
  | nil =>
      rfl
  | cons key _ =>
      simp only [get, Effects.get, commit_bind, commit_pure]
      congr 1
      funext value
      cases value <;> rfl

theorem delete_eq_commit :
    (delete : List Bytes → CommandM J Bytes) =
      fun args => commit (Effects.delete args) := by
  funext args
  simp only [delete, Effects.delete, commit_bind]
  congr 1
  funext removed
  by_cases hremoved : removed = 0
  · simp only [hremoved, ne_eq, not_true_eq_false, if_false]
    rfl
  · simp only [ne_eq, hremoved, not_false_eq_true, if_true, commit_fact,
      encodeFact_drop]

theorem exists_eq_commit :
    (Commands.exists : List Bytes → CommandM J Bytes) =
      fun args => commit (Effects.exists args) := by
  funext args
  simp only [Commands.exists, Effects.exists, commit_bind, commit_pure]

theorem incr_eq_commit (py : Interpreter) :
    (incr py : List Bytes → CommandM J Bytes) =
      fun args => commit (Effects.incr py args) := by
  funext args
  cases args with
  | nil =>
      rfl
  | cons key _ =>
      simp only [incr, Effects.incr]
      rw [commit_bind]
      congr 1
      funext updated
      exact commit_write key (str updated) (Resp.encodeInteger updated)

theorem dbsize_eq_commit :
    (dbsize : List Bytes → CommandM J Bytes) =
      fun args => commit (Effects.dbsize args) := by
  funext args
  simp only [dbsize, Effects.dbsize, commit_bind, commit_pure]

theorem flushdb_eq_commit :
    (flushdb : List Bytes → CommandM J Bytes) =
      fun args => commit (Effects.flushdb args) := by
  funext args
  simp only [flushdb, Effects.flushdb, commit_bind, commit_fact]
  rfl

end Handlers

section Dispatch

/-- A command without a journal: an entry of the table whose handler is an
effect on the store. -/
structure StoreCommand where
  name : String
  effect : List Bytes → StoreM Effect
  minArgs : Nat
  maxArgs : Option Nat
  mutates : Bool

def StoreCommand.command {J : Type} [Journal J] (c : StoreCommand) :
    Command J :=
  ⟨c.name, fun args => commit (c.effect args), c.minArgs, c.maxArgs,
    c.mutates⟩

/-- `_COMMANDS`, without a journal. -/
def storeTable (py : Interpreter) : List (Bytes × StoreCommand) :=
  [(ascii "PING", ⟨"ping", Effects.ping, 0, some 1, false⟩),
   (ascii "SET", ⟨"set", Effects.set py, 2, some 4, true⟩),
   (ascii "GET", ⟨"get", Effects.get, 1, some 1, false⟩),
   (ascii "EXPIRE", ⟨"expire", Effects.expire py, 2, some 2, true⟩),
   (ascii "TTL", ⟨"ttl", Effects.ttl, 1, some 1, false⟩),
   (ascii "PERSIST", ⟨"persist", Effects.persist, 1, some 1, true⟩),
   (ascii "DEL", ⟨"del", Effects.delete, 1, none, true⟩),
   (ascii "EXISTS", ⟨"exists", Effects.exists, 1, none, false⟩),
   (ascii "INCR", ⟨"incr", Effects.incr py, 1, some 1, true⟩),
   (ascii "DBSIZE", ⟨"dbsize", Effects.dbsize, 0, some 0, false⟩),
   (ascii "FLUSHDB", ⟨"flushdb", Effects.flushdb, 0, some 0, true⟩)]

def lookupEffect (py : Interpreter) (name : Bytes) : Option StoreCommand :=
  (storeTable py).lookup (upper name)

/-- A property of every entry of the table holds of what a name finds. -/
theorem lookupEffect_cases {py : Interpreter} {motive : StoreCommand → Prop}
    {name : Bytes} {c : StoreCommand} (hc : lookupEffect py name = some c)
    (ping : motive ⟨"ping", Effects.ping, 0, some 1, false⟩)
    (set : motive ⟨"set", Effects.set py, 2, some 4, true⟩)
    (get : motive ⟨"get", Effects.get, 1, some 1, false⟩)
    (expire : motive ⟨"expire", Effects.expire py, 2, some 2, true⟩)
    (ttl : motive ⟨"ttl", Effects.ttl, 1, some 1, false⟩)
    (persist : motive ⟨"persist", Effects.persist, 1, some 1, true⟩)
    (delete : motive ⟨"del", Effects.delete, 1, none, true⟩)
    («exists» : motive ⟨"exists", Effects.exists, 1, none, false⟩)
    (incr : motive ⟨"incr", Effects.incr py, 1, some 1, true⟩)
    (dbsize : motive ⟨"dbsize", Effects.dbsize, 0, some 0, false⟩)
    (flushdb : motive ⟨"flushdb", Effects.flushdb, 0, some 0, true⟩) :
    motive c := by
  obtain ⟨l₁, l₂, hl, -⟩ := List.lookup_eq_some_iff.mp hc
  have hall : ∀ e ∈ storeTable py, motive e.2 := by
    simp only [storeTable, List.forall_mem_cons]
    exact ⟨ping, set, get, expire, ttl, persist, delete, «exists», incr,
      dbsize, flushdb, by simp⟩
  exact hall (upper name, c) (by simp [hl])

/-- The number of arguments is outside what the command takes. -/
def StoreCommand.wrongArity (c : StoreCommand) (args : List Bytes) : Bool :=
  decide (args.length < c.minArgs) ||
    match c.maxArgs with
    | none => false
    | some most => decide (most < args.length)

/-- The reply to an exception that `dispatch` answers. -/
def errorReply : Exc → Option Bytes
  | .persistence _ => some (Resp.encodeError persistenceError)
  | .store e => some (Resp.encodeError (e.code ++ " " ++ e.message))
  | _ => none

/-- A request without a journal. -/
def execute (py : Interpreter) : List Bytes → StoreM Effect
  | [] => Fallible.raise .index
  | name :: args =>
      match lookupEffect py name with
      | none => pure ⟨[], Resp.encodeError (unknownCommand name args)⟩
      | some c =>
          if c.wrongArity args then
            pure ⟨[], Resp.encodeError (wrongNumberOfArguments c.name)⟩
          else
            (c.effect args).catching fun e =>
              match errorReply e with
              | some reply => pure ⟨[], reply⟩
              | none => Fallible.raise e

/-- The request is a mutation of valid arity, which a failed journal turns
away. -/
def isMutation (py : Interpreter) : List Bytes → Bool
  | [] => false
  | name :: args =>
      match lookupEffect py name with
      | none => false
      | some c => !c.wrongArity args && c.mutates

variable {J : Type} [Journal J]

theorem lookup_map {α β : Type} (f : β → α) (key : Bytes)
    (l : List (Bytes × β)) :
    (l.map (fun e => (e.1, f e.2))).lookup key = (l.lookup key).map f := by
  induction l with
  | nil =>
      rfl
  | cons e l ih =>
      obtain ⟨k, c⟩ := e
      simp only [List.map_cons, List.lookup_cons, ih]
      cases key == k <;> rfl

theorem lookupCommand_eq (py : Interpreter) (name : Bytes) :
    (lookupCommand py name : Option (Command J)) =
      (lookupEffect py name).map StoreCommand.command := by
  have htable : (commandTable py : List (Bytes × Command J)) =
      (storeTable py).map (fun e => (e.1, e.2.command)) := by
    simp only [commandTable, storeTable, StoreCommand.command,
      List.map_cons, List.map_nil, ping_eq_commit, set_eq_commit,
      get_eq_commit, expire_eq_commit, ttl_eq_commit, persist_eq_commit,
      delete_eq_commit, exists_eq_commit, incr_eq_commit,
      dbsize_eq_commit, flushdb_eq_commit]
  unfold lookupCommand lookupEffect
  rw [htable, lookup_map]

/-- A request, whatever the journal: a mutation is turned away at once when
the journal has failed; otherwise the store goes where the request alone takes
it, and the journal is handed the facts. -/
theorem dispatch_run (py : Interpreter) (request : List Bytes)
    (s : KeyValueStore) (j : J) :
    (dispatch py request).run (s, j) =
      if isMutation py request && Journal.failed j then
        (.ok (Resp.encodeError persistenceError), (s, j))
      else
        match (execute py request).run s with
        | (.error e, t) => (.error e, (t, j))
        | (.ok effect, t) =>
            match (recordAll effect.facts).run j with
            | (.ok _, j') => (.ok effect.reply, (t, j'))
            | (.error e, j') =>
                match errorReply e with
                | some reply => (.ok reply, (t, j'))
                | none => (.error e, (t, j')) := by
  cases request with
  | nil =>
      rfl
  | cons name args =>
      obtain hc | ⟨c, hc⟩ := (lookupEffect py name).eq_none_or_eq_some
      · simp only [dispatch, execute, isMutation, lookupCommand_eq, hc]
        rfl
      · have harity : (c.command : Command J).wrongArity args =
            c.wrongArity args := rfl
        have hmutates : (c.command : Command J).mutates = c.mutates := rfl
        have hhandler : (c.command : Command J).handler args =
            commit (c.effect args) := rfl
        simp only [dispatch, execute, isMutation, lookupCommand_eq, hc,
          Option.map_some, harity]
        by_cases hwrong : c.wrongArity args = true
        · simp only [hwrong]
          rfl
        rw [Bool.not_eq_true] at hwrong
        by_cases hrefused : (c.mutates && Journal.failed j) = true
        · simp only [hwrong, hmutates, Bool.false_eq_true, if_false,
            Bool.not_false, Bool.true_and, Fallible.run_bind,
            Fallible.run_get, hrefused, if_true, Fallible.run_pure]
        simp only [hwrong, hmutates, hrefused, hhandler, if_false,
          Bool.false_eq_true, Bool.not_false, Bool.true_and,
          Fallible.run_bind, Fallible.run_get, Fallible.run_catching,
          commit_run]
        rcases (c.effect args).run s with ⟨e | effect, t⟩
        · cases e <;> rfl
        · simp only
          rcases (recordAll effect.facts).run j with ⟨e | _, j'⟩
          · cases e <;> rfl
          · rfl

end Dispatch

end Commands
end PyRedis
