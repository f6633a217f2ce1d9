import PyRedis.Theory.CommandSteps

/-!
# What a request asks of the store

Reading a request and acting on it are two things.  What is asked does not
depend on the store: a reply that is known at once, an exception, or one
operation with its arguments.  `execute` is the plan of a request carried out,
so what a request does is said once for each kind of plan, in closed form.
-/

namespace PyRedis
namespace Commands

open Foundation KeyValueStore

/-- What a request comes down to. -/
inductive Plan where
  | answer (reply : Bytes)
  | raise (e : Exc)
  | set (key value : Bytes) (ttlMs : Option Int)
  | get (key : Bytes)
  | expire (key : Bytes) (ttlMs : Int)
  | ttl (key : Bytes)
  | persist (key : Bytes)
  | delete (keys : List Bytes)
  | «exists» (keys : List Bytes)
  | incr (key : Bytes)
  | dbsize
  | flushdb

section Reading

namespace Plans

def ping : List Bytes → Plan
  | [] => .answer Resp.pong
  | message :: _ => .answer (Resp.encodeBulkString message)

def set (py : Interpreter) : List Bytes → Plan
  | key :: value :: options =>
      match setOptions py options with
      | .error e => .raise e
      | .ok none => .answer (Resp.encodeError "ERR syntax error")
      | .ok (some ttlMs) => .set key value ttlMs
  | _ => .raise .index

def expire (py : Interpreter) : List Bytes → Plan
  | key :: raw :: _ =>
      match parseInt py raw with
      | .error e => .raise e
      | .ok seconds => .expire key (seconds * millisPerSecond)
  | _ => .raise .index

/-- A command that takes one key. -/
def keyed (f : Bytes → Plan) : List Bytes → Plan
  | key :: _ => f key
  | _ => .raise .index

end Plans

/-- An entry of the command table whose handler only reads the request. -/
structure PlannedCommand where
  name : String
  plan : List Bytes → Plan
  minArgs : Nat
  maxArgs : Option Nat
  mutates : Bool

/-- `_COMMANDS`, as far as the request is concerned. -/
def planTable (py : Interpreter) : List (Bytes × PlannedCommand) :=
  [(ascii "PING", ⟨"ping", Plans.ping, 0, some 1, false⟩),
   (ascii "SET", ⟨"set", Plans.set py, 2, some 4, true⟩),
   (ascii "GET", ⟨"get", Plans.keyed .get, 1, some 1, false⟩),
   (ascii "EXPIRE", ⟨"expire", Plans.expire py, 2, some 2, true⟩),
   (ascii "TTL", ⟨"ttl", Plans.keyed .ttl, 1, some 1, false⟩),
   (ascii "PERSIST", ⟨"persist", Plans.keyed .persist, 1, some 1, true⟩),
   (ascii "DEL", ⟨"del", .delete, 1, none, true⟩),
   (ascii "EXISTS", ⟨"exists", .exists, 1, none, false⟩),
   (ascii "INCR", ⟨"incr", Plans.keyed .incr, 1, some 1, true⟩),
   (ascii "DBSIZE", ⟨"dbsize", fun _ => .dbsize, 0, some 0, false⟩),
   (ascii "FLUSHDB", ⟨"flushdb", fun _ => .flushdb, 0, some 0, true⟩)]

def PlannedCommand.wrongArity (c : PlannedCommand) (args : List Bytes) :
    Bool :=
  decide (args.length < c.minArgs) ||
    match c.maxArgs with
    | none => false
    | some most => decide (most < args.length)

/-- The plan of a request. -/
def plan (py : Interpreter) : List Bytes → Plan
  | [] => .raise .index
  | name :: args =>
      match (planTable py).lookup (upper name) with
      | none => .answer (Resp.encodeError (unknownCommand name args))
      | some c =>
          if c.wrongArity args then
            .answer (Resp.encodeError (wrongNumberOfArguments c.name))
          else c.plan args

/-- What a name and arguments can come down to. -/
inductive PlanOf (name : Bytes) (args : List Bytes) : Plan → Prop where
  | answer (reply : Bytes) : PlanOf name args (.answer reply)
  | raise (e : Exc) : PlanOf name args (.raise e)
  | set {key value : Bytes} {options : List Bytes} (ttlMs : Option Int)
      (hname : upper name = ascii "SET")
      (hargs : args = key :: value :: options) :
      PlanOf name args (.set key value ttlMs)
  | get {key : Bytes} {rest : List Bytes} (hname : upper name = ascii "GET")
      (hargs : args = key :: rest) : PlanOf name args (.get key)
  | expire {key raw : Bytes} {rest : List Bytes} (ttlMs : Int)
      (hname : upper name = ascii "EXPIRE")
      (hargs : args = key :: raw :: rest) :
      PlanOf name args (.expire key ttlMs)
  | ttl {key : Bytes} {rest : List Bytes} (hname : upper name = ascii "TTL")
      (hargs : args = key :: rest) : PlanOf name args (.ttl key)
  | persist {key : Bytes} {rest : List Bytes}
      (hname : upper name = ascii "PERSIST") (hargs : args = key :: rest) :
      PlanOf name args (.persist key)
  | delete (hname : upper name = ascii "DEL") : PlanOf name args (.delete args)
  | «exists» (hname : upper name = ascii "EXISTS") :
      PlanOf name args (.exists args)
  | incr {key : Bytes} {rest : List Bytes}
      (hname : upper name = ascii "INCR") (hargs : args = key :: rest) :
      PlanOf name args (.incr key)
  | dbsize (hname : upper name = ascii "DBSIZE") : PlanOf name args .dbsize
  | flushdb (hname : upper name = ascii "FLUSHDB") :
      PlanOf name args .flushdb

theorem planOf_keyed {name : Bytes} {args : List Bytes} {f : Bytes → Plan}
    (h : ∀ key rest, args = key :: rest → PlanOf name args (f key)) :
    PlanOf name args (Plans.keyed f args) := by
  cases args with
  | nil =>
      exact .raise _
  | cons key rest =>
      exact h key rest rfl

theorem planOf_entry {py : Interpreter} {name : Bytes} {c : PlannedCommand}
    (h : (upper name, c) ∈ planTable py) (args : List Bytes) :
    PlanOf name args (c.plan args) := by
  simp only [planTable, List.mem_cons, List.not_mem_nil, or_false,
    Prod.mk.injEq] at h
  rcases h with ⟨hn, rfl⟩ | ⟨hn, rfl⟩ | ⟨hn, rfl⟩ | ⟨hn, rfl⟩ | ⟨hn, rfl⟩ |
    ⟨hn, rfl⟩ | ⟨hn, rfl⟩ | ⟨hn, rfl⟩ | ⟨hn, rfl⟩ | ⟨hn, rfl⟩ | ⟨hn, rfl⟩
  · cases args <;> exact .answer _
  · rcases args with _ | ⟨key, _ | ⟨value, options⟩⟩
    · exact .raise _
    · exact .raise _
    · simp only [Plans.set]
      rcases setOptions py options with e | _ | ttlMs
      · exact .raise e
      · exact .answer _
      · exact .set ttlMs hn rfl
  · exact planOf_keyed fun _ _ hargs => .get hn hargs
  · rcases args with _ | ⟨key, _ | ⟨raw, rest⟩⟩
    · exact .raise _
    · exact .raise _
    · simp only [Plans.expire]
      rcases parseInt py raw with e | seconds
      · exact .raise e
      · exact .expire _ hn rfl
  · exact planOf_keyed fun _ _ hargs => .ttl hn hargs
  · exact planOf_keyed fun _ _ hargs => .persist hn hargs
  · exact .delete hn
  · exact .exists hn
  · exact planOf_keyed fun _ _ hargs => .incr hn hargs
  · exact .dbsize hn
  · exact .flushdb hn

/-- The plan of a request is one its name stands for. -/
theorem planOf_request (py : Interpreter) (name : Bytes)
    (args : List Bytes) : PlanOf name args (plan py (name :: args)) := by
  simp only [plan]
  cases hc : (planTable py).lookup (upper name) with
  | none =>
      exact .answer _
  | some c =>
      obtain ⟨l, l', hl, -⟩ := List.lookup_eq_some_iff.mp hc
      have hmem : (upper name, c) ∈ planTable py := by
        rw [hl]
        simp
      simp only
      split_ifs
      · exact .answer _
      · exact planOf_entry hmem args

end Reading

section Acting

namespace Plan

/-- The plan carried out; an exception leaves it as it is. -/
def attempt (py : Interpreter) : Plan → StoreM Effect
  | answer reply => pure ⟨[], reply⟩
  | raise e => Fallible.raise e
  | set key value ttlMs =>
      Effects.rescueInvalidExpire "set" (KeyValueStore.set key value ttlMs)
        fun _ => Effects.written key value Resp.ok
  | get key => Effects.get [key]
  | expire key ttlMs =>
      Effects.rescueInvalidExpire "expire" (KeyValueStore.expire key ttlMs)
        fun applied =>
          if applied then do
            let deadline ← KeyValueStore.deadlineMs key
            pure ⟨[Effects.expiry key deadline], Resp.encodeInteger 1⟩
          else pure ⟨[], Resp.encodeInteger 0⟩
  | ttl key => Effects.ttl [key]
  | persist key => Effects.persist [key]
  | delete keys => Effects.delete keys
  | .exists keys => Effects.exists keys
  | incr key => Effects.incr py [key]
  | dbsize => Effects.dbsize []
  | flushdb => Effects.flushdb []

/-- The plan carried out, with the exceptions that `dispatch` answers. -/
def effect (py : Interpreter) (p : Plan) : StoreM Effect :=
  (p.attempt py).catching fun e =>
    match errorReply e with
    | some reply => pure ⟨[], reply⟩
    | none => Fallible.raise e

end Plan

def PlannedCommand.command (py : Interpreter) (c : PlannedCommand) :
    StoreCommand :=
  ⟨c.name, fun args => (c.plan args).attempt py, c.minArgs, c.maxArgs,
    c.mutates⟩

variable (py : Interpreter)

theorem ping_eq_attempt :
    Effects.ping = fun args => (Plans.ping args).attempt py := by
  funext args
  cases args <;> rfl

theorem set_eq_attempt :
    Effects.set py = fun args => (Plans.set py args).attempt py := by
  funext args
  rcases args with _ | ⟨key, _ | ⟨value, options⟩⟩
  · rfl
  · rfl
  · simp only [Effects.set, Plans.set]
    rcases setOptions py options with e | _ | ttlMs <;> rfl

theorem expire_eq_attempt :
    Effects.expire py = fun args => (Plans.expire py args).attempt py := by
  funext args
  rcases args with _ | ⟨key, _ | ⟨raw, rest⟩⟩
  · rfl
  · rfl
  · simp only [Effects.expire, Plans.expire]
    rcases parseInt py raw with e | seconds <;> rfl

theorem keyed_eq_attempt {x : List Bytes → StoreM Effect} {f : Bytes → Plan}
    (hnil : x [] = Fallible.raise .index)
    (hcons : ∀ key rest, x (key :: rest) = (f key).attempt py) :
    x = fun args => (Plans.keyed f args).attempt py := by
  funext args
  cases args with
  | nil =>
      exact hnil
  | cons key rest =>
      exact hcons key rest

theorem storeTable_eq_planned :
    storeTable py = (planTable py).map (fun e => (e.1, e.2.command py)) := by
  simp only [planTable, List.map_cons, List.map_nil, PlannedCommand.command,
    ← ping_eq_attempt, ← set_eq_attempt, ← expire_eq_attempt]
  rw [← keyed_eq_attempt py (x := Effects.get) rfl fun _ _ => rfl,
    ← keyed_eq_attempt py (x := Effects.ttl) rfl fun _ _ => rfl,
    ← keyed_eq_attempt py (x := Effects.persist) rfl fun _ _ => rfl,
    ← keyed_eq_attempt py (x := Effects.incr py) rfl fun _ _ => rfl]
  rfl

/-- **A request is its plan carried out.** -/
theorem execute_eq_plan (request : List Bytes) :
    execute py request = (plan py request).effect py := by
  cases request with
  | nil =>
      rfl
  | cons name args =>
      simp only [execute, plan, lookupEffect, storeTable_eq_planned,
        lookup_map]
      cases (planTable py).lookup (upper name) with
      | none =>
          rfl
      | some c =>
          have harity : (c.command py).wrongArity args = c.wrongArity args := by
            rfl
          simp only [Option.map_some, harity]
          split_ifs
          · rfl
          · rfl

end Acting

section Runs

variable {py : Interpreter} {s t : KeyValueStore}

theorem Plan.effect_run_ok {p : Plan} {e : Effect}
    (h : (p.attempt py).run s = (.ok e, t)) :
    (p.effect py).run s = (.ok e, t) := by
  simp only [Plan.effect, Fallible.run_catching, h]

theorem Plan.effect_run_reply {p : Plan} {e : Exc} {reply : Bytes}
    (h : (p.attempt py).run s = (.error e, t))
    (hreply : errorReply e = some reply) :
    (p.effect py).run s = (.ok ⟨[], reply⟩, t) := by
  simp only [Plan.effect, Fallible.run_catching, h, hreply,
    Fallible.run_pure]

theorem Plan.effect_run_raise {p : Plan} {e : Exc}
    (h : (p.attempt py).run s = (.error e, t))
    (hreply : errorReply e = none) :
    (p.effect py).run s = (.error e, t) := by
  simp only [Plan.effect, Fallible.run_catching, h, hreply,
    Fallible.run_raise]

/-- The reply to an error of the store. -/
def storeErrorReply (e : StoreError) : Bytes :=
  Resp.encodeError (e.code ++ " " ++ e.message)

/-- The reply to an invalid expire time. -/
def invalidExpireReply (name : String) : Bytes :=
  Resp.encodeError ("ERR invalid expire time in '" ++ name ++ "' command")

/-- What an admitted write reports: the evicted keys, then the write. -/
def writeFacts (s : KeyValueStore) (key value : Bytes) : List Write :=
  s.evicted.map (fun k => .drop [k]) ++
    [.put key value (s.expires.lookup key)]

/-- A store whose evicted keys have been reported. -/
def reported (s : KeyValueStore) : KeyValueStore :=
  s.relabel s.evictCursor []

theorem written_run (s : KeyValueStore) (key value reply : Bytes) :
    (Effects.written key value reply).run s =
      (.ok ⟨writeFacts s key value, reply⟩, reported s) := by
  rfl

/-- What a SET does. -/
inductive SetRuns (s : KeyValueStore) (key value : Bytes)
    (ttlMs : Option Int) : Effect → KeyValueStore → Prop where
  | untimely {t : KeyValueStore}
      (h : s.timing ttlMs = (.error (.store .invalidExpire), t)) :
      SetRuns s key value ttlMs ⟨[], invalidExpireReply "set"⟩ t
  | refused {d : Option Int} {t : KeyValueStore}
      (h : s.timing ttlMs = (.ok d, t)) (hr : t.Refuses key value) :
      SetRuns s key value ttlMs ⟨[], storeErrorReply .outOfMemory⟩ t
  | stored {d : Option Int} {t u : KeyValueStore} {victims : List Bytes}
      (h : s.timing ttlMs = (.ok d, t)) (hr : ¬ t.Refuses key value)
      (ha : Admits t key value victims u) :
      SetRuns s key value ttlMs
        ⟨writeFacts (u.stored key value d) key value, Resp.ok⟩
        (reported (u.stored key value d))

theorem set_effect_run (h : Exact s) (key value : Bytes)
    (ttlMs : Option Int) :
    ∃ e t, SetRuns s key value ttlMs e t ∧
      ((Plan.set key value ttlMs).effect py).run s = (.ok e, t) := by
  obtain ⟨r, t, hsets, hrun⟩ := set_run h key value ttlMs
  cases hsets with
  | untimely htiming =>
      exact ⟨_, _, .untimely htiming,
        Plan.effect_run_ok (Effects.rescue_run_invalid hrun)⟩
  | refused htiming hr =>
      exact ⟨_, _, .refused htiming hr, Plan.effect_run_reply
        (Effects.rescue_run_error hrun (by simp)) rfl⟩
  | stored htiming hr ha =>
      refine ⟨_, _, .stored htiming hr ha, Plan.effect_run_ok ?_⟩
      simp only [Plan.attempt]
      rw [Effects.rescue_run_ok hrun, written_run]

/-- What an INCR does; a value that `int` refuses to convert escapes. -/
inductive IncrRuns (py : Interpreter) (s : KeyValueStore) (key : Bytes) :
    Except Exc Effect → KeyValueStore → Prop where
  | unread (h : (s.settled key).counter py key = .error .value) :
      IncrRuns py s key (.error .value) (s.settled key)
  | malformed (h : (s.settled key).counter py key =
        .error (.store .notAnInteger)) :
      IncrRuns py s key (.ok ⟨[], storeErrorReply .notAnInteger⟩)
        (s.settled key)
  | overflow {n : Int} (h : (s.settled key).counter py key = .ok n)
      (hover : int64Max < n + 1) :
      IncrRuns py s key (.ok ⟨[], storeErrorReply .integerOverflow⟩)
        (s.settled key)
  | refused {n : Int} (h : (s.settled key).counter py key = .ok n)
      (hfits : n + 1 ≤ int64Max)
      (hr : (s.settled key).Refuses key (str (n + 1))) :
      IncrRuns py s key (.ok ⟨[], storeErrorReply .outOfMemory⟩)
        (s.settled key)
  | stored {n : Int} {u : KeyValueStore} {victims : List Bytes}
      (h : (s.settled key).counter py key = .ok n)
      (hfits : n + 1 ≤ int64Max)
      (hr : ¬ (s.settled key).Refuses key (str (n + 1)))
      (ha : Admits (s.settled key) key (str (n + 1)) victims u) :
      IncrRuns py s key
        (.ok ⟨writeFacts (u.rewritten key (str (n + 1))) key (str (n + 1)),
          Resp.encodeInteger (n + 1)⟩)
        (reported (u.rewritten key (str (n + 1))))

theorem incr_effect_run (h : Exact s) (key : Bytes) :
    ∃ r t, IncrRuns py s key r t ∧
      ((Plan.incr key).effect py).run s = (r, t) := by
  obtain ⟨r, t, hincrs, hrun⟩ := incr_run h py key
  have hattempt : ∀ {e}, r = .error e →
      ((Plan.incr key).attempt py).run s = (.error e, t) := by
    rintro e rfl
    simp only [Plan.attempt, Effects.incr, Fallible.run_bind, hrun]
  cases hincrs with
  | malformed hcounter =>
      rcases counter_error hcounter with rfl | rfl
      · exact ⟨_, _, .unread hcounter,
          Plan.effect_run_raise (hattempt rfl) rfl⟩
      · exact ⟨_, _, .malformed hcounter,
          Plan.effect_run_reply (hattempt rfl) rfl⟩
  | overflow hcounter hover =>
      exact ⟨_, _, .overflow hcounter hover,
        Plan.effect_run_reply (hattempt rfl) rfl⟩
  | refused hcounter hfits hr =>
      exact ⟨_, _, .refused hcounter hfits hr,
        Plan.effect_run_reply (hattempt rfl) rfl⟩
  | stored hcounter hfits hr ha =>
      refine ⟨_, _, .stored hcounter hfits hr ha, Plan.effect_run_ok ?_⟩
      simp only [Plan.attempt, Effects.incr, Fallible.run_bind, hrun,
        written_run]

/-- What an EXPIRE answers, what it reports, and the store it leaves. -/
theorem expire_effect_run (h : Exact s) (key : Bytes) (ttlMs : Int) :
    ((Plan.expire key ttlMs).effect py).run s =
      if key ∈ (s.settled key).data then
        if ttlMs ≤ 0 then
          (.ok ⟨[.drop [key]], Resp.encodeInteger 1⟩,
            (s.settled key).drop key)
        else if int64Max < (s.settled key).clock.now + ttlMs then
          (.ok ⟨[], invalidExpireReply "expire"⟩,
            (s.settled key).afterReading)
        else
          (.ok ⟨[.expireAt key ((s.settled key).clock.now + ttlMs)],
              Resp.encodeInteger 1⟩,
            (s.settled key).afterReading.setExpires key
              ((s.settled key).clock.now + ttlMs))
      else (.ok ⟨[], Resp.encodeInteger 0⟩, s.settled key) := by
  have hrun := expire_run h key ttlMs
  split_ifs at hrun ⊢ with hmem hpos hover
  · refine Plan.effect_run_ok ?_
    simp only [Plan.attempt]
    rw [Effects.rescue_run_ok hrun]
    simp only [if_true, Fallible.run_bind, deadlineMs_run]
    have hnone : ((s.settled key).drop key).expires.lookup key = none := by
      refine Exact.expires_eq_none ((h.settled key).drop key) ?_
      simp [mem_data_drop]
    rw [hnone]
    rfl
  · exact Plan.effect_run_ok (Effects.rescue_run_invalid hrun)
  · refine Plan.effect_run_ok ?_
    simp only [Plan.attempt]
    rw [Effects.rescue_run_ok hrun]
    simp only [if_true, Fallible.run_bind, deadlineMs_run]
    have hsome : ((s.settled key).afterReading.setExpires key
        ((s.settled key).clock.now + ttlMs)).expires.lookup key =
          some ((s.settled key).clock.now + ttlMs) :=
      OrderedDict.lookup_set_self _ _ _
    rw [hsome]
    rfl
  · refine Plan.effect_run_ok ?_
    simp only [Plan.attempt]
    rw [Effects.rescue_run_ok hrun]
    rfl

end Runs

section Outcomes

variable {py : Interpreter} {s t u : KeyValueStore} {key value : Bytes}

/-- What `dispatch` makes of an exception. -/
def caught (e : Exc) : Except Exc Effect :=
  match errorReply e with
  | some reply => .ok ⟨[], reply⟩
  | none => .error e

theorem SetRuns.eq_of_untimely {ttl : Option Int} {e : Effect} {x : Exc}
    (h : SetRuns s key value ttl e t) (ht : s.timing ttl = (.error x, u)) :
    e = ⟨[], invalidExpireReply "set"⟩ ∧ t = u := by
  cases h with
  | untimely ht' =>
      rw [ht] at ht'
      cases ht'
      exact ⟨rfl, rfl⟩
  | refused ht' _ =>
      rw [ht] at ht'
      cases ht'
  | stored ht' _ _ =>
      rw [ht] at ht'
      cases ht'

theorem SetRuns.eq_of_refuses {ttl d : Option Int} {e : Effect}
    (h : SetRuns s key value ttl e t) (ht : s.timing ttl = (.ok d, u))
    (hr : u.Refuses key value) :
    e = ⟨[], storeErrorReply .outOfMemory⟩ ∧ t = u := by
  cases h with
  | untimely ht' =>
      rw [ht] at ht'
      cases ht'
  | refused ht' _ =>
      rw [ht] at ht'
      cases ht'
      exact ⟨rfl, rfl⟩
  | stored ht' hr' _ =>
      rw [ht] at ht'
      cases ht'
      exact absurd hr hr'

theorem IncrRuns.eq_of_unread {r : Except Exc Effect} {e : Exc}
    (h : IncrRuns py s key r t)
    (he : (s.settled key).counter py key = .error e) :
    r = caught e ∧ t = s.settled key := by
  cases h with
  | unread hcounter =>
      rw [he] at hcounter
      cases hcounter
      exact ⟨rfl, rfl⟩
  | malformed hcounter =>
      rw [he] at hcounter
      cases hcounter
      exact ⟨rfl, rfl⟩
  | overflow hcounter _ =>
      rw [he] at hcounter
      cases hcounter
  | refused hcounter _ _ =>
      rw [he] at hcounter
      cases hcounter
  | stored hcounter _ _ _ =>
      rw [he] at hcounter
      cases hcounter

theorem IncrRuns.eq_of_overflow {r : Except Exc Effect} {n : Int}
    (h : IncrRuns py s key r t)
    (hn : (s.settled key).counter py key = .ok n) (hover : int64Max < n + 1) :
    r = caught (.store .integerOverflow) ∧ t = s.settled key := by
  cases h with
  | unread hcounter =>
      rw [hn] at hcounter
      cases hcounter
  | malformed hcounter =>
      rw [hn] at hcounter
      cases hcounter
  | overflow _ _ =>
      exact ⟨rfl, rfl⟩
  | refused hcounter hfits _ =>
      rw [hn] at hcounter
      cases hcounter
      omega
  | stored hcounter hfits _ _ =>
      rw [hn] at hcounter
      cases hcounter
      omega

theorem IncrRuns.eq_of_refuses {r : Except Exc Effect} {n : Int}
    (h : IncrRuns py s key r t)
    (hn : (s.settled key).counter py key = .ok n) (hfits : n + 1 ≤ int64Max)
    (hr : (s.settled key).Refuses key (str (n + 1))) :
    r = caught (.store .outOfMemory) ∧ t = s.settled key := by
  cases h with
  | unread hcounter =>
      rw [hn] at hcounter
      cases hcounter
  | malformed hcounter =>
      rw [hn] at hcounter
      cases hcounter
  | overflow hcounter hover =>
      rw [hn] at hcounter
      cases hcounter
      omega
  | refused _ _ _ =>
      exact ⟨rfl, rfl⟩
  | stored hcounter _ hr' _ =>
      rw [hn] at hcounter
      cases hcounter
      exact absurd hr hr'

end Outcomes

end Commands
end PyRedis
