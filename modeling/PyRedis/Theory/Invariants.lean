import PyRedis.Core.Server
import PyRedis.Theory.Bookkeeping
import PyRedis.Theory.LogReplay

/-!
# Invariants of the operations are invariants of the server

The server reaches its store through the public operations only: a command is
a composition of them, and so is the recovery of a log.  So whatever the
operations preserve is preserved by every request, by every event, whatever
the journal does meanwhile, and by every load.

`Reachable` collects the states that these lead to, in any order.
-/

namespace PyRedis

open Foundation KeyValueStore
open Fallible (Preserves)

section Effects

variable {I : KeyValueStore → Prop} {α : Type}

/-- What an operation returns does not matter to an invariant. -/
theorem preserves_of_forEffect {x : StoreM α}
    (h : Preserves I (forEffect x)) : Preserves I x := by
  refine Preserves.of_state_after fun s hs => ?_
  have ht := h.state_after hs
  simp only [forEffect, Fallible.run_bind] at ht
  rcases hrun : x.run s with ⟨e | a, t⟩
  · rwa [hrun] at ht
  · rwa [hrun] at ht

theorem preserves_rescue {name : String} {x : StoreM α}
    {k : α → StoreM Commands.Effect} (hx : Preserves I x)
    (hk : ∀ a, Preserves I (k a)) :
    Preserves I (Commands.Effects.rescueInvalidExpire name x k) := by
  intro s hs
  rcases hrun : x.run s with ⟨e | a, t⟩
  · have ht := (hx s hs).error hrun
    by_cases he : e = .store .invalidExpire
    · subst he
      exact Fallible.Triple.of_ok (Commands.Effects.rescue_run_invalid hrun) ht
    · exact Fallible.Triple.of_error
        (Commands.Effects.rescue_run_error hrun he) ht
  · have ha := hk a t ((hx s hs).ok hrun)
    unfold Fallible.Triple at ha ⊢
    rwa [Commands.Effects.rescue_run_ok hrun]

end Effects

/-- The primitives that only recovery uses. -/
def KeyValueStore.Operation.isRecovery : KeyValueStore.Operation → Bool
  | .restore _ _ _ => true
  | .setDeadline _ _ => true
  | .clearDeadline _ => true
  | .discard _ => true
  | _ => false

section Commands

open Commands

variable {py : Interpreter} {I : KeyValueStore → Prop}
variable (hops : ∀ op : Operation, op.isRecovery = false →
  Preserves I (op.effect py))
include hops

theorem preserves_written (key value reply : Bytes) :
    Preserves I (Effects.written key value reply) :=
  (preserves_of_forEffect (hops .takeEvicted rfl)).bind fun _ =>
    (preserves_of_forEffect (hops (.deadlineMs key) rfl)).bind
      fun _ => Preserves.pure _

/-- Every command is a composition of operations. -/
theorem preserves_effect {name : Bytes} {c : StoreCommand}
    (hc : lookupEffect py name = some c) (args : List Bytes) :
    Preserves I (c.effect args) := by
  apply lookupEffect_cases (motive := fun c => Preserves I (c.effect args)) hc
  case ping =>
    cases args <;> exact Preserves.pure _
  case set =>
    rcases args with _ | ⟨key, _ | ⟨value, options⟩⟩
    · exact Preserves.raise _
    · exact Preserves.raise _
    · refine (Preserves.ofExcept _).bind fun ttl => ?_
      cases ttl with
      | none =>
          exact Preserves.pure _
      | some ttl =>
          exact preserves_rescue (hops (.set key value ttl) rfl)
            fun _ => preserves_written hops key value _
  case get =>
    cases args with
    | nil =>
        exact Preserves.raise _
    | cons key _ =>
        exact (preserves_of_forEffect (hops (.get key) rfl)).bind
          fun _ => Preserves.pure _
  case expire =>
    rcases args with _ | ⟨key, _ | ⟨raw, _⟩⟩
    · exact Preserves.raise _
    · exact Preserves.raise _
    · refine (Preserves.ofExcept _).bind fun seconds => ?_
      have hexpire := preserves_of_forEffect
        (hops (.expire key (seconds * millisPerSecond)) rfl)
      refine preserves_rescue hexpire fun applied => ?_
      cases applied with
      | false =>
          exact Preserves.pure _
      | true =>
          exact (preserves_of_forEffect (hops (.deadlineMs key) rfl)).bind
            fun _ => Preserves.pure _
  case ttl =>
    cases args with
    | nil =>
        exact Preserves.raise _
    | cons key _ =>
        exact (preserves_of_forEffect (hops (.ttl key) rfl)).bind
          fun _ => Preserves.pure _
  case persist =>
    cases args with
    | nil =>
        exact Preserves.raise _
    | cons key _ =>
        exact (preserves_of_forEffect (hops (.persist key) rfl)).bind
          fun _ => Preserves.pure _
  case delete =>
    exact (preserves_of_forEffect (hops (.delete args) rfl)).bind
      fun _ => Preserves.pure _
  case «exists» =>
    exact (preserves_of_forEffect (hops (.exists args) rfl)).bind
      fun _ => Preserves.pure _
  case incr =>
    cases args with
    | nil =>
        exact Preserves.raise _
    | cons key _ =>
        exact (preserves_of_forEffect (hops (.incr key) rfl)).bind
          fun updated => preserves_written hops key _ _
  case dbsize =>
    exact (preserves_of_forEffect (hops .dbsize rfl)).bind
      fun _ => Preserves.pure _
  case flushdb =>
    exact (hops .flushdb rfl).bind fun _ => Preserves.pure _

theorem preserves_execute (request : List Bytes) :
    Preserves I (execute py request) := by
  cases request with
  | nil =>
      exact Preserves.raise _
  | cons name args =>
      obtain hc | ⟨c, hc⟩ := (lookupEffect py name).eq_none_or_eq_some
      · simp only [execute, hc]
        exact Preserves.pure _
      · simp only [execute, hc]
        split_ifs
        · exact Preserves.pure _
        · refine (preserves_effect hops hc args).catching fun e => ?_
          cases errorReply e with
          | some reply =>
              exact Preserves.pure _
          | none =>
              exact Preserves.raise _

end Commands

section Events

open Commands

variable {py : Interpreter} {I : KeyValueStore → Prop}

/-- What requests and sweeps preserve, every event does, whatever the
journal. -/
theorem preserves_handle_of {J : Type} [Journal J]
    (hexecute : ∀ request, Preserves I (execute py request))
    (hsweep : ∀ limit, Preserves I (sweepExpired limit))
    (event : Server.Event) :
    Preserves (fun p : KeyValueStore × J => I p.1)
      (Server.handle py event) := by
  cases event with
  | request parts =>
      refine Preserves.bind (Preserves.of_state_after ?_)
        fun _ => Preserves.pure _
      rintro ⟨s, j⟩ hs
      have ht := (hexecute parts).state_after hs
      rw [dispatch_run]
      split_ifs
      · exact hs
      · generalize (execute py parts).run s = result at ht ⊢
        obtain ⟨e | effect, t⟩ := result
        · exact ht
        · simp only
          rcases (recordAll effect.facts).run j with ⟨e | _, j'⟩
          · cases e <;> exact ht
          · exact ht
  | sweep limit =>
      exact (hsweep limit).onFst.bind fun _ => Preserves.pure _
  | fsync =>
      refine Preserves.bind ?_ fun _ => Preserves.pure _
      refine (Preserves.onSnd _).catching fun e => ?_
      cases e with
      | persistence reason =>
          exact Preserves.pure _
      | _ =>
          exact Preserves.raise _

/-- **Every event, whatever the journal.** -/
theorem preserves_handle {J : Type} [Journal J]
    (hops : ∀ op : Operation, op.isRecovery = false →
      Preserves I (op.effect py)) (event : Server.Event) :
    Preserves (fun p : KeyValueStore × J => I p.1)
      (Server.handle py event) :=
  preserves_handle_of (preserves_execute hops)
    (fun limit => preserves_of_forEffect (hops (.sweepExpired limit) rfl))
    event

end Events

/-- The primitives that loading a log uses. -/
def KeyValueStore.Operation.isLoading : KeyValueStore.Operation → Bool
  | .flushdb => true
  | .dropExpired => true
  | .dbsize => true
  | op => op.isRecovery

section Recovery

open Aof

variable {py : Interpreter} {I : KeyValueStore → Prop}
variable (hops : ∀ op : Operation, op.isLoading = true →
  Preserves I (op.effect py))
include hops

theorem preserves_applyRecord (record : Record) :
    Preserves I (applyRecord py record) := by
  obtain ⟨offset, parts⟩ := record
  cases parts with
  | nil =>
      exact Preserves.raise _
  | cons first args =>
      simp only [applyRecord]
      split_ifs
      · rcases args with _ | ⟨key, _ | ⟨value, _ | ⟨option, _ |
          ⟨raw, _ | ⟨_, _⟩⟩⟩⟩⟩
        · exact Preserves.raise _
        · exact Preserves.raise _
        · exact hops (.restore key value none) rfl
        · exact Preserves.raise _
        · simp only
          split_ifs
          · exact (Preserves.ofExcept _).bind
              fun d => hops (.restore key value (some d)) rfl
          · exact Preserves.raise _
        · exact Preserves.raise _
      · rcases args with _ | ⟨key, _ | ⟨raw, _ | ⟨_, _⟩⟩⟩
        · exact Preserves.raise _
        · exact Preserves.raise _
        · exact (Preserves.ofExcept _).bind
            fun d => hops (.setDeadline key d) rfl
        · exact Preserves.raise _
      · cases args with
        | nil =>
            exact Preserves.raise _
        | cons key keys =>
            exact hops (.discard (key :: keys)) rfl
      · rcases args with _ | ⟨key, _ | ⟨_, _⟩⟩
        · exact Preserves.raise _
        · exact hops (.clearDeadline key) rfl
        · exact Preserves.raise _
      · cases args with
        | nil =>
            exact hops .flushdb rfl
        | cons _ _ =>
            exact Preserves.raise _
      · exact Preserves.raise _

/-- **Every load, whatever the file.** -/
theorem preserves_load :
    Preserves (fun p : KeyValueStore × LogFile => I p.1) (load py) := by
  have hreplay : ∀ records : List Record,
      Preserves I (Fallible.forEach (applyRecord py) records) :=
    fun _ => Preserves.forEach
      fun record _ => preserves_applyRecord hops record
  have hexpired : Preserves I dropExpired :=
    preserves_of_forEffect (hops .dropExpired rfl)
  have hcount : Preserves I dbsize :=
    preserves_of_forEffect (hops .dbsize rfl)
  refine Preserves.get.bind fun s => ?_
  split_ifs
  · exact Preserves.pure _
  refine (Preserves.onSnd _).bind fun data => ?_
  refine (Preserves.ofExcept _).bind fun scanned => ?_
  refine (hreplay scanned.records).onFst.bind fun _ => ?_
  split_ifs
  · refine (Preserves.onSnd _).bind fun _ => ?_
    exact hexpired.onFst.bind fun _ => hcount.onFst.bind
      fun _ => Preserves.pure _
  · exact hexpired.onFst.bind fun _ => hcount.onFst.bind
      fun _ => Preserves.pure _

end Recovery

section Reachability

open Aof

/-- The states that the public operations, the events of a server with any
journal and the loads of any files lead to, in any order, from an empty store
with these limits.  The flag says whether logs are recovered on the way. -/
inductive KeyValueStore.Reachable (py : Interpreter) (maxmemory : Int)
    (policy : MaxmemoryPolicy) (recovers : Bool) : KeyValueStore → Prop where
  | empty (clock : Clock) :
      Reachable py maxmemory policy recovers (init clock maxmemory policy)
  | operation {s : KeyValueStore}
      (h : Reachable py maxmemory policy recovers s) (op : Operation)
      (hop : op.isRecovery = true → recovers = true) :
      Reachable py maxmemory policy recovers ((op.effect py).run s).2
  | event {s : KeyValueStore} {J : Type} [Journal J]
      (h : Reachable py maxmemory policy recovers s) (j : J)
      (event : Server.Event) :
      Reachable py maxmemory policy recovers
        ((Server.handle py event).run (s, j)).2.1
  | load {s : KeyValueStore}
      (h : Reachable py maxmemory policy recovers s) (file : LogFile)
      (hload : recovers = true) :
      Reachable py maxmemory policy recovers ((load py).run (s, file)).2.1

/-- **What the operations preserve holds in every reachable state.** -/
theorem KeyValueStore.Reachable.invariant {py : Interpreter}
    {maxmemory : Int} {policy : MaxmemoryPolicy} {recovers : Bool}
    {I : KeyValueStore → Prop}
    (hinit : ∀ clock, I (init clock maxmemory policy))
    (hops : ∀ op : Operation, (op.isRecovery = true → recovers = true) →
      Preserves I (op.effect py))
    {s : KeyValueStore} (hs : Reachable py maxmemory policy recovers s) :
    I s := by
  induction hs with
  | empty clock =>
      exact hinit clock
  | operation _ op hop ih =>
      exact (hops op hop).state_after ih
  | event _ j event ih =>
      have hcommands : ∀ op : Operation, op.isRecovery = false →
          Preserves I (op.effect py) := by
        intro op hop
        refine hops op fun htrue => ?_
        rw [hop] at htrue
        cases htrue
      exact (preserves_handle hcommands event).state_after ih
  | load _ file hload ih =>
      exact (preserves_load fun op _ => hops op fun _ => hload).state_after ih

theorem KeyValueStore.Reachable.exact {py : Interpreter} {maxmemory : Int}
    {policy : MaxmemoryPolicy} {recovers : Bool} {s : KeyValueStore}
    (hs : Reachable py maxmemory policy recovers s) : Exact s :=
  hs.invariant (fun clock => exact_init clock maxmemory policy) fun op _ =>
    Preserves.of_state_after fun _ ht => op.exact_after ht py

/-- Operations lead from reachable stores to reachable stores. -/
theorem KeyValueStore.Reachable.afterOperations {py : Interpreter}
    {maxmemory : Int} {policy : MaxmemoryPolicy} {recovers : Bool}
    {s : KeyValueStore} (h : Reachable py maxmemory policy recovers s) :
    ∀ ops : List Operation,
      (∀ op ∈ ops, op.isRecovery = true → recovers = true) →
      Reachable py maxmemory policy recovers (afterOperations py s ops)
  | [], _ => h
  | op :: ops, hops => by
      obtain ⟨hop, hops⟩ := List.forall_mem_cons.mp hops
      exact (h.operation op hop).afterOperations ops hops

/-- The stores a server holds between two events: it starts empty, recovers
logs, and handles events with any journal. -/
inductive Server.AtRest (py : Interpreter) (maxmemory : Int)
    (policy : MaxmemoryPolicy) : KeyValueStore → Prop where
  | empty (clock : Clock) :
      AtRest py maxmemory policy (init clock maxmemory policy)
  | event {s : KeyValueStore} {J : Type} [Journal J]
      (h : AtRest py maxmemory policy s) (j : J) (event : Server.Event) :
      AtRest py maxmemory policy ((Server.handle py event).run (s, j)).2.1
  | load {s : KeyValueStore} (h : AtRest py maxmemory policy s)
      (file : LogFile) :
      AtRest py maxmemory policy ((load py).run (s, file)).2.1

theorem Server.AtRest.afterEvents {py : Interpreter} {maxmemory : Int}
    {policy : MaxmemoryPolicy} {J : Type} [Journal J] {s : KeyValueStore}
    (hs : AtRest py maxmemory policy s) (j : J) (events : List Server.Event) :
    AtRest py maxmemory policy (Server.afterEvents py (s, j) events).1 := by
  induction events generalizing s j with
  | nil =>
      exact hs
  | cons event events ih =>
      exact ih (hs.event j event) ((Server.handle py event).run (s, j)).2.2

/-- What requests, sweeps and the primitives of a load preserve. -/
theorem Server.AtRest.invariant {py : Interpreter} {maxmemory : Int}
    {policy : MaxmemoryPolicy} {I : KeyValueStore → Prop}
    (hinit : ∀ clock, I (init clock maxmemory policy))
    (hexecute : ∀ request, Preserves I (Commands.execute py request))
    (hsweep : ∀ limit, Preserves I (sweepExpired limit))
    (hload : ∀ op : Operation, op.isLoading = true →
      Preserves I (op.effect py))
    {s : KeyValueStore} (hs : AtRest py maxmemory policy s) : I s := by
  induction hs with
  | empty clock =>
      exact hinit clock
  | event _ j event ih =>
      exact (preserves_handle_of hexecute hsweep event).state_after ih
  | load _ file ih =>
      exact (preserves_load hload).state_after ih

end Reachability

end PyRedis
