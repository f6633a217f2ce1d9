import PyRedis.Theory.Conversations
import PyRedis.Theory.PowerFailure

/-!
# What clients have been told survives

Any number of clients talk to one server with a log on disk, and the power
fails.  What is recovered is the keyspace after operations in the order in
which they took effect, and among them is every call that had returned to its
client by the last commit.  Under `always` these are all calls that had
returned.
-/

namespace PyRedis

open Foundation

namespace Network

open Client Commands Connection History Resp KeyValueStore Server

variable {py py' : Interpreter}

section Calls

variable {J : Type} [Journal J]

/-- The operations performed, by whomever they were asked for. -/
def operations (h : Chronicle) : List Event :=
  (effects h).map EventLoop.Call.operation

theorem operations_append (h later : Chronicle) :
    operations (h ++ later) = operations h ++ operations later := by
  rw [operations, effects_append, List.map_append]
  rfl

/-- What the two cycles do, they do without a request. -/
def Unasked : Action → Prop
  | .serve (.background (.request _)) => False
  | _ => True

instance (action : Action) : Decidable (Unasked action) :=
  match action with
  | .ask _ _ => isTrue trivial
  | .deliver _ _ => isTrue trivial
  | .receive _ _ => isTrue trivial
  | .answer _ => isTrue trivial
  | .serve (.hear _ _) => isTrue trivial
  | .serve (.wake _) => isTrue trivial
  | .serve (.background (.request _)) => isFalse id
  | .serve (.background (.sweep _)) => isTrue trivial
  | .serve (.background .fsync) => isTrue trivial

/-- A call of nobody is no request. -/
def Asked (call : EventLoop.Call Nat Event Reply) : Prop :=
  call.who = none → ∀ parts, call.operation ≠ .request parts

theorem asked_step_loop (w : EventLoop.World (KeyValueStore × J) Client Nat)
    (action : Server.Action)
    (h : ∀ parts, action ≠ .background (.request parts)) :
    ∀ call ∈ ((loop J py).step w action).1, Asked call := by
  cases action with
  | hear k input =>
      simp [EventLoop.step]
  | wake k =>
      simp only [EventLoop.step]
      cases (loop J py).turn (w.tasks k) with
      | go task =>
          simp
      | call operation resume =>
          simp [Asked]
  | background event =>
      intro call hcall
      obtain rfl := List.mem_singleton.mp hcall
      rintro - parts rfl
      exact h parts rfl

theorem asked_step (net : Network J) (action : Action)
    (h : Unasked action) :
    ∀ call ∈ effects (net.step py py' action).1, Asked call := by
  cases action with
  | ask k args =>
      simp only [Network.step]
      split_ifs <;> simp [effects]
  | deliver k n =>
      simp only [Network.step, Network.serve, effects_performed]
      exact asked_step_loop _ _ (by simp)
  | receive k n =>
      simp [Network.step, effects]
  | answer k =>
      simp only [Network.step]
      split <;> simp [effects]
  | serve action =>
      have hserve : ∀ net : Network J, ∀ call ∈
          effects (net.serve py action).1, Asked call := by
        intro net
        rw [Network.serve, effects_performed]
        refine asked_step_loop _ _ ?_
        rintro parts rfl
        exact h
      cases action with
      | hear k input =>
          cases input with
          | data bytes =>
              simp [Network.step, effects]
          | _ =>
              exact hserve net
      | wake k =>
          exact hserve net
      | background event =>
          exact hserve net

theorem asked_run (net : Network J) (actions : List Action)
    (h : ∀ action ∈ actions, Unasked action) :
    ∀ call ∈ effects (net.run py py' actions).1, Asked call := by
  induction actions generalizing net with
  | nil =>
      simp [Network.run, effects]
  | cons action actions ih =>
      obtain ⟨hfirst, hrest⟩ := List.forall_mem_cons.mp h
      intro call hcall
      rw [Network.run, effects_append] at hcall
      rcases List.mem_append.mp hcall with hcall | hcall
      · exact asked_step net action hfirst call hcall
      · exact ih _ hrest call hcall

/-- What has happened goes on. -/
theorem chronicle_append (net : Network J) (actions later : List Action) :
    (net.run py py' (actions ++ later)).1 =
      (net.run py py' actions).1 ++
        ((net.run py py' actions).2.run py py' later).1 := by
  induction actions generalizing net with
  | nil =>
      rfl
  | cons action actions ih =>
      simp only [List.cons_append, Network.run, ih, List.append_assoc]

theorem readableRequest_of_valid {args : List Bytes}
    (h : ValidRequest args) : ReadableRequest py args where
  count := by
    have hcount := h.count
    unfold maxMultibulkLength at hcount
    exact py.reads_of_le_word (by omega)
  part p hp := py.reads_of_le_word (le_word_of_le_bulk (h.length p hp))

/-- **Whatever is performed can be read back from the log.** -/
theorem readable_operations (py py' : Interpreter) (store : KeyValueStore)
    (journal : J) (actions : List Action) (h : ∀ action ∈ actions, Unasked action) :
    ∀ event ∈ operations ((start store journal).run py py' actions).1,
      ReadableEvent py event := by
  intro event hevent
  obtain ⟨call, hcall, rfl⟩ := List.mem_map.mp hevent
  have hasked := asked_run _ _ h call hcall
  have hsound := (sound_start py py' store journal).run actions
  rw [List.nil_append] at hsound
  rcases hwho : call.who with _ | k
  · cases hoperation : call.operation with
    | request parts =>
        exact absurd hoperation (hasked hwho parts)
    | sweep _ =>
        exact trivial
    | fsync =>
        exact trivial
  · obtain ⟨inputs, asks, hk⟩ := hsound.each k
    have hperformed : (call.operation, call.reply) ∈ performed k
        ((start store journal).run py py' actions).1 :=
      List.mem_filterMap.mpr ⟨call, hcall, if_pos hwho⟩
    have hmem := hk.inOrder.1.subset (List.mem_map_of_mem hperformed)
    obtain ⟨args, hargs, heq⟩ := List.mem_map.mp hmem
    have hrequest : .request args = call.operation := heq
    rw [← hrequest]
    exact readableRequest_of_valid (hk.valid args hargs)

end Calls

section Outages

variable {outcomes : Nat → IoOutcome}

/-- A run of clients and a server over a file of which so much had been
committed when it was opened. -/
def overDisk (py py' : Interpreter)
    (opened : KeyValueStore × AppendOnlyFile) (committed : Nat)
    (actions : List Action) : Chronicle × Network DurableFile :=
  (start opened.1 ⟨opened.2, committed⟩).run py py' actions

/-- The store and the journal are those after the operations performed. -/
theorem shared_overDisk (py py' : Interpreter)
    (opened : KeyValueStore × AppendOnlyFile) (committed : Nat)
    (actions : List Action) :
    (overDisk py py' opened committed actions).2.server.shared =
      afterEvents py (onDisk opened committed)
        (operations (overDisk py py' opened committed actions).1) := by
  have hsound := (sound_start py py' opened.1
    (⟨opened.2, committed⟩ : DurableFile)).run actions
  have hstate := hsound.linear.serial.state_eq
  rw [afterEvents, operations, List.foldl_map]
  exact hstate

/-- **What clients have been told survives.**  Clients talk to a server with a
log on disk, in any schedule; calls on the file may fail in any way; and at
the end the power fails, so that of what was not committed the disk keeps any
beginning, but all that the file held when it was opened.  Take any moment at which the journal had not failed and what had
been written was committed: under `always` any moment, and else one after a
turn of `_fsync_cycle`.  Then the keyspace that is recovered is the one after
all operations performed by that moment and perhaps some later ones, in their
order, less some of the keys that the next operation evicted; and what any
client's calls had returned by that moment are the answers to operations among
these. -/
theorem answered_calls_survive {fsync : FsyncPolicy} {clock : Clock}
    {maxmemory : Int} {policy : MaxmemoryPolicy} {log : Aof.LogFile}
    {opened : KeyValueStore × AppendOnlyFile} {actions : List Action}
    {past rest : Chronicle} {committed : Nat} {cut : Bytes}
    (hmono : clock.Monotone) (hprint : Printable py clock)
    (hopened : recover py fsync outcomes (init clock maxmemory policy) log =
      .ok opened)
    (hcycles : ∀ action ∈ actions, Unasked action)
    (hrun : (overDisk py py' opened committed actions).1 = past ++ rest)
    (hpoint : CommitPoint fsync (operations past))
    (hworks : (afterEvents py (onDisk opened committed)
      (operations past)).2.journal.hasFailed = false)
    (hkept : opened.2.file.content <+: cut)
    (hcut : cut <+: (overDisk py py' opened committed
      actions).2.server.shared.2.journal.file.content)
    (hdisk : (overDisk py py' opened committed
      actions).2.server.shared.2.committed ≤ cut.length) :
    (∃ middle later lost, operations rest = middle ++ later ∧
      LostTo py (afterEvents py (onDisk opened committed)
        (operations past ++ middle)).1 later lost ∧
      Reloads py cut
        (overDisk py py' opened committed
          actions).2.server.shared.1.clock.Reached
        ((Fact.drop lost).apply (afterEvents py (onDisk opened committed)
          (operations past ++ middle)).1.keyspace)) ∧
    ∀ k, (answered k past).map some <+:
      (performed k past).map fun call => understood py' call.2 := by
  have hshared := shared_overDisk py py' opened committed actions
  have hreadable := readable_operations py py' opened.1
    (⟨opened.2, committed⟩ : DurableFile) actions hcycles
  have hlinear := ((sound_start py py' opened.1
    (⟨opened.2, committed⟩ : DurableFile)).run actions).linear
  rw [hrun, operations_append] at hshared
  rw [hshared] at hcut hdisk ⊢
  constructor
  · refine power_failure_spares_commits hmono hprint hopened ?_ hpoint hworks
      hkept hcut hdisk
    rw [← operations_append, ← hrun]
    exact hreadable
  · intro k
    exact (hlinear.proper past ⟨rest, hrun.symm⟩ k).faithful

/-- The call of one client has returned. -/
def firstReturned : List Action :=
  [.ask 0 [ascii "SET", ascii "a", ascii "1"], .deliver 0 100] ++
    List.replicate 7 (.serve (.wake 0)) ++ [.receive 0 100, .answer 0]

/-- The call of another one is performed. -/
def secondPerformed : List Action :=
  [.ask 1 [ascii "SET", ascii "b", ascii "2"], .deliver 1 100] ++
    List.replicate 7 (.serve (.wake 1))

/-- A server under `always`; the second time `os.fsync` fails. -/
def secondFsyncFails : KeyValueStore × AppendOnlyFile :=
  freshStart (.frozen 0) 0 .noeviction .always fun i => ⟨0, i == 5⟩

/-- Half of what the server wrote for the second call is left on the disk. -/
def halfWritten : Bytes :=
  (overDisk .default .default secondFsyncFails 0 (firstReturned ++
    secondPerformed)).2.server.shared.2.journal.file.content.take 40

theorem first_call_survives :
    (∃ middle later lost,
      operations ((overDisk .default .default secondFsyncFails 0
        firstReturned).2.run .default .default secondPerformed).1 =
          middle ++ later ∧
      LostTo .default (afterEvents .default (onDisk secondFsyncFails 0)
        (operations (overDisk .default .default secondFsyncFails 0
          firstReturned).1 ++ middle)).1 later lost ∧
      Reloads .default halfWritten
        (overDisk .default .default secondFsyncFails 0 (firstReturned ++
          secondPerformed)).2.server.shared.1.clock.Reached
        ((Fact.drop lost).apply (afterEvents .default
          (onDisk secondFsyncFails 0) (operations (overDisk .default .default
            secondFsyncFails 0 firstReturned).1 ++ middle)).1.keyspace)) ∧
    ∀ k, (answered k (overDisk .default .default secondFsyncFails 0
        firstReturned).1).map some <+:
      (performed k (overDisk .default .default secondFsyncFails 0
        firstReturned).1).map fun call => understood .default call.2 :=
  answered_calls_survive (monotone_frozen 0) (printable_frozen (by decide))
    (recover_absent _ _ _ _) (by decide +kernel)
    (chronicle_append _ firstReturned secondPerformed)
    (Or.inr (Or.inl rfl)) (by decide +kernel) List.nil_prefix
    (List.take_prefix _ _) (by decide +kernel)

end Outages

end Network

end PyRedis
