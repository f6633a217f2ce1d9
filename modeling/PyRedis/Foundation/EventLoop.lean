import Mathlib.Logic.Function.Basic
import Mathlib.Tactic

/-!
# Tasks that take turns on one shared state

Tasks with states of their own run on one event loop.  A turn of a task is
never interrupted: it changes the task alone, or it performs one operation on
the shared state and goes on with the reply.  Between two turns input reaches
a task, or an operation is performed in the background.

Whatever the order of the turns, a run is serial: the operations act on the
shared state one after another, in the order in which they were called.  What
a task is after a run depends only on its own inputs and on the replies to its
own calls, so that a guarantee about it is checked task by task.  A task that
has called nothing may as well not have been there.
-/

namespace Foundation

/-- What one turn of a task comes to. -/
inductive Turn (Λ Ω Ρ : Type) where
  | go (task : Λ)
  | call (operation : Ω) (resume : Ρ → Λ)

/-- How operations act on the shared state, and how tasks take their turns and
their inputs. -/
structure EventLoop (σ Λ Ω Ρ Ι : Type) where
  perform : Ω → σ → Ρ × σ
  turn : Λ → Turn Λ Ω Ρ
  hear : Ι → Λ → Λ

namespace EventLoop

variable {σ Λ Ω Ρ Ι κ : Type}

/-- An operation that was performed, by a task or in the background, and the
reply it got. -/
structure Call (κ Ω Ρ : Type) where
  who : Option κ
  operation : Ω
  reply : Ρ

/-- What happens next on the loop. -/
inductive Action (κ Ω Ι : Type) where
  | hear (k : κ) (input : Ι)
  | wake (k : κ)
  | background (operation : Ω)

/-- The shared state and the state of every task. -/
structure World (σ Λ κ : Type) where
  shared : σ
  tasks : κ → Λ

section Runs

variable [DecidableEq κ] (L : EventLoop σ Λ Ω Ρ Ι)

/-- One task gets a new state. -/
def World.assign (w : World σ Λ κ) (k : κ) (task : Λ) : World σ Λ κ :=
  { w with tasks := Function.update w.tasks k task }

/-- One action, with the calls it leads to. -/
def step (w : World σ Λ κ) :
    Action κ Ω Ι → List (Call κ Ω Ρ) × World σ Λ κ
  | .hear k input => ([], w.assign k (L.hear input (w.tasks k)))
  | .wake k =>
      match L.turn (w.tasks k) with
      | .go task => ([], w.assign k task)
      | .call operation resume =>
          let result := L.perform operation w.shared
          ([⟨some k, operation, result.1⟩],
            { w.assign k (resume result.1) with shared := result.2 })
  | .background operation =>
      let result := L.perform operation w.shared
      ([⟨none, operation, result.1⟩], { w with shared := result.2 })

/-- A schedule, with the calls it leads to. -/
def run (w : World σ Λ κ) :
    List (Action κ Ω Ι) → List (Call κ Ω Ρ) × World σ Λ κ
  | [] => ([], w)
  | action :: actions =>
      let first := L.step w action
      let others := run first.2 actions
      (first.1 ++ others.1, others.2)

@[simp] theorem run_nil (w : World σ Λ κ) : L.run w [] = ([], w) := by
  rfl

theorem run_cons (w : World σ Λ κ) (action : Action κ Ω Ι)
    (actions : List (Action κ Ω Ι)) :
    L.run w (action :: actions) =
      ((L.step w action).1 ++ (L.run (L.step w action).2 actions).1,
        (L.run (L.step w action).2 actions).2) := by
  rfl

theorem run_append (w : World σ Λ κ) (actions later : List (Action κ Ω Ι)) :
    L.run w (actions ++ later) =
      ((L.run w actions).1 ++ (L.run (L.run w actions).2 later).1,
        (L.run (L.run w actions).2 later).2) := by
  induction actions generalizing w with
  | nil =>
      simp
  | cons action actions ih =>
      simp only [List.cons_append, run_cons, ih, List.append_assoc]

end Runs

section Serial

/-- Operations performed one after another, each getting the reply that the
state reached by then gives it. -/
inductive Serial (perform : Ω → σ → Ρ × σ) :
    σ → List (Call κ Ω Ρ) → σ → Prop where
  | nil (s : σ) : Serial perform s [] s
  | cons {s t : σ} {calls : List (Call κ Ω Ρ)} (who : Option κ)
      (operation : Ω) (h : Serial perform (perform operation s).2 calls t) :
      Serial perform s (⟨who, operation, (perform operation s).1⟩ :: calls) t

variable {perform : Ω → σ → Ρ × σ} {s t u : σ}
variable {calls later : List (Call κ Ω Ρ)}

theorem Serial.append (h : Serial perform s calls t)
    (h' : Serial perform t later u) :
    Serial perform s (calls ++ later) u := by
  induction h with
  | nil s =>
      exact h'
  | cons who operation _ ih =>
      exact Serial.cons who operation (ih h')

/-- The calls say what becomes of the state. -/
theorem Serial.state_eq (h : Serial perform s calls t) :
    t = calls.foldl (fun s call => (perform call.operation s).2) s := by
  induction h with
  | nil s =>
      rfl
  | cons who operation _ ih =>
      exact ih

variable [DecidableEq κ] (L : EventLoop σ Λ Ω Ρ Ι)

theorem serial_step (w : World σ Λ κ) (action : Action κ Ω Ι) :
    Serial L.perform w.shared (L.step w action).1
      (L.step w action).2.shared := by
  cases action with
  | hear k input =>
      exact Serial.nil _
  | wake k =>
      simp only [step]
      cases L.turn (w.tasks k) with
      | go task =>
          exact Serial.nil _
      | call operation resume =>
          exact Serial.cons (some k) operation (Serial.nil _)
  | background operation =>
      exact Serial.cons none operation (Serial.nil _)

theorem length_step_le (w : World σ Λ κ) (action : Action κ Ω Ι) :
    (L.step w action).1.length ≤ 1 := by
  cases action with
  | hear k input =>
      exact Nat.zero_le _
  | wake k =>
      simp only [step]
      cases L.turn (w.tasks k) with
      | go task =>
          exact Nat.zero_le _
      | call operation resume =>
          exact le_rfl
  | background operation =>
      exact le_rfl

/-- **Every run is serial.** -/
theorem serial_run (w : World σ Λ κ) (actions : List (Action κ Ω Ι)) :
    Serial L.perform w.shared (L.run w actions).1
      (L.run w actions).2.shared := by
  induction actions generalizing w with
  | nil =>
      exact Serial.nil _
  | cons action actions ih =>
      exact (serial_step L w action).append (ih _)

end Serial

section Guarantees

variable [DecidableEq κ]

/-- What has reached a task. -/
def heard (k : κ) (actions : List (Action κ Ω Ι)) : List Ι :=
  actions.filterMap fun
    | .hear j input => if j = k then some input else none
    | _ => none

/-- What a task has called, with the replies. -/
def called (k : κ) (calls : List (Call κ Ω Ρ)) : List (Ω × Ρ) :=
  calls.filterMap fun call =>
    if call.who = some k then some (call.operation, call.reply) else none

theorem heard_append (k : κ) (actions later : List (Action κ Ω Ι)) :
    heard k (actions ++ later) = heard k actions ++ heard k later :=
  List.filterMap_append

theorem called_append (k : κ) (calls later : List (Call κ Ω Ρ)) :
    called k (calls ++ later) = called k calls ++ called k later :=
  List.filterMap_append

/-- A relation between what a task has heard, what it has called and what it
is, kept by everything that can happen to the task. -/
structure Guarantee (L : EventLoop σ Λ Ω Ρ Ι)
    (R : List Ι → List (Ω × Ρ) → Λ → Prop) : Prop where
  hear : ∀ {inputs calls task}, R inputs calls task →
    ∀ input, R (inputs ++ [input]) calls (L.hear input task)
  go : ∀ {inputs calls task task'}, R inputs calls task →
    L.turn task = .go task' → R inputs calls task'
  call : ∀ {inputs calls task operation resume}, R inputs calls task →
    L.turn task = .call operation resume →
    ∀ reply, R inputs (calls ++ [(operation, reply)]) (resume reply)

variable {L : EventLoop σ Λ Ω Ρ Ι} {R : List Ι → List (Ω × Ρ) → Λ → Prop}
variable {w : World σ Λ κ} {k : κ}

theorem Guarantee.step (h : L.Guarantee R) (action : Action κ Ω Ι)
    {inputs : List Ι} {calls : List (Ω × Ρ)}
    (hw : R inputs calls (w.tasks k)) :
    R (inputs ++ heard k [action]) (calls ++ called k (L.step w action).1)
      ((L.step w action).2.tasks k) := by
  have hsame : R (inputs ++ []) (calls ++ []) (w.tasks k) := by
    simpa only [List.append_nil] using hw
  cases action with
  | hear j input =>
      by_cases hj : j = k
      · subst hj
        have hstep := h.hear hw input
        simpa [EventLoop.step, World.assign, heard, called] using hstep
      · have hk : k ≠ j := fun hkj => hj hkj.symm
        simpa [EventLoop.step, World.assign, heard, called, hj, hk] using hw
  | wake j =>
      by_cases hj : j = k
      · subst hj
        cases hturn : L.turn (w.tasks j) with
        | go task =>
            have hstep := h.go hw hturn
            simpa [EventLoop.step, World.assign, heard, called, hturn]
              using hstep
        | call operation resume =>
            have hstep := h.call hw hturn (L.perform operation w.shared).1
            simpa [EventLoop.step, World.assign, heard, called, hturn]
              using hstep
      · have hk : k ≠ j := fun hkj => hj hkj.symm
        cases hturn : L.turn (w.tasks j) with
        | go task =>
            simpa [EventLoop.step, World.assign, heard, called, hturn, hk]
              using hw
        | call operation resume =>
            simpa [EventLoop.step, World.assign, heard, called, hturn, hj, hk]
              using hw
  | background operation =>
      simpa [EventLoop.step, heard, called] using hw

/-- **Whatever the others do**, a task keeps its guarantee. -/
theorem Guarantee.run (h : L.Guarantee R) (actions : List (Action κ Ω Ι))
    {inputs : List Ι} {calls : List (Ω × Ρ)}
    (hw : R inputs calls (w.tasks k)) :
    R (inputs ++ heard k actions) (calls ++ called k (L.run w actions).1)
      ((L.run w actions).2.tasks k) := by
  induction actions generalizing w inputs calls with
  | nil =>
      simpa [heard, called] using hw
  | cons action actions ih =>
      have hrest := ih (h.step action hw)
      rw [List.append_assoc, List.append_assoc, ← heard_append,
        ← called_append] at hrest
      exact hrest

end Guarantees

section Bystanders

variable [DecidableEq κ] (L : EventLoop σ Λ Ω Ρ Ι)

/-- The action is in the background, or of a task that is kept. -/
def Action.concerns (keep : κ → Bool) : Action κ Ω Ι → Bool
  | .hear k _ => keep k
  | .wake k => keep k
  | .background _ => true

/-- The same shared state, and the same tasks among those that are kept. -/
structure SameFor (keep : κ → Bool) (w w' : World σ Λ κ) : Prop where
  shared : w.shared = w'.shared
  tasks : ∀ k, keep k = true → w.tasks k = w'.tasks k

variable {keep : κ → Bool} {w w' : World σ Λ κ}

theorem SameFor.assign (h : SameFor keep w w') (k : κ) (task : Λ) :
    SameFor keep (w.assign k task) (w'.assign k task) where
  shared := h.shared
  tasks := by
    intro j hj
    by_cases hk : j = k
    · simp [World.assign, hk]
    · simp [World.assign, hk, h.tasks j hj]

theorem SameFor.left (h : SameFor keep w w') {k : κ}
    (hk : keep k = false) (task : Λ) :
    SameFor keep (w.assign k task) w' where
  shared := h.shared
  tasks := by
    intro j hj
    have hne : j ≠ k := by
      rintro rfl
      rw [hk] at hj
      cases hj
    simp [World.assign, hne, h.tasks j hj]

theorem SameFor.step (h : SameFor keep w w') {action : Action κ Ω Ι}
    (hkeep : action.concerns keep = true) :
    (L.step w' action).1 = (L.step w action).1 ∧
      SameFor keep (L.step w action).2 (L.step w' action).2 := by
  cases action with
  | hear k input =>
      refine ⟨rfl, ?_⟩
      simp only [EventLoop.step, h.tasks k hkeep]
      exact h.assign k _
  | wake k =>
      simp only [EventLoop.step, h.tasks k hkeep, h.shared]
      cases L.turn (w'.tasks k) with
      | go task =>
          exact ⟨rfl, h.assign k task⟩
      | call operation resume =>
          exact ⟨rfl, rfl, (h.assign k _).tasks⟩
  | background operation =>
      simp only [EventLoop.step]
      rw [h.shared]
      exact ⟨rfl, rfl, h.tasks⟩

/-- An action of a task that is not kept and that calls nothing. -/
theorem SameFor.drop (h : SameFor keep w w') {action : Action κ Ω Ι}
    (hkeep : action.concerns keep = false)
    (hquiet : ∀ call ∈ (L.step w action).1, ∀ k, call.who = some k →
      keep k = true) :
    (L.step w action).1 = [] ∧ SameFor keep (L.step w action).2 w' := by
  cases action with
  | hear k input =>
      exact ⟨rfl, h.left hkeep _⟩
  | wake k =>
      simp only [EventLoop.step] at hquiet ⊢
      cases hturn : L.turn (w.tasks k) with
      | go task =>
          exact ⟨rfl, h.left hkeep task⟩
      | call operation resume =>
          rw [hturn] at hquiet
          have hkept := hquiet _ (List.mem_singleton.mpr rfl) k rfl
          have hleft : keep k = false := hkeep
          rw [hleft] at hkept
          cases hkept
  | background operation =>
      cases hkeep

/-- **Bystanders**: the tasks that call nothing can be left out of a run. -/
theorem SameFor.run (h : SameFor keep w w') (actions : List (Action κ Ω Ι))
    (hquiet : ∀ call ∈ (L.run w actions).1, ∀ k, call.who = some k →
      keep k = true) :
    (L.run w' (actions.filter (Action.concerns keep))).1 =
        (L.run w actions).1 ∧
      SameFor keep (L.run w actions).2
        (L.run w' (actions.filter (Action.concerns keep))).2 := by
  induction actions generalizing w w' with
  | nil =>
      exact ⟨rfl, h⟩
  | cons action actions ih =>
      rw [run_cons] at hquiet ⊢
      have hfirst : ∀ call ∈ (L.step w action).1, ∀ k, call.who = some k →
          keep k = true :=
        fun call hcall => hquiet call (List.mem_append_left _ hcall)
      have hothers : ∀ call ∈ (L.run (L.step w action).2 actions).1, ∀ k,
          call.who = some k → keep k = true :=
        fun call hcall => hquiet call (List.mem_append_right _ hcall)
      cases hkeep : action.concerns keep with
      | true =>
          obtain ⟨hcalls, hstep⟩ := h.step L hkeep
          obtain ⟨hlater, hrun⟩ := ih hstep hothers
          rw [List.filter_cons_of_pos hkeep, run_cons]
          exact ⟨by rw [hcalls, hlater], hrun⟩
      | false =>
          obtain ⟨hnone, hstep⟩ := h.drop L hkeep hfirst
          rw [List.filter_cons_of_neg (by simp [hkeep]), hnone,
            List.nil_append]
          exact ih hstep hothers

end Bystanders

end EventLoop
end Foundation
