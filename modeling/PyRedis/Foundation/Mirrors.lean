import PyRedis.Foundation.EventLoop
import PyRedis.Foundation.Fallible

/-!
# Two machines that do the same

A machine mirrors another one if from related states the same operation gets
the same reply and leads to related states again, unless it breaks.  The rules
carry this through the computations that an operation is made of and through
the runs of two event loops: task by task and call by call the runs are the
same, up to the operation that breaks the relation.
-/

namespace Foundation

section Results

variable {ρ σ τ : Type}

/-- Two results with their states: the same result and related states, or
states of which the relation `B` holds, whatever the results. -/
inductive Together (R B : σ → τ → Prop) : ρ × σ → ρ × τ → Prop where
  | same {s : σ} {t : τ} (r : ρ) (h : R s t) : Together R B (r, s) (r, t)
  | broken {s : σ} {t : τ} (r r' : ρ) (h : B s t) :
      Together R B (r, s) (r', t)

end Results

namespace Fallible

variable {ε σ τ α β : Type}

/-- From related states, the same value or exception and related states again;
or the first state is a broken one. -/
def Mirrors (R : σ → τ → Prop) (B : σ → Prop) (x : Fallible ε σ α)
    (y : Fallible ε τ α) : Prop :=
  ∀ s t, R s t → Together R (fun s _ => B s) (x.run s) (y.run t)

namespace Mirrors

variable {R : σ → τ → Prop} {B : σ → Prop}

theorem pure (a : α) :
    Mirrors R B (pure a : Fallible ε σ α) (pure a : Fallible ε τ α) :=
  fun _ _ h => Together.same _ h

/-- What is broken has to stay so until the end of the sequence. -/
theorem bind {x : Fallible ε σ α} {y : Fallible ε τ α}
    {k : α → Fallible ε σ β} {l : α → Fallible ε τ β}
    (hx : Mirrors R B x y) (hk : ∀ a, Mirrors R B (k a) (l a))
    (hbroken : ∀ a, Preserves B (k a)) :
    Mirrors R B (x >>= k) (y >>= l) := by
  intro s t h
  have hfirst := hx s t h
  simp only [run_bind]
  generalize x.run s = p at hfirst
  generalize y.run t = q at hfirst
  cases hfirst with
  | @same s' t' r hrelated =>
      cases r with
      | error e =>
          exact Together.same _ hrelated
      | ok a =>
          exact hk a s' t' hrelated
  | @broken s' t' r r' hb =>
      -- one of the two may go on where the other one raised
      cases r with
      | error e =>
          exact Together.broken _ _ hb
      | ok a =>
          exact Together.broken _ _ ((hbroken a).state_after hb)

theorem forEach {f : α → Fallible ε σ Unit} {g : α → Fallible ε τ Unit}
    {l : List α} (hf : ∀ a, Mirrors R B (f a) (g a))
    (hbroken : ∀ a, Preserves B (f a)) :
    Mirrors R B (forEach f l) (forEach g l) := by
  induction l with
  | nil =>
      exact pure ()
  | cons a l ih =>
      exact bind (hf a) (fun _ => ih)
        fun _ => Preserves.forEach fun b _ => hbroken b

end Mirrors

end Fallible

namespace EventLoop

variable {σ τ Λ Ω Ρ Ι κ : Type}

/-- The tasks are the same, and every operation does the same on related
shared states, or breaks the relation. -/
structure Mirrors (L : EventLoop σ Λ Ω Ρ Ι) (M : EventLoop τ Λ Ω Ρ Ι)
    (R B : σ → τ → Prop) : Prop where
  perform : ∀ operation s t, R s t →
    Together R B (L.perform operation s) (M.perform operation t)
  turn : L.turn = M.turn
  hear : L.hear = M.hear

/-- Two worlds that differ in their shared states only, which are related. -/
structure SameTasks (R : σ → τ → Prop) (w : World σ Λ κ)
    (w' : World τ Λ κ) : Prop where
  shared : R w.shared w'.shared
  tasks : w.tasks = w'.tasks

variable [DecidableEq κ] {L : EventLoop σ Λ Ω Ρ Ι}
variable {M : EventLoop τ Λ Ω Ρ Ι} {R B : σ → τ → Prop}
variable {w : World σ Λ κ} {w' : World τ Λ κ}

/-- One action: the same calls, or the shared states are broken. -/
theorem Mirrors.step (h : Mirrors L M R B) (hw : SameTasks R w w')
    (action : Action κ Ω Ι) :
    Together (SameTasks R) (fun v v' => B v.shared v'.shared)
      (L.step w action) (M.step w' action) := by
  cases action with
  | hear k input =>
      simp only [EventLoop.step, World.assign, h.hear, hw.tasks]
      exact Together.same _ ⟨hw.shared, rfl⟩
  | wake k =>
      simp only [EventLoop.step, h.turn, hw.tasks]
      cases M.turn (w'.tasks k) with
      | go task =>
          simp only [World.assign, hw.tasks]
          exact Together.same _ ⟨hw.shared, rfl⟩
      | call operation resume =>
          have hdone := h.perform operation _ _ hw.shared
          simp only [World.assign, hw.tasks]
          generalize L.perform operation w.shared = p at hdone
          generalize M.perform operation w'.shared = q at hdone
          cases hdone with
          | same r hrelated =>
              exact Together.same _ ⟨hrelated, rfl⟩
          | broken r r' hb =>
              exact Together.broken _ _ hb
  | background operation =>
      have hdone := h.perform operation _ _ hw.shared
      simp only [EventLoop.step]
      generalize L.perform operation w.shared = p at hdone
      generalize M.perform operation w'.shared = q at hdone
      cases hdone with
      | same r hrelated =>
          exact Together.same _ ⟨hrelated, hw.tasks⟩
      | broken r r' hb =>
          exact Together.broken _ _ hb

/-- **Two runs are the same**, up to an action that breaks the shared states. -/
theorem Mirrors.run (h : Mirrors L M R B) (hw : SameTasks R w w')
    (actions : List (Action κ Ω Ι)) :
    ((L.run w actions).1 = (M.run w' actions).1 ∧
      SameTasks R (L.run w actions).2 (M.run w' actions).2) ∨
    ∃ before action later, actions = before ++ action :: later ∧
      (L.run w before).1 = (M.run w' before).1 ∧
      SameTasks R (L.run w before).2 (M.run w' before).2 ∧
      B (L.run w (before ++ [action])).2.shared
        (M.run w' (before ++ [action])).2.shared := by
  induction actions generalizing w w' with
  | nil =>
      exact Or.inl ⟨rfl, hw⟩
  | cons action actions ih =>
      have hstep := h.step hw action
      rcases hp : L.step w action with ⟨calls, v⟩
      rcases hq : M.step w' action with ⟨calls', v'⟩
      rw [hp, hq] at hstep
      cases hstep with
      | same _ hnext =>
          rcases ih hnext with ⟨hrest, hlast⟩ |
            ⟨before, broken, later, rfl, hrest, hlast, hb⟩
          · left
            simp only [run_cons, hp, hq, hrest, true_and]
            exact hlast
          · right
            refine ⟨action :: before, broken, later, rfl, ?_⟩
            simp only [List.cons_append, run_cons, hp, hq, hrest, true_and]
            exact ⟨hlast, hb⟩
      | broken _ _ hb =>
          refine Or.inr ⟨[], action, actions, rfl, rfl, hw, ?_⟩
          simp only [List.nil_append, run_cons, hp, hq, run_nil]
          exact hb

end EventLoop

end Foundation
