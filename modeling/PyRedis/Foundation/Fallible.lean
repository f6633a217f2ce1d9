import Mathlib.Tactic

/-!
# Stateful computations that may raise

`Fallible ε σ α` is a computation over a state `σ` that returns a value of type
`α` or raises an exception of type `ε`.  Raising does not roll the state back:
whatever was changed before the exception stays changed, as in an imperative
language.

`Triple x s Q R` says that the run of `x` from `s` either returns with `Q` or
raises with `R`.  The rules below follow the constructors of a computation, so
that an invariant is checked once for each primitive and then carried through
sequencing and through loops over a list.
-/

namespace Foundation

/-- A computation over `σ` returning `α` or raising `ε`. -/
def Fallible (ε σ α : Type) : Type :=
  σ → Except ε α × σ

namespace Fallible

variable {ε σ τ α β : Type}

/-- Run a computation from a state. -/
def run (x : Fallible ε σ α) (s : σ) : Except ε α × σ :=
  x s

instance : Monad (Fallible ε σ) where
  pure a := fun s => (.ok a, s)
  bind x f := fun s =>
    match x s with
    | (.ok a, t) => f a t
    | (.error e, t) => (.error e, t)

/-- Raise an exception. -/
def raise (e : ε) : Fallible ε σ α :=
  fun s => (.error e, s)

/-- The current state. -/
def get : Fallible ε σ σ :=
  fun s => (.ok s, s)

/-- Change the state. -/
def modify (f : σ → σ) : Fallible ε σ Unit :=
  fun s => (.ok (), f s)

/-- A value computed without the state, or its exception. -/
def ofExcept : Except ε α → Fallible ε σ α
  | .ok a => pure a
  | .error e => raise e

/-- Run `x`, and on an exception run the handler from the state reached. -/
def catching (x : Fallible ε σ α) (handler : ε → Fallible ε σ α) :
    Fallible ε σ α :=
  fun s =>
    match x s with
    | (.ok a, t) => (.ok a, t)
    | (.error e, t) => handler e t

/-- A computation on the first component of a pair. -/
def onFst (x : Fallible ε σ α) : Fallible ε (σ × τ) α :=
  fun s => ((x s.1).1, ((x s.1).2, s.2))

/-- A computation on the second component of a pair. -/
def onSnd (x : Fallible ε τ α) : Fallible ε (σ × τ) α :=
  fun s => ((x s.2).1, (s.1, (x s.2).2))

/-- Run a computation for every element of a list, in order. -/
def forEach (f : α → Fallible ε σ Unit) : List α → Fallible ε σ Unit
  | [] => pure ()
  | a :: l => do
      f a
      forEach f l

section Run

@[simp] theorem run_pure (a : α) (s : σ) :
    (pure a : Fallible ε σ α).run s = (.ok a, s) := by
  rfl

@[simp] theorem run_raise (e : ε) (s : σ) :
    (raise e : Fallible ε σ α).run s = (.error e, s) := by
  rfl

@[simp] theorem run_get (s : σ) :
    (get : Fallible ε σ σ).run s = (.ok s, s) := by
  rfl

@[simp] theorem run_modify (f : σ → σ) (s : σ) :
    (modify f : Fallible ε σ Unit).run s = (.ok (), f s) := by
  rfl

@[simp] theorem run_ofExcept_ok (a : α) (s : σ) :
    (ofExcept (.ok a) : Fallible ε σ α).run s = (.ok a, s) := by
  rfl

@[simp] theorem run_ofExcept_error (e : ε) (s : σ) :
    (ofExcept (.error e) : Fallible ε σ α).run s = (.error e, s) := by
  rfl

@[simp] theorem run_bind (x : Fallible ε σ α) (f : α → Fallible ε σ β)
    (s : σ) :
    (x >>= f).run s =
      match x.run s with
      | (.ok a, t) => (f a).run t
      | (.error e, t) => (.error e, t) := by
  rfl

@[simp] theorem run_catching (x : Fallible ε σ α)
    (handler : ε → Fallible ε σ α) (s : σ) :
    (x.catching handler).run s =
      match x.run s with
      | (.ok a, t) => (.ok a, t)
      | (.error e, t) => (handler e).run t := by
  rfl

@[simp] theorem run_onFst (x : Fallible ε σ α) (s : σ × τ) :
    (onFst x).run s = ((x.run s.1).1, ((x.run s.1).2, s.2)) := by
  rfl

@[simp] theorem run_onSnd (x : Fallible ε τ α) (s : σ × τ) :
    (onSnd x).run s = ((x.run s.2).1, (s.1, (x.run s.2).2)) := by
  rfl

@[simp] theorem run_ite (c : Prop) [Decidable c] (x y : Fallible ε σ α)
    (s : σ) :
    (if c then x else y).run s = if c then x.run s else y.run s := by
  split_ifs <;> rfl

theorem run_forEach_append (f : α → Fallible ε σ Unit) (l l' : List α)
    (s : σ) :
    (forEach f (l ++ l')).run s =
      match (forEach f l).run s with
      | (.ok _, t) => (forEach f l').run t
      | (.error e, t) => (.error e, t) := by
  induction l generalizing s with
  | nil =>
      rfl
  | cons a l ih =>
      simp only [List.cons_append, forEach, run_bind]
      rcases (f a).run s with ⟨e | _, t⟩
      · rfl
      · exact ih t

theorem forEach_map (f : β → Fallible ε σ Unit) (g : α → β) (l : List α) :
    forEach f (l.map g) = forEach (fun a => f (g a)) l := by
  induction l with
  | nil =>
      rfl
  | cons a l ih =>
      simp only [List.map_cons, forEach, ih]

/-- A loop on the second component of a pair leaves the first alone. -/
theorem run_forEach_onSnd (f : α → Fallible ε τ Unit) (l : List α)
    (s : σ × τ) :
    (forEach (fun a => onSnd (f a)) l).run s =
      (onSnd (forEach f l)).run s := by
  induction l generalizing s with
  | nil =>
      rfl
  | cons a l ih =>
      simp only [forEach, run_bind, run_onSnd]
      rcases (f a).run s.2 with ⟨e | _, t⟩
      · rfl
      · simp only [ih, run_onSnd]

/-- Two computations with the same runs are the same. -/
@[ext] theorem ext {x y : Fallible ε σ α}
    (h : ∀ s, x.run s = y.run s) : x = y :=
  funext h

end Run

section Rules

/-- The run of `x` from `s` returns with `Q` or raises with `R`. -/
def Triple (x : Fallible ε σ α) (s : σ)
    (Q : α → σ → Prop) (R : ε → σ → Prop) : Prop :=
  match x.run s with
  | (.ok a, t) => Q a t
  | (.error e, t) => R e t

variable {Q : α → σ → Prop} {R : ε → σ → Prop} {s : σ}

theorem Triple.of_ok {x : Fallible ε σ α} {a : α} {t : σ}
    (h : x.run s = (.ok a, t)) (hQ : Q a t) : Triple x s Q R := by
  unfold Triple
  rw [h]
  exact hQ

theorem Triple.of_error {x : Fallible ε σ α} {e : ε} {t : σ}
    (h : x.run s = (.error e, t)) (hR : R e t) : Triple x s Q R := by
  unfold Triple
  rw [h]
  exact hR

theorem Triple.ok {x : Fallible ε σ α} {a : α} {t : σ}
    (hx : Triple x s Q R) (h : x.run s = (.ok a, t)) : Q a t := by
  unfold Triple at hx
  rw [h] at hx
  exact hx

theorem Triple.error {x : Fallible ε σ α} {e : ε} {t : σ}
    (hx : Triple x s Q R) (h : x.run s = (.error e, t)) : R e t := by
  unfold Triple at hx
  rw [h] at hx
  exact hx

theorem Triple.pure {a : α} (h : Q a s) :
    Triple (pure a : Fallible ε σ α) s Q R :=
  h

theorem Triple.raise {e : ε} (h : R e s) :
    Triple (raise e : Fallible ε σ α) s Q R :=
  h

theorem Triple.modify {f : σ → σ} {Q : Unit → σ → Prop} (h : Q () (f s)) :
    Triple (Fallible.modify f : Fallible ε σ Unit) s Q R :=
  h

/-- Rule of consequence. -/
theorem Triple.mono {x : Fallible ε σ α}
    {Q' : α → σ → Prop} {R' : ε → σ → Prop}
    (hx : Triple x s Q' R')
    (hQ : ∀ a t, Q' a t → Q a t) (hR : ∀ e t, R' e t → R e t) :
    Triple x s Q R := by
  unfold Triple at hx ⊢
  split
  · next a t h =>
      rw [h] at hx
      exact hQ a t hx
  · next e t h =>
      rw [h] at hx
      exact hR e t hx

/-- Rule of sequencing. -/
theorem Triple.bind {x : Fallible ε σ α} {f : α → Fallible ε σ β}
    {P : α → σ → Prop} {Q : β → σ → Prop}
    (hx : Triple x s P R) (hf : ∀ a t, P a t → Triple (f a) t Q R) :
    Triple (x >>= f) s Q R := by
  unfold Triple at hx ⊢
  rw [run_bind]
  split
  · next b u h =>
      split at h
      · next a t hxa =>
          rw [hxa] at hx
          exact (hf a t hx).ok h
      · cases h
  · next e u h =>
      split at h
      · next a t hxa =>
          rw [hxa] at hx
          exact (hf a t hx).error h
      · next e' t hxe =>
          rw [hxe] at hx
          cases h
          exact hx

/-- Rule of handling: the handler starts where the exception was raised. -/
theorem Triple.catching {x : Fallible ε σ α} {handler : ε → Fallible ε σ α}
    {R' : ε → σ → Prop} (hx : Triple x s Q R')
    (hhandler : ∀ e t, R' e t → Triple (handler e) t Q R) :
    Triple (x.catching handler) s Q R := by
  rcases h : x.run s with ⟨e | a, t⟩
  · have hrun : (x.catching handler).run s = (handler e).run t := by
      rw [run_catching, h]
    have ht := hhandler e t (hx.error h)
    unfold Triple at ht ⊢
    rwa [hrun]
  · have hrun : (x.catching handler).run s = (.ok a, t) := by
      rw [run_catching, h]
    exact Triple.of_ok hrun (hx.ok h)

/-- Rule of a loop over a list: a step keeps the invariant, so the loop does. -/
theorem Triple.forEach {I : σ → Prop} {f : α → Fallible ε σ Unit}
    {l : List α}
    (step : ∀ a ∈ l, ∀ s, I s → Triple (f a) s (fun _ => I) R)
    (hs : I s) :
    Triple (forEach f l) s (fun _ => I) R := by
  induction l generalizing s with
  | nil =>
      exact hs
  | cons a l ih =>
      have hhead := step a (by simp) s hs
      refine Triple.bind hhead ?_
      intro _ t ht
      exact ih (fun b hb => step b (List.mem_cons_of_mem _ hb)) ht

end Rules

section Returns

/-- Whatever state it runs from, what the computation returns satisfies `P`. -/
def Returns (P : α → Prop) (x : Fallible ε σ α) : Prop :=
  ∀ s a t, x.run s = (.ok a, t) → P a

namespace Returns

variable {P : β → Prop}

theorem pure {b : β} (h : P b) : Returns P (pure b : Fallible ε σ β) := by
  intro s a t hrun
  cases hrun
  exact h

theorem raise (e : ε) : Returns P (raise e : Fallible ε σ β) := by
  intro s a t hrun
  cases hrun

/-- Only the last computation of a sequence returns. -/
theorem bind {x : Fallible ε σ α} {k : α → Fallible ε σ β}
    (hk : ∀ a, Returns P (k a)) : Returns P (x >>= k) := by
  intro s b t hrun
  rw [run_bind] at hrun
  rcases hx : x.run s with ⟨e | a, s'⟩
  · rw [hx] at hrun
    cases hrun
  · rw [hx] at hrun
    exact hk a s' b t hrun

theorem catching {x : Fallible ε σ β} {handler : ε → Fallible ε σ β}
    (hx : Returns P x) (hhandler : ∀ e, Returns P (handler e)) :
    Returns P (x.catching handler) := by
  intro s b t hrun
  rw [run_catching] at hrun
  rcases h : x.run s with ⟨e | a, s'⟩
  · rw [h] at hrun
    exact hhandler e s' b t hrun
  · rw [h] at hrun
    cases hrun
    exact hx s b t h

theorem ite {c : Prop} [Decidable c] {x y : Fallible ε σ β}
    (hx : Returns P x) (hy : Returns P y) :
    Returns P (if c then x else y) := by
  split_ifs
  · exact hx
  · exact hy

end Returns

end Returns

section Invariants

/-- The computation keeps the invariant, whether it returns or raises. -/
def Preserves (I : σ → Prop) (x : Fallible ε σ α) : Prop :=
  ∀ s, I s → Triple x s (fun _ => I) (fun _ => I)

namespace Preserves

variable {I : σ → Prop}

theorem pure (a : α) : Preserves I (pure a : Fallible ε σ α) :=
  fun _ hs => hs

theorem raise (e : ε) : Preserves I (raise e : Fallible ε σ α) :=
  fun _ hs => hs

theorem get : Preserves I (get : Fallible ε σ σ) :=
  fun _ hs => hs

theorem ofExcept (r : Except ε α) :
    Preserves I (ofExcept r : Fallible ε σ α) := by
  cases r with
  | error e =>
      exact raise e
  | ok a =>
      exact pure a

theorem bind {x : Fallible ε σ α} {k : α → Fallible ε σ β}
    (hx : Preserves I x) (hk : ∀ a, Preserves I (k a)) :
    Preserves I (x >>= k) :=
  fun s hs => Triple.bind (hx s hs) fun a t ht => hk a t ht

theorem catching {x : Fallible ε σ α} {handler : ε → Fallible ε σ α}
    (hx : Preserves I x) (hhandler : ∀ e, Preserves I (handler e)) :
    Preserves I (x.catching handler) :=
  fun s hs => Triple.catching (hx s hs) fun e t ht => hhandler e t ht

theorem ite {c : Prop} [Decidable c] {x y : Fallible ε σ α}
    (hx : Preserves I x) (hy : Preserves I y) :
    Preserves I (if c then x else y) := by
  split_ifs
  · exact hx
  · exact hy

theorem forEach {f : α → Fallible ε σ Unit} {l : List α}
    (hf : ∀ a ∈ l, Preserves I (f a)) : Preserves I (forEach f l) :=
  fun _ hs => Triple.forEach (fun a ha t ht => hf a ha t ht) hs

theorem state_after {x : Fallible ε σ α} (h : Preserves I x) {s : σ}
    (hs : I s) : I (x.run s).2 := by
  have hx := h s hs
  rcases hrun : x.run s with ⟨e | a, t⟩
  · exact hx.error hrun
  · exact hx.ok hrun

theorem of_state_after {x : Fallible ε σ α}
    (h : ∀ s, I s → I (x.run s).2) : Preserves I x := by
  intro s hs
  have ht := h s hs
  unfold Triple
  split
  · next a t hrun =>
      rwa [hrun] at ht
  · next e t hrun =>
      rwa [hrun] at ht

/-- An invariant of the first component, kept by a step on that component. -/
theorem onFst {x : Fallible ε σ α} (h : Preserves I x) :
    Preserves (fun p : σ × τ => I p.1) (onFst x) :=
  of_state_after fun _ hs => h.state_after hs

/-- A step on the second component does not touch the first. -/
theorem onSnd (x : Fallible ε τ α) :
    Preserves (fun p : σ × τ => I p.1) (onSnd x) :=
  of_state_after fun _ hs => hs

end Preserves

end Invariants

end Fallible

end Foundation
