import Mathlib.Tactic

/-!
# What one party sees of a machine

A machine takes actions one after another and answers each.  Some of the
actions belong to one party.  Suppose that states can be compared as far as
this party is concerned, that its own actions get the same answers from such
states and lead to such states again, and that all the others lead to a state
that is the same for it as the one before.  Then the party gets the answers
that it would get if nothing but its own actions happened.

Actions are stamped, and the comparison may depend on the stamp reached so
far: states that have become the same stay the same.
-/

namespace Foundation

section Machines

variable {σ α β ι : Type} [Preorder ι]

/-- The answers to several actions. -/
def answersTo (step : α → σ → β × σ) (s : σ) : List α → List β
  | [] => []
  | a :: actions => (step a s).1 :: answersTo step (step a s).2 actions

/-- The answers that one party gets. -/
def seen (mine : α → Bool) (actions : List α) (answers : List β) : List β :=
  ((actions.zip answers).filter fun p => mine p.1).map Prod.snd

section Seen

variable {mine : α → Bool} {a : α}

theorem seen_cons_own (h : mine a = true) (actions : List α) (b : β)
    (answers : List β) :
    seen mine (a :: actions) (b :: answers) =
      b :: seen mine actions answers := by
  simp [seen, h]

theorem seen_cons_other (h : mine a = false) (actions : List α) (b : β)
    (answers : List β) :
    seen mine (a :: actions) (b :: answers) = seen mine actions answers := by
  simp [seen, h]

end Seen

/-- What it takes that the actions of the others cannot be noticed. -/
structure Unwinding (step : α → σ → β × σ) (stamp : α → ι)
    (mine allowed : α → Bool) (R : ι → σ → σ → Prop) : Prop where
  own : ∀ {i s t} {a : α}, R i s t → i ≤ stamp a → mine a = true →
    (step a s).1 = (step a t).1 ∧
      R (stamp a) (step a s).2 (step a t).2
  silent : ∀ {i s t} {a : α}, R i s t → i ≤ stamp a → mine a = false →
    allowed a = true → R (stamp a) (step a s).2 t

variable {step : α → σ → β × σ} {stamp : α → ι} {mine allowed : α → Bool}
variable {R : ι → σ → σ → Prop}

/-- **The others cannot be noticed.** -/
theorem Unwinding.seen_eq (h : Unwinding step stamp mine allowed R)
    (actions : List α) :
    ∀ {i : ι} {s t : σ}, R i s t → (∀ a ∈ actions, i ≤ stamp a) →
      actions.Pairwise (fun a b => stamp a ≤ stamp b) →
      (∀ a ∈ actions, allowed a = true) →
      seen mine actions (answersTo step s actions) =
        answersTo step t (actions.filter mine) := by
  induction actions with
  | nil =>
      intros
      rfl
  | cons a actions ih =>
      intro i s t hst hfrom horder hallowed
      obtain ⟨hfirst, hallowed⟩ := List.forall_mem_cons.mp hallowed
      obtain ⟨hafter, horder⟩ := List.pairwise_cons.mp horder
      have hstamp := hfrom a List.mem_cons_self
      cases hmine : mine a with
      | true =>
          obtain ⟨hanswer, hnext⟩ := h.own hst hstamp hmine
          have hrest := ih hnext hafter horder hallowed
          rw [List.filter_cons_of_pos hmine, answersTo, answersTo,
            seen_cons_own hmine, hrest, hanswer]
      | false =>
          have hnext := h.silent hst hstamp hmine hfirst
          have hrest := ih hnext hafter horder hallowed
          rw [List.filter_cons_of_neg (by simp [hmine]), answersTo,
            seen_cons_other hmine, hrest]

end Machines

end Foundation
