import PyRedis.Foundation.Fallible

/-!
# Computations that do not notice a change of the state

A change `f` of the state goes unnoticed in a computation when the run from
the changed state returns or raises the same, and leaves the state that the
run from the unchanged one leaves, changed by `f`.  Only the states of an
invariant are asked about, and the computation has to keep it.

The rules follow the constructors of a computation.  A step that reads the
state is unnoticed when what is done with the state that was read is the same
for the changed one.
-/

namespace Foundation
namespace Fallible

variable {ε σ α β : Type}

/-- From states of the invariant, the computation does not notice `f`. -/
def Equivariant (f : σ → σ) (I : σ → Prop) (x : Fallible ε σ α) : Prop :=
  ∀ s, I s → I (x.run s).2 ∧ x.run (f s) = ((x.run s).1, f (x.run s).2)

namespace Equivariant

variable {f : σ → σ} {I : σ → Prop}

theorem run_eq {x : Fallible ε σ α} (h : Equivariant f I x) {s : σ}
    (hs : I s) : x.run (f s) = ((x.run s).1, f (x.run s).2) :=
  (h s hs).2

theorem pure (a : α) : Equivariant f I (pure a : Fallible ε σ α) :=
  fun _ hs => ⟨hs, rfl⟩

theorem raise (e : ε) : Equivariant f I (raise e : Fallible ε σ α) :=
  fun _ hs => ⟨hs, rfl⟩

theorem ofExcept (r : Except ε α) :
    Equivariant f I (ofExcept r : Fallible ε σ α) := by
  cases r with
  | error e =>
      exact raise e
  | ok a =>
      exact pure a

/-- A computation in closed form. -/
theorem of_run {x : Fallible ε σ α} {r : σ → Except ε α} {g : σ → σ}
    (hrun : ∀ s, x.run s = (r s, g s)) (hr : ∀ s, r (f s) = r s)
    (hg : ∀ s, g (f s) = f (g s)) (hI : ∀ s, I s → I (g s)) :
    Equivariant f I x := by
  intro s hs
  rw [hrun, hrun, hr, hg]
  exact ⟨hI s hs, rfl⟩

theorem modify {g : σ → σ} (hg : ∀ s, g (f s) = f (g s))
    (hI : ∀ s, I s → I (g s)) :
    Equivariant f I (modify g : Fallible ε σ Unit) :=
  of_run (fun _ => rfl) (fun _ => rfl) hg hI

theorem bind {x : Fallible ε σ α} {k : α → Fallible ε σ β}
    (hx : Equivariant f I x) (hk : ∀ a, Equivariant f I (k a)) :
    Equivariant f I (x >>= k) := by
  intro s hs
  obtain ⟨ht, hrun⟩ := hx s hs
  rw [run_bind, run_bind, hrun]
  generalize x.run s = result at ht ⊢
  obtain ⟨e | a, t⟩ := result
  · exact ⟨ht, rfl⟩
  · exact hk a t ht

/-- What is done with a state that was read. -/
theorem get_bind {k : σ → Fallible ε σ β} (hsame : ∀ s, k (f s) = k s)
    (hk : ∀ s, Equivariant f I (k s)) : Equivariant f I (get >>= k) := by
  intro s hs
  obtain ⟨ht, hrun⟩ := hk s s hs
  refine ⟨ht, ?_⟩
  rw [run_bind, run_bind, run_get, run_get]
  simp only [hsame]
  exact hrun

theorem catching {x : Fallible ε σ α} {handler : ε → Fallible ε σ α}
    (hx : Equivariant f I x) (hhandler : ∀ e, Equivariant f I (handler e)) :
    Equivariant f I (x.catching handler) := by
  intro s hs
  obtain ⟨ht, hrun⟩ := hx s hs
  rw [run_catching, run_catching, hrun]
  generalize x.run s = result at ht ⊢
  obtain ⟨e | a, t⟩ := result
  · exact hhandler e t ht
  · exact ⟨ht, rfl⟩

/-- A counting loop over a list. -/
theorem foldlM {g : β → α → Fallible ε σ β}
    (hg : ∀ b a, Equivariant f I (g b a)) (l : List α) (b : β) :
    Equivariant f I (l.foldlM g b) := by
  induction l generalizing b with
  | nil =>
      exact pure b
  | cons a l ih =>
      rw [List.foldlM_cons]
      exact (hg b a).bind ih

/-- A step on the first component of a pair, which is what changes. -/
theorem onFst {τ : Type} {x : Fallible ε σ α} (h : Equivariant f I x) :
    Equivariant (Prod.map f id) (fun p : σ × τ => I p.1) (onFst x) := by
  rintro ⟨s, t⟩ hs
  obtain ⟨ht, hrun⟩ := h s hs
  refine ⟨ht, ?_⟩
  simp only [run_onFst, Prod.map_apply, hrun]

/-- A step on the second component does not look at the first. -/
theorem onSnd {τ : Type} (x : Fallible ε τ α) :
    Equivariant (Prod.map f id) (fun p : σ × τ => I p.1) (onSnd x) :=
  fun _ hs => ⟨hs, rfl⟩

end Equivariant

end Fallible
end Foundation
