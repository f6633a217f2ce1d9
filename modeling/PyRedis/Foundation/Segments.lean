import PyRedis.Foundation.Fallible

/-!
# Readers of a stream that arrives in pieces

A reader takes elements from the front of its input.  It settles on an input
when more elements behind it would change nothing but what is left over.

A segmented reader is cut at the points where it may have to wait for input.
It is resumed at one of its points, and as long as the stream is open it waits
there until it settles.  Then it does not matter in which pieces the input
arrives, nor when the reader is resumed: what it will make of the rest of the
stream is what it makes of the whole stream.
-/

namespace Foundation
namespace Fallible

variable {ε β α γ : Type}

/-- What follows the input at hand makes no difference. -/
def Settles (c : Fallible ε (List β) α) (x : List β) : Prop :=
  ∀ y, c.run (x ++ y) = ((c.run x).1, (c.run x).2 ++ y)

/-- Run a reader unless it has to wait, which nobody does at the end of the
stream. -/
def whenReady (closed : Bool) (waits : List β → Bool)
    (c : Fallible ε (List β) α) (x : List β) :
    Option (Except ε α × List β) :=
  if !closed && waits x then none else some (c.run x)

namespace Settles

variable {x : List β}

theorem pure (a : α) : Settles (pure a : Fallible ε (List β) α) x :=
  fun _ => rfl

theorem raise (e : ε) : Settles (raise e : Fallible ε (List β) α) x :=
  fun _ => rfl

theorem ofExcept (r : Except ε α) :
    Settles (ofExcept r : Fallible ε (List β) α) x := by
  cases r with
  | error e =>
      exact raise e
  | ok a =>
      exact pure a

/-- The continuation need settle only on what the first part leaves. -/
theorem bind {c : Fallible ε (List β) α} {k : α → Fallible ε (List β) γ}
    (hc : Settles c x)
    (hk : ∀ a rest, c.run x = (.ok a, rest) → Settles (k a) rest) :
    Settles (c >>= k) x := by
  intro y
  rw [run_bind, run_bind, hc y]
  rcases hx : c.run x with ⟨e | a, rest⟩
  · rfl
  · exact hk a rest hx y

theorem ite {c d : Fallible ε (List β) α} (p : Prop) [Decidable p]
    (hc : Settles c x) (hd : Settles d x) :
    Settles (if p then c else d) x := by
  split_ifs
  · exact hc
  · exact hd

end Settles

theorem whenReady_eq_none_iff {closed : Bool} {waits : List β → Bool}
    {c : Fallible ε (List β) α} {x : List β} :
    whenReady closed waits c x = none ↔ closed = false ∧ waits x = true := by
  unfold whenReady
  cases closed <;> simp

theorem run_of_whenReady {closed : Bool} {waits : List β → Bool}
    {c : Fallible ε (List β) α} {x : List β} {r : Except ε α × List β}
    (h : whenReady closed waits c x = some r) :
    c.run x = r ∧ (closed = true ∨ waits x = false) := by
  unfold whenReady at h
  split_ifs at h with hwaits
  refine ⟨Option.some.inj h, ?_⟩
  cases closed with
  | true =>
      exact Or.inl rfl
  | false =>
      exact Or.inr (by simpa using hwaits)

end Fallible

open Fallible

/-- A reader cut into segments.  `whole q` is what is left of it at the point
`q`: the segment there, and then what is left at the point it leads to. -/
structure Segmented (ε β θ α : Type) where
  waits : θ → List β → Bool
  segment : θ → Fallible ε (List β) (θ ⊕ α)
  whole : θ → Fallible ε (List β) α
  settles : ∀ q x, waits q x = false → Settles (segment q) x
  unfolds : ∀ q, whole q = segment q >>= Sum.elim whole pure

namespace Segmented

variable {ε β θ α : Type} (S : Segmented ε β θ α)

/-- Resume the reader at a point. -/
def resume (closed : Bool) (q : θ) (x : List β) :
    Option (Except ε (θ ⊕ α) × List β) :=
  whenReady closed (S.waits q) (S.segment q) x

variable {S} {closed : Bool} {q q' : θ} {x rest : List β}

/-- A segment that was run has settled on its input, or there is no more. -/
theorem run_append {r : Except ε (θ ⊕ α)}
    (h : S.resume closed q x = some (r, rest)) {y : List β}
    (hy : closed = true → y = []) :
    (S.segment q).run (x ++ y) = (r, rest ++ y) := by
  obtain ⟨hrun, hclosed | hwaits⟩ := run_of_whenReady h
  · rw [hy hclosed, List.append_nil, List.append_nil]
    exact hrun
  · rw [S.settles q x hwaits y, hrun]

/-- **A segment that leads on**: the reader makes of the stream what it makes,
from there, of the rest. -/
theorem whole_of_next (h : S.resume closed q x = some (.ok (.inl q'), rest))
    {y : List β} (hy : closed = true → y = []) :
    (S.whole q).run (x ++ y) = (S.whole q').run (rest ++ y) := by
  rw [S.unfolds q, run_bind, run_append h hy]
  rfl

/-- **The last segment** ends the whole reader, whatever is still to come. -/
theorem whole_of_last {a : α}
    (h : S.resume closed q x = some (.ok (.inr a), rest))
    {y : List β} (hy : closed = true → y = []) :
    (S.whole q).run (x ++ y) = (.ok a, rest ++ y) := by
  rw [S.unfolds q, run_bind, run_append h hy]
  rfl

/-- **A segment that raises** ends it as well. -/
theorem whole_of_error {e : ε}
    (h : S.resume closed q x = some (.error e, rest))
    {y : List β} (hy : closed = true → y = []) :
    (S.whole q).run (x ++ y) = (.error e, rest ++ y) := by
  rw [S.unfolds q, run_bind, run_append h hy]

end Segmented

end Foundation
