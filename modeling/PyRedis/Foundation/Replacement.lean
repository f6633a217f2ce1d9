import Mathlib.Tactic

/-!
# One element replaced

Two lists of which the second has a given element in one place, whatever the
first has there.  A replacement in a concatenation is a replacement in one of
its pieces, so what a replaced element does to a word that is composed of
others is found out piece by piece.
-/

namespace Foundation

universe u v

variable {α : Type u} {β : Type v} {b : β}

/-- `Replaced b l l'`: one element of `l` replaced by `b` makes it `l'`. -/
inductive Replaced (b : β) : List β → List β → Prop
  | head (a : β) (l : List β) : Replaced b (a :: l) (b :: l)
  | tail (a : β) {l l' : List β} (h : Replaced b l l') :
      Replaced b (a :: l) (a :: l')

namespace Replaced

theorem set {l : List β} {i : Nat} (h : i < l.length) (b : β) :
    Replaced b l (l.set i b) := by
  induction l generalizing i with
  | nil =>
      simp at h
  | cons a l ih =>
      cases i with
      | zero =>
          exact head a l
      | succ i =>
          exact tail a (ih (Nat.lt_of_succ_lt_succ h))

theorem length_eq {l l' : List β} (h : Replaced b l l') :
    l'.length = l.length := by
  induction h with
  | head _ _ =>
      rfl
  | tail _ _ ih =>
      rw [List.length_cons, List.length_cons, ih]

/-- Nothing is in the list now but the new element and what was there. -/
theorem mem {l l' : List β} (h : Replaced b l l') {c : β} (hc : c ∈ l') :
    c = b ∨ c ∈ l := by
  induction h with
  | head a l =>
      rcases List.mem_cons.mp hc with rfl | hc
      · exact Or.inl rfl
      · exact Or.inr (List.mem_cons_of_mem a hc)
  | tail a _ ih =>
      rcases List.mem_cons.mp hc with rfl | hc
      · exact Or.inr List.mem_cons_self
      · exact (ih hc).imp_right (List.mem_cons_of_mem a)

/-- A replacement in a concatenation is one in either piece. -/
theorem append_cases {x y z : List β} (h : Replaced b (x ++ y) z) :
    (∃ x', Replaced b x x' ∧ z = x' ++ y) ∨
      ∃ y', Replaced b y y' ∧ z = x ++ y' := by
  induction x generalizing z with
  | nil =>
      exact Or.inr ⟨z, h, rfl⟩
  | cons a x ih =>
      cases h with
      | head _ _ =>
          exact Or.inl ⟨b :: x, head a x, rfl⟩
      | tail _ h =>
          rcases ih h with ⟨x', hx, rfl⟩ | ⟨y', hy, rfl⟩
          · exact Or.inl ⟨a :: x', tail a hx, rfl⟩
          · exact Or.inr ⟨y', hy, rfl⟩

/-- A replacement in a concatenation of words is one in a word. -/
theorem flatMap_cases {enc : α → List β} {l : List α} {z : List β}
    (h : Replaced b (l.flatMap enc) z) :
    ∃ x a y w, l = x ++ a :: y ∧ Replaced b (enc a) w ∧
      z = x.flatMap enc ++ w ++ y.flatMap enc := by
  induction l generalizing z with
  | nil =>
      cases h
  | cons a l ih =>
      rw [List.flatMap_cons] at h
      rcases h.append_cases with ⟨w, hw, rfl⟩ | ⟨z', hz, rfl⟩
      · exact ⟨[], a, l, w, rfl, hw, by simp⟩
      · obtain ⟨x, a', y, w, rfl, hw, rfl⟩ := ih hz
        exact ⟨a :: x, a', y, w, rfl, hw, by simp⟩

end Replaced
end Foundation
