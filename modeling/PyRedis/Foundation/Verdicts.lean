import PyRedis.Foundation.Decoder

/-!
# The grammar of verdicts

`Takes d R` says which words a decoder takes off the front of an input, and
for what values.  `Halts d h B` says on which inputs it gives no value, because
it needs more or because it fails with a certain error.  Both compose through
sequencing and repetition, so the grammar of a format can be read off its
decoder.  A scan takes some words, and ends at an input on which one decoding
halts.
-/

namespace Foundation

universe u

/-- How a decoder ends without a value. -/
inductive Halt (ε : Type u) where
  | more
  | fail (e : ε)

/-- The way a verdict is without a value, if it is. -/
def Decoded.halt {β ε α : Type u} : Decoded β ε α → Option (Halt ε)
  | .done _ _ => none
  | .more => some .more
  | .fail e => some (.fail e)

namespace Decoder

variable {β ε α γ : Type u}

/-- The decoder takes exactly the words of `R` off an input, each for its
value. -/
def Takes (d : Decoder β ε α) (R : List β → α → Prop) : Prop :=
  ∀ x a rest, d x = .done a rest ↔ ∃ c, R c a ∧ x = c ++ rest

/-- The decoder ends without a value, in the way `h`, exactly on `B`. -/
def Halts (d : Decoder β ε α) (h : Halt ε) (B : List β → Prop) : Prop :=
  ∀ x, (d x).halt = some h ↔ B x

/-- Every failure of the decoder is one of `P`. -/
def FailsOnly (d : Decoder β ε α) (P : ε → Prop) : Prop :=
  ∀ x e, d x = .fail e → P e

section Words

variable {d : Decoder β ε α} {R : List β → α → Prop}

theorem takes_of_incremental (hd : Incremental d) : Takes d (Encodes d) := by
  intro x a rest
  constructor
  · intro h
    obtain ⟨c, hx, hc⟩ := hd.done_local h
    exact ⟨c, hc, hx⟩
  · rintro ⟨c, hc, rfl⟩
    exact hc rest

theorem Takes.congr {R' : List β → α → Prop} (h : Takes d R)
    (hR : ∀ c a, R c a ↔ R' c a) : Takes d R' := by
  intro x a rest
  rw [h x a rest]
  simp only [hR]

theorem Takes.done {c : List β} {a : α} (h : Takes d R) (hc : R c a)
    (y : List β) : d (c ++ y) = .done a y :=
  (h _ _ _).mpr ⟨c, hc, rfl⟩

theorem Takes.encodes_iff (h : Takes d R) {c : List β} {a : α} :
    Encodes d c a ↔ R c a := by
  constructor
  · intro hc
    obtain ⟨c', hc', hnil⟩ := (h _ _ _).mp (hc [])
    rw [List.append_nil, List.append_nil] at hnil
    rwa [hnil]
  · exact h.done

theorem takes_ofExcept (r : Except ε α) :
    Takes (ofExcept r : Decoder β ε α) fun c a => c = [] ∧ r = .ok a := by
  intro x a rest
  constructor
  · intro h
    obtain ⟨hr, rfl⟩ := ofExcept_done h
    exact ⟨[], ⟨rfl, hr⟩, rfl⟩
  · rintro ⟨c, ⟨rfl, rfl⟩, rfl⟩
    rfl

/-- A word of a sequence is one word of each part. -/
theorem Takes.andThen {f : α → Nat → Decoder β ε γ}
    {S : α → List β → γ → Prop} (hd : Takes d R)
    (hf : ∀ a n, Takes (f a n) (S a)) :
    Takes (d.andThen f)
      fun c b => ∃ c₁ c₂ a, c = c₁ ++ c₂ ∧ R c₁ a ∧ S a c₂ b := by
  intro x b rest
  constructor
  · intro h
    obtain ⟨a, mid, ha, hb⟩ := andThen_done h
    obtain ⟨c₁, hc₁, rfl⟩ := (hd _ _ _).mp ha
    obtain ⟨c₂, hc₂, rfl⟩ := (hf _ _ _ _ _).mp hb
    exact ⟨c₁ ++ c₂, ⟨c₁, c₂, a, rfl, hc₁, hc₂⟩, (List.append_assoc _ _ _).symm⟩
  · rintro ⟨c, ⟨c₁, c₂, a, rfl, hc₁, hc₂⟩, rfl⟩
    rw [List.append_assoc]
    simp only [Decoder.andThen, hd.done hc₁]
    exact (hf a _).done hc₂ rest

end Words

section Halting

variable {d : Decoder β ε α} {R : List β → α → Prop} {h : Halt ε}
variable {B : List β → Prop}

theorem halt_eq_fail {v : Decoded β ε α} {e : ε} :
    v.halt = some (.fail e) ↔ v = .fail e := by
  cases v <;> simp [Decoded.halt]

theorem halt_eq_more {v : Decoded β ε α} :
    v.halt = some .more ↔ v = .more := by
  cases v <;> simp [Decoded.halt]

theorem Halts.congr {B' : List β → Prop} (hd : Halts d h B)
    (hB : ∀ x, B x ↔ B' x) : Halts d h B' :=
  fun x => (hd x).trans (hB x)

theorem halts_ofExcept_more (r : Except ε α) :
    Halts (ofExcept r : Decoder β ε α) .more fun _ => False := by
  intro x
  cases r <;> simp [ofExcept, Decoded.halt]

theorem halts_ofExcept_fail (r : Except ε α) (e : ε) :
    Halts (ofExcept r : Decoder β ε α) (.fail e) fun _ => r = .error e := by
  intro x
  cases r <;> simp [ofExcept, Decoded.halt]

theorem not_halts_ofExcept_ok (a : α) (h : Halt ε) :
    Halts (ofExcept (.ok a) : Decoder β ε α) h fun _ => False := by
  intro x
  simp [ofExcept, Decoded.halt]

/-- A sequence halts in its first part, or behind a word of it in its
second. -/
theorem Halts.andThen {f : α → Nat → Decoder β ε γ}
    {B' : α → List β → Prop} (hh : Halts d h B) (hd : Takes d R)
    (hf : ∀ a n, Halts (f a n) h (B' a)) :
    Halts (d.andThen f) h
      fun x => B x ∨ ∃ c a rest, x = c ++ rest ∧ R c a ∧ B' a rest := by
  intro x
  simp only [← hh x]
  constructor
  · intro hx
    cases hv : d x with
    | done a rest =>
        simp only [Decoder.andThen, hv] at hx
        obtain ⟨c, hc, rfl⟩ := (hd _ _ _).mp hv
        exact Or.inr ⟨c, a, rest, rfl, hc, (hf a _ rest).mp hx⟩
    | more =>
        simp only [Decoder.andThen, hv] at hx
        exact Or.inl hx
    | fail e =>
        simp only [Decoder.andThen, hv] at hx
        exact Or.inl hx
  · rintro (hx | ⟨c, a, rest, rfl, hc, hrest⟩)
    · cases hv : d x with
      | done a rest =>
          simp [hv, Decoded.halt] at hx
      | more =>
          rw [hv] at hx
          simp only [Decoder.andThen, hv]
          exact hx
      | fail e =>
          rw [hv] at hx
          simp only [Decoder.andThen, hv]
          exact hx
    · simp only [Decoder.andThen, hd.done hc]
      exact (hf a _ rest).mpr hrest

end Halting

section Rows

variable {d : Nat → Decoder β ε α} {R : List β → α → Prop} {h : Halt ε}
variable {B : List β → Prop}

/-- A row takes a row of words. -/
theorem takes_times (hd : ∀ offset, Takes (d offset) R) :
    ∀ n offset, Takes (times d n offset)
      fun c l => l.length = n ∧ ∃ cs, List.Forall₂ R cs l ∧ c = cs.flatten
  | 0, offset => by
      refine (takes_ofExcept (.ok [])).congr fun c l => ?_
      constructor
      · rintro ⟨rfl, hl⟩
        cases hl
        exact ⟨rfl, [], .nil, rfl⟩
      · rintro ⟨hl, cs, hcs, rfl⟩
        obtain rfl := List.eq_nil_of_length_eq_zero hl
        cases hcs
        exact ⟨rfl, rfl⟩
  | n + 1, offset => by
      have hrest := fun (a : α) (used : Nat) =>
        (takes_times hd n (offset + used)).andThen
          fun l _ => takes_ofExcept (β := β) (.ok (a :: l))
      refine ((hd offset).andThen hrest).congr fun c l => ?_
      constructor
      · rintro ⟨c₁, -, a, rfl, ha, -, c₃, l', rfl, ⟨rfl, cs, hcs, rfl⟩, rfl, hl⟩
        cases hl
        exact ⟨rfl, c₁ :: cs, .cons ha hcs, by simp⟩
      · rintro ⟨hl, cs, hcs, rfl⟩
        cases hcs with
        | nil =>
            cases hl
        | @cons c a cs l ha hcs =>
            refine ⟨c, cs.flatten, a, rfl, ha, cs.flatten, [], l, by simp, ?_,
              rfl, rfl⟩
            exact ⟨by simpa using hl, cs, hcs, rfl⟩

/-- A row halts where some words, fewer than were asked for, are followed by
an input on which one decoding halts. -/
theorem halts_times (hd : ∀ offset, Takes (d offset) R)
    (hh : ∀ offset, Halts (d offset) h B) :
    ∀ n offset, Halts (times d n offset) h
      fun x => ∃ cs l r, x = cs.flatten ++ r ∧ l.length < n ∧
        List.Forall₂ R cs l ∧ B r
  | 0, offset => by
      refine (not_halts_ofExcept_ok [] h).congr fun x => ?_
      simp
  | n + 1, offset => by
      have hrest := fun (a : α) (used : Nat) =>
        (halts_times hd hh n (offset + used)).andThen
          (takes_times hd n (offset + used))
          fun l _ => not_halts_ofExcept_ok (β := β) (a :: l) h
      refine ((hh offset).andThen (hd offset) hrest).congr fun x => ?_
      constructor
      · rintro (hx | ⟨c, a, -, rfl, hc, ⟨cs, l, r, rfl, hl, hcs, hr⟩ |
          ⟨_, _, _, -, -, hfalse⟩⟩)
        · exact ⟨[], [], x, rfl, n.succ_pos, .nil, hx⟩
        · exact ⟨c :: cs, a :: l, r, by simp, Nat.succ_lt_succ hl,
            .cons hc hcs, hr⟩
        · exact hfalse.elim
      · rintro ⟨cs, l, r, rfl, hl, hcs, hr⟩
        cases hcs with
        | nil =>
            exact Or.inl hr
        | @cons c a cs l ha hcs =>
            refine Or.inr ⟨c, a, cs.flatten ++ r, by simp, ha, Or.inl ?_⟩
            exact ⟨cs, l, r, rfl, Nat.lt_of_succ_lt_succ hl, hcs, hr⟩

end Rows

section Failures

variable {d : Decoder β ε α} {P : ε → Prop}

theorem failsOnly_ofExcept {r : Except ε α} (h : ∀ e, r = .error e → P e) :
    FailsOnly (ofExcept r : Decoder β ε α) P := by
  intro x e hx
  cases r with
  | ok a =>
      cases hx
  | error e' =>
      cases hx
      exact h e rfl

theorem failsOnly_take (n : Nat) :
    FailsOnly (take n : Decoder β ε (List β)) P := by
  intro x e hx
  unfold take at hx
  split_ifs at hx

theorem FailsOnly.andThen {f : α → Nat → Decoder β ε γ}
    (hd : FailsOnly d P) (hf : ∀ a n, FailsOnly (f a n) P) :
    FailsOnly (d.andThen f) P := by
  intro x e hx
  cases hv : d x with
  | done a rest =>
      simp only [Decoder.andThen, hv] at hx
      exact hf _ _ _ _ hx
  | more =>
      simp only [Decoder.andThen, hv] at hx
      cases hx
  | fail e' =>
      simp only [Decoder.andThen, hv] at hx
      cases hx
      exact hd _ _ hv

theorem failsOnly_times {d : Nat → Decoder β ε α}
    (hd : ∀ offset, FailsOnly (d offset) P) :
    ∀ n offset, FailsOnly (times d n offset) P
  | 0, _ => failsOnly_ofExcept (r := .ok []) fun _ h => by cases h
  | n + 1, offset =>
      (hd offset).andThen fun a used =>
        (failsOnly_times hd n (offset + used)).andThen fun l _ =>
          failsOnly_ofExcept (r := .ok (a :: l)) fun _ h => by cases h

theorem Fails.only {d : Nat → Decoder β ε α}
    (hd : ∀ offset, FailsOnly (d offset) P) {offset : Nat} {x : List β}
    {e : ε} (h : Fails d offset x e) : P e := by
  induction h with
  | here hx h =>
      exact hd _ _ _ h
  | step hx h next ih =>
      exact ih

end Failures

section Scans

variable {d : Nat → Decoder β ε α} {R : List β → α → Prop}
variable {B : List β → Prop}

/-- A scan takes a row of words, and ends with the input or where it needs
more. -/
theorem scans_iff (hd : ∀ offset, Takes (d offset) R)
    (hm : ∀ offset, Halts (d offset) .more B) (hR : ∀ a, ¬ R [] a)
    {x tail : List β} {l : List α} {offset : Nat} :
    (∃ items, items.map Prod.snd = l ∧ Scans d offset x items tail) ↔
      ∃ cs, List.Forall₂ R cs l ∧ x = cs.flatten ++ tail ∧
        (tail = [] ∨ B tail) := by
  constructor
  · rintro ⟨items, rfl, hscans⟩
    induction hscans with
    | nil offset =>
        exact ⟨[], .nil, rfl, Or.inl rfl⟩
    | @torn offset x hx hmore =>
        exact ⟨[], .nil, rfl, Or.inr ((hm offset x).mp
          (halt_eq_more.mpr hmore))⟩
    | @step offset x rest tail a items hx hdone next ih =>
        obtain ⟨cs, hcs, rfl, htail⟩ := ih
        obtain ⟨c, hc, rfl⟩ := (hd offset _ _ _).mp hdone
        exact ⟨c :: cs, .cons hc hcs, by simp, htail⟩
  · rintro ⟨cs, hcs, rfl, htail⟩
    induction hcs generalizing offset with
    | nil =>
        by_cases hnil : tail = []
        · subst hnil
          exact ⟨[], rfl, .nil offset⟩
        · refine ⟨[], rfl, .torn hnil (halt_eq_more.mp ?_)⟩
          exact (hm offset tail).mpr (htail.resolve_left hnil)
    | @cons c a cs l hc hcs ih =>
        obtain ⟨items, rfl, hscans⟩ := @ih (offset + c.length)
        refine ⟨(offset, a) :: items, rfl, ?_⟩
        rw [List.flatten_cons, List.append_assoc]
        refine Scans.step ?_ ((hd offset).done hc _) (by simpa using hscans)
        intro hnil
        obtain ⟨rfl, -⟩ := List.append_eq_nil_iff.mp hnil
        exact hR a hc

/-- Decoding again and again fails behind a row of words, where one decoding
fails. -/
theorem fails_iff {e : ε} (hd : ∀ offset, Takes (d offset) R)
    (hf : ∀ offset, Halts (d offset) (.fail e) B) (hR : ∀ a, ¬ R [] a)
    (hB : ¬ B []) {x : List β} {offset : Nat} :
    Fails d offset x e ↔
      ∃ cs l r, List.Forall₂ R cs l ∧ B r ∧ x = cs.flatten ++ r := by
  constructor
  · intro h
    induction h with
    | @here offset x e hx hfail =>
        exact ⟨[], [], x, .nil, (hf offset x).mp (halt_eq_fail.mpr hfail),
          rfl⟩
    | @step offset x rest a e hx hdone next ih =>
        obtain ⟨cs, l, r, hcs, hr, rfl⟩ := ih hf
        obtain ⟨c, hc, rfl⟩ := (hd offset _ _ _).mp hdone
        exact ⟨c :: cs, a :: l, r, .cons hc hcs, hr, by simp⟩
  · rintro ⟨cs, l, r, hcs, hr, rfl⟩
    induction hcs generalizing offset with
    | nil =>
        refine Fails.here ?_ (halt_eq_fail.mp ((hf offset r).mpr hr))
        rintro rfl
        exact hB hr
    | @cons c a cs l hc hcs ih =>
        rw [List.flatten_cons, List.append_assoc]
        refine Fails.step ?_ ((hd offset).done hc _)
          (by simpa using @ih (offset + c.length))
        intro hnil
        obtain ⟨rfl, -⟩ := List.append_eq_nil_iff.mp hnil
        exact hR a hc

end Scans

end Decoder
end Foundation
