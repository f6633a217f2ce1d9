import Mathlib.Tactic

/-!
# Incremental decoders

A decoder looks at the front of an input that may still grow.  It is done with
a value and the rest of the input, or it needs more, or it fails for good.

A decoder is incremental when its verdicts are final: what it decoded depends
only on the part it consumed, and a failure stays one however the input goes
on.  From this alone it follows that every proper prefix of a code word is
reported as needing more, and that repeated decoding of a concatenation cut at
any point yields exactly the values whose code words are complete.

Decoders that report positions are families indexed by the offset of their
input, and sequencing hands the number of consumed elements on.
-/

namespace Foundation

universe u

/-- The verdict of a decoder on an input. -/
inductive Decoded (β : Type u) (ε α : Type u) where
  | done (a : α) (rest : List β)
  | more
  | fail (e : ε)

/-- The same verdict about another value. -/
def Decoded.map {β ε α γ : Type u} (f : α → γ) :
    Decoded β ε α → Decoded β ε γ
  | .done a rest => .done (f a) rest
  | .more => .more
  | .fail e => .fail e

abbrev Decoder (β ε α : Type u) :=
  List β → Decoded β ε α

namespace Decoder

variable {β ε α γ : Type u}

/-- Decode nothing: a value already known, or its failure. -/
def ofExcept : Except ε α → Decoder β ε α
  | .ok a => fun x => .done a x
  | .error e => fun _ => .fail e

/-- Exactly `n` elements. -/
def take (n : Nat) : Decoder β ε (List β) :=
  fun x => if x.length < n then .more else .done (x.take n) (x.drop n)

/-- Sequencing; the continuation learns how many elements were consumed. -/
def andThen (d : Decoder β ε α) (f : α → Nat → Decoder β ε γ) :
    Decoder β ε γ :=
  fun x =>
    match d x with
    | .done a rest => f a (x.length - rest.length) rest
    | .more => .more
    | .fail e => .fail e

/-- `n` values in a row, from the given offset. -/
def times (d : Nat → Decoder β ε α) : Nat → Nat → Decoder β ε (List α)
  | 0, _ => fun x => .done [] x
  | n + 1, offset =>
      (d offset).andThen fun a used =>
        (times d n (offset + used)).andThen fun l _ =>
          fun x => .done (a :: l) x

/-- The verdicts of `d` are final. -/
structure Incremental (d : Decoder β ε α) : Prop where
  done_local : ∀ {x a rest}, d x = .done a rest →
    ∃ c, x = c ++ rest ∧ ∀ y, d (c ++ y) = .done a y
  fail_append : ∀ {x e}, d x = .fail e → ∀ y, d (x ++ y) = .fail e

/-- `c` is a code word of `a`: it is decoded as such whatever follows. -/
def Encodes (d : Decoder β ε α) (c : List β) (a : α) : Prop :=
  ∀ y, d (c ++ y) = .done a y

theorem Encodes.self {d : Decoder β ε α} {c : List β} {a : α}
    (h : Encodes d c a) : d c = .done a [] := by
  simpa using h []

section Incremental

theorem incremental_ofExcept (r : Except ε α) :
    Incremental (ofExcept r : Decoder β ε α) where
  done_local := by
    intro x a rest h
    cases r with
    | ok b =>
        cases h
        exact ⟨[], rfl, fun y => rfl⟩
    | error e =>
        cases h
  fail_append := by
    intro x e h y
    cases r with
    | ok b =>
        cases h
    | error e' =>
        cases h
        rfl

theorem encodes_take (c : List β) :
    Encodes (take c.length : Decoder β ε (List β)) c c := by
  intro y
  simp [take]

theorem incremental_take (n : Nat) :
    Incremental (take n : Decoder β ε (List β)) where
  done_local := by
    intro x a rest h
    unfold take at h
    split_ifs at h with hlen
    cases h
    refine ⟨x.take n, (List.take_append_drop n x).symm, ?_⟩
    have hn : (x.take n).length = n := by
      rw [List.length_take]
      omega
    intro y
    have := encodes_take (ε := ε) (x.take n) y
    rwa [hn] at this
  fail_append := by
    intro x e h
    unfold take at h
    split_ifs at h

theorem incremental_done (f : α → γ) (a : α) :
    Incremental (fun x => .done (f a) x : Decoder β ε γ) :=
  incremental_ofExcept (.ok (f a))

theorem encodes_andThen {d : Decoder β ε α} {f : α → Nat → Decoder β ε γ}
    {c c' : List β} {a : α} {b : γ}
    (hd : Encodes d c a) (hf : Encodes (f a c.length) c' b) :
    Encodes (d.andThen f) (c ++ c') b := by
  intro y
  have hused : (c ++ (c' ++ y)).length - (c' ++ y).length = c.length := by
    simp
  simp only [andThen, List.append_assoc, hd (c' ++ y), hused]
  exact hf y

theorem incremental_andThen {d : Decoder β ε α}
    {f : α → Nat → Decoder β ε γ}
    (hd : Incremental d) (hf : ∀ a n, Incremental (f a n)) :
    Incremental (d.andThen f) where
  done_local := by
    intro x b rest h
    unfold andThen at h
    split at h
    · next a mid hx =>
        obtain ⟨c, rfl, hc⟩ := hd.done_local hx
        obtain ⟨c', rfl, hc'⟩ := (hf a _).done_local h
        have hused : (c ++ (c' ++ rest)).length - (c' ++ rest).length =
            c.length := by
          simp
        rw [hused] at hc'
        exact ⟨c ++ c', by simp, encodes_andThen hc hc'⟩
    · cases h
    · cases h
  fail_append := by
    intro x e h y
    unfold andThen at h
    split at h
    · next a mid hx =>
        obtain ⟨c, rfl, hc⟩ := hd.done_local hx
        have hused : (c ++ mid).length - mid.length =
            (c ++ (mid ++ y)).length - (mid ++ y).length := by
          simp
        simp only [andThen, List.append_assoc, hc (mid ++ y)]
        rw [← hused]
        exact (hf a _).fail_append h y
    · cases h
    · next e' hx =>
        cases h
        simp only [andThen, hd.fail_append hx y]

theorem incremental_times {d : Nat → Decoder β ε α}
    (hd : ∀ offset, Incremental (d offset)) :
    ∀ n offset, Incremental (times d n offset)
  | 0, _ => incremental_ofExcept (.ok [])
  | n + 1, offset =>
      incremental_andThen (hd offset) fun a used =>
        incremental_andThen (incremental_times hd n (offset + used))
          fun l _ => incremental_ofExcept (.ok (a :: l))

/-- A row of code words is a code word of the row. -/
theorem encodes_times {d : Nat → Decoder β ε α} {enc : α → List β}
    (l : List α) (hd : ∀ a ∈ l, ∀ offset, Encodes (d offset) (enc a) a) :
    ∀ offset, Encodes (times d l.length offset) (l.flatMap enc) l := by
  induction l with
  | nil =>
      intro offset y
      rfl
  | cons a l ih =>
      intro offset
      have hl := ih (fun b hb => hd b (List.mem_cons_of_mem _ hb))
        (offset + (enc a).length)
      rw [List.flatMap_cons]
      refine encodes_andThen (hd a (by simp) offset) ?_
      intro y
      simp only [andThen, hl y]

/-- Behind the code words of the first values of a row, the others remain. -/
theorem times_after {d : Nat → Decoder β ε α} {enc : α → List β}
    (l : List α) (hd : ∀ a ∈ l, ∀ offset, Encodes (d offset) (enc a) a)
    (n : Nat) (x : List β) :
    ∀ offset, times d (l.length + n) offset (l.flatMap enc ++ x) =
      (times d n (offset + (l.flatMap enc).length) x).map (l ++ ·) := by
  induction l with
  | nil =>
      intro offset
      simp only [List.length_nil, Nat.zero_add, List.flatMap_nil,
        List.nil_append, Nat.add_zero]
      cases times d n offset x <;> rfl
  | cons a l ih =>
      intro offset
      have hl := ih (fun b hb => hd b (List.mem_cons_of_mem _ hb))
        (offset + (enc a).length)
      have hused : (enc a ++ (l.flatMap enc ++ x)).length -
          (l.flatMap enc ++ x).length = (enc a).length := by
        simp
      rw [List.length_cons, Nat.add_right_comm, List.flatMap_cons,
        List.append_assoc, List.length_append, ← Nat.add_assoc]
      simp only [times, andThen, hd a (by simp) offset (l.flatMap enc ++ x),
        hused, hl]
      cases times d n (offset + (enc a).length + (l.flatMap enc).length)
        x <;> rfl

theorem times_fail {d : Nat → Decoder β ε α} {offset : Nat} {x : List β}
    {e : ε} (h : d offset x = .fail e) (n : Nat) :
    times d (n + 1) offset x = .fail e := by
  simp only [times, andThen, h]

theorem times_more {d : Nat → Decoder β ε α} {offset : Nat} {x : List β}
    (h : d offset x = .more) (n : Nat) :
    times d (n + 1) offset x = .more := by
  simp only [times, andThen, h]

theorem andThen_done {d : Decoder β ε α} {f : α → Nat → Decoder β ε γ}
    {x rest : List β} {b : γ} (h : d.andThen f x = .done b rest) :
    ∃ a mid, d x = .done a mid ∧
      f a (x.length - mid.length) mid = .done b rest := by
  unfold andThen at h
  split at h
  · next a mid hx =>
      exact ⟨a, mid, hx, h⟩
  · cases h
  · cases h

theorem ofExcept_done {r : Except ε α} {x rest : List β} {a : α}
    (h : ofExcept r x = .done a rest) : r = .ok a ∧ rest = x := by
  cases r with
  | ok b =>
      cases h
      exact ⟨rfl, rfl⟩
  | error e =>
      cases h

theorem take_done {n : Nat} {x rest c : List β}
    (h : (take n : Decoder β ε (List β)) x = .done c rest) :
    c.length = n ∧ x = c ++ rest := by
  unfold take at h
  split_ifs at h with hlen
  cases h
  refine ⟨?_, (List.take_append_drop n x).symm⟩
  rw [List.length_take]
  omega

/-- A row that was decoded has the length asked for, and every value in it was
decoded. -/
theorem times_done {d : Nat → Decoder β ε α} {P : α → Prop}
    (hd : ∀ offset x a rest, d offset x = .done a rest → P a) :
    ∀ {n offset : Nat} {x rest : List β} {l : List α},
      times d n offset x = .done l rest → l.length = n ∧ ∀ a ∈ l, P a
  | 0, offset, x, rest, l, h => by
      cases h
      exact ⟨rfl, by simp⟩
  | n + 1, offset, x, rest, l, h => by
      obtain ⟨a, mid, ha, hrest⟩ := andThen_done h
      obtain ⟨l', mid', hl', hdone⟩ := andThen_done hrest
      cases hdone
      obtain ⟨hlen, hall⟩ := times_done hd hl'
      refine ⟨by rw [List.length_cons, hlen], ?_⟩
      intro b hb
      rcases List.mem_cons.mp hb with rfl | hb
      · exact hd _ _ _ _ ha
      · exact hall b hb

/-- Every proper prefix of a code word needs more. -/
theorem more_of_begins {d : Decoder β ε α} (hd : Incremental d)
    {p q : List β} {a : α} (h : Encodes d (p ++ q) a) (hq : q ≠ []) :
    d p = .more := by
  have hself : d (p ++ q) = .done a [] := h.self
  cases hp : d p with
  | done b rest =>
      obtain ⟨c, rfl, hc⟩ := hd.done_local hp
      have := hc (rest ++ q)
      rw [← List.append_assoc, hself] at this
      injection this with _ hrest
      exact absurd (List.append_eq_nil_iff.mp hrest.symm).2 hq
  | more =>
      rfl
  | fail e =>
      rw [hd.fail_append hp q] at hself
      cases hself

end Incremental

section Along

variable {d : Nat → Decoder β ε α} {P Q : List β → Prop}

/-- Every input that a row of decodings looks at satisfies `P`. -/
def Along (d : Nat → Decoder β ε α) (P : List β → Prop) :
    Nat → Nat → List β → Prop
  | 0, _, _ => True
  | n + 1, offset, x =>
      P x ∧ ∀ a rest, d offset x = .done a rest →
        Along d P n (offset + (x.length - rest.length)) rest

/-- What holds of longer inputs holds along a shorter one. -/
theorem Along.of_append (hd : ∀ offset, Incremental (d offset))
    (hP : ∀ x y, P (x ++ y) → P x) {y : List β} :
    ∀ {n offset : Nat} {x : List β},
      Along d P n offset (x ++ y) → Along d P n offset x
  | 0, _, _, _ => trivial
  | n + 1, offset, x, h => by
      refine ⟨hP x y h.1, ?_⟩
      intro a rest hx
      obtain ⟨c, rfl, hc⟩ := (hd offset).done_local hx
      have hlonger : d offset (c ++ rest ++ y) = .done a (rest ++ y) := by
        rw [List.append_assoc]
        exact hc (rest ++ y)
      have hrest := h.2 a (rest ++ y) hlonger
      have hused : (c ++ rest ++ y).length - (rest ++ y).length =
          (c ++ rest).length - rest.length := by
        simp only [List.length_append]
        omega
      rw [hused] at hrest
      exact Along.of_append hd hP hrest

/-- Along a row that was decoded, `P` may use the value found at its place. -/
theorem Along.of_done {R : α → Prop}
    (hP : ∀ offset x a rest, d offset x = .done a rest → R a → P x →
      Q x) :
    ∀ {n offset : Nat} {x rest : List β} {l : List α},
      times d n offset x = .done l rest → (∀ a ∈ l, R a) →
      Along d P n offset x → Along d Q n offset x
  | 0, _, _, _, _, _, _, _ => trivial
  | n + 1, offset, x, rest, l, h, hR, hx => by
      obtain ⟨a, mid, ha, hrest⟩ := andThen_done h
      obtain ⟨l', mid', hl', hdone⟩ := andThen_done hrest
      cases hdone
      refine ⟨hP _ _ _ _ ha (hR a (by simp)) hx.1, ?_⟩
      intro b mid'' hb
      rw [ha] at hb
      cases hb
      exact Along.of_done hP hl'
        (fun b hb => hR b (List.mem_cons_of_mem _ hb)) (hx.2 a mid ha)

end Along

section Scan

/-- `Scans d offset x items tail`: decoding `x` again and again yields `items`
with their offsets, and stops at `tail`, which is empty or needs more. -/
inductive Scans (d : Nat → Decoder β ε α) :
    Nat → List β → List (Nat × α) → List β → Prop
  | nil (offset : Nat) : Scans d offset [] [] []
  | torn {offset : Nat} {x : List β} (hx : x ≠ [])
      (h : d offset x = .more) : Scans d offset x [] x
  | step {offset : Nat} {x rest tail : List β} {a : α}
      {items : List (Nat × α)} (hx : x ≠ [])
      (h : d offset x = .done a rest)
      (next : Scans d (offset + (x.length - rest.length)) rest items tail) :
      Scans d offset x ((offset, a) :: items) tail

/-- What every decoded value satisfies, every scanned one does. -/
theorem Scans.forall {d : Nat → Decoder β ε α} {P : α → Prop}
    (hd : ∀ offset x a rest, d offset x = .done a rest → P a)
    {offset : Nat} {x tail : List β} {items : List (Nat × α)}
    (h : Scans d offset x items tail) : ∀ item ∈ items, P item.2 := by
  induction h with
  | nil _ =>
      simp
  | torn _ _ =>
      simp
  | step _ h _ ih =>
      intro item hitem
      rcases List.mem_cons.mp hitem with rfl | hitem
      · exact hd _ _ _ _ h
      · exact ih item hitem

/-- Every success consumes something. -/
def Productive (d : Decoder β ε α) : Prop :=
  ∀ {x a rest}, d x = .done a rest → rest.length < x.length

theorem Productive.andThen {d : Decoder β ε α} {f : α → Nat → Decoder β ε γ}
    (hd : Productive d) (hf : ∀ a n, Incremental (f a n)) :
    Productive (d.andThen f) := by
  intro x b rest h
  unfold Decoder.andThen at h
  split at h
  · next a mid hx =>
      have hmid := hd hx
      obtain ⟨c, hc, -⟩ := (hf a _).done_local h
      rw [hc, List.length_append] at hmid
      omega
  · cases h
  · cases h

variable {d : Nat → Decoder β ε α}

/-- `Fails d offset x e`: decoding `x` again and again ends in a failure. -/
inductive Fails (d : Nat → Decoder β ε α) : Nat → List β → ε → Prop
  | here {offset : Nat} {x : List β} {e : ε} (hx : x ≠ [])
      (h : d offset x = .fail e) : Fails d offset x e
  | step {offset : Nat} {x rest : List β} {a : α} {e : ε} (hx : x ≠ [])
      (h : d offset x = .done a rest)
      (next : Fails d (offset + (x.length - rest.length)) rest e) :
      Fails d offset x e

/-- Decoding again and again ends, one way or the other. -/
theorem scans_or_fails (hp : ∀ offset, Productive (d offset)) :
    ∀ (n offset : Nat) (x : List β), x.length ≤ n →
      (∃ items tail, Scans d offset x items tail) ∨ ∃ e, Fails d offset x e
  | 0, offset, x, hn => by
      rw [List.eq_nil_of_length_eq_zero (Nat.le_zero.mp hn)]
      exact Or.inl ⟨[], [], Scans.nil offset⟩
  | n + 1, offset, x, hn => by
      by_cases hx : x = []
      · rw [hx]
        exact Or.inl ⟨[], [], Scans.nil offset⟩
      cases h : d offset x with
      | done a rest =>
          have hless := hp offset h
          rcases scans_or_fails hp n (offset + (x.length - rest.length)) rest
            (by omega) with ⟨items, tail, hs⟩ | ⟨e, he⟩
          · exact Or.inl ⟨_, _, Scans.step hx h hs⟩
          · exact Or.inr ⟨e, Fails.step hx h he⟩
      | more =>
          exact Or.inl ⟨[], x, Scans.torn hx h⟩
      | fail e =>
          exact Or.inr ⟨e, Fails.here hx h⟩

/-- A failure behind some code words is a failure of the whole. -/
theorem Fails.after {enc : α → List β} {l : List α}
    (henc : ∀ a ∈ l, ∀ offset, Encodes (d offset) (enc a) a)
    (hne : ∀ a ∈ l, enc a ≠ []) {offset : Nat} {y : List β} {e : ε}
    (h : Fails d (offset + (l.flatMap enc).length) y e) :
    Fails d offset (l.flatMap enc ++ y) e := by
  induction l generalizing offset with
  | nil =>
      simpa using h
  | cons a l ih =>
      rw [List.flatMap_cons, List.length_append, ← Nat.add_assoc] at h
      have hrest := ih (fun b hb => henc b (List.mem_cons_of_mem _ hb))
        (fun b hb => hne b (List.mem_cons_of_mem _ hb)) h
      rw [List.flatMap_cons, List.append_assoc]
      refine Fails.step ?_ (henc a (by simp) offset _) ?_
      · exact fun hnil => hne a (by simp) (List.append_eq_nil_iff.mp hnil).1
      · simpa using hrest

/-- What was scanned is a prefix of the input, and scanning it again with any
other continuation yields the same items first. -/
theorem Scans.split (hd : ∀ offset, Incremental (d offset))
    (hp : ∀ offset, Productive (d offset))
    {offset : Nat} {x tail : List β} {items : List (Nat × α)}
    (h : Scans d offset x items tail) :
    ∃ c, x = c ++ tail ∧
      ∀ {y : List β} {later : List (Nat × α)} {tail' : List β},
        Scans d (offset + c.length) y later tail' →
        Scans d offset (c ++ y) (items ++ later) tail' := by
  induction h with
  | nil offset =>
      exact ⟨[], rfl, fun hy => by simpa using hy⟩
  | torn hx h =>
      exact ⟨[], rfl, fun hy => by simpa using hy⟩
  | @step offset x rest tail a items hx h next ih =>
      have hprogress := hp offset h
      obtain ⟨c, rfl, hc⟩ := (hd offset).done_local h
      obtain ⟨c', rfl, hc'⟩ := ih
      have hused : (c ++ (c' ++ tail)).length - (c' ++ tail).length =
          c.length := by
        simp
      rw [hused] at hc'
      refine ⟨c ++ c', by simp, ?_⟩
      intro y later tail' hy
      rw [List.length_append, ← Nat.add_assoc] at hy
      have hne : c ++ (c' ++ y) ≠ [] := by
        have hpos : 0 < c.length := by
          simp only [List.length_append] at hprogress
          omega
        intro hnil
        rw [(List.append_eq_nil_iff.mp hnil).1] at hpos
        exact absurd hpos (by simp)
      rw [List.append_assoc, List.cons_append]
      refine Scans.step hne (hc (c' ++ y)) ?_
      have hused' : (c ++ (c' ++ y)).length - (c' ++ y).length =
          c.length := by
        simp
      rw [hused']
      exact hc' hy

/-- The input scanned determines items and tail. -/
theorem Scans.unique {offset : Nat} {x tail tail' : List β}
    {items items' : List (Nat × α)}
    (h : Scans d offset x items tail) (h' : Scans d offset x items' tail') :
    items = items' ∧ tail = tail' := by
  induction h generalizing items' tail' with
  | nil offset =>
      cases h' with
      | nil => exact ⟨rfl, rfl⟩
      | torn hx _ => exact absurd rfl hx
      | step hx _ _ => exact absurd rfl hx
  | torn hx h =>
      cases h' with
      | nil => exact absurd rfl hx
      | torn _ _ => exact ⟨rfl, rfl⟩
      | step _ h₂ _ =>
          rw [h] at h₂
          cases h₂
  | step hx h next ih =>
      cases h' with
      | nil => exact absurd rfl hx
      | torn _ h₂ =>
          rw [h] at h₂
          cases h₂
      | step _ h₂ next' =>
          rw [h] at h₂
          injection h₂ with ha hrest
          subst ha
          subst hrest
          obtain ⟨rfl, rfl⟩ := ih next'
          exact ⟨rfl, rfl⟩

/-- The values with the offsets their code words start at. -/
def located (enc : α → List β) : Nat → List α → List (Nat × α)
  | _, [] => []
  | offset, a :: l => (offset, a) :: located enc (offset + (enc a).length) l

@[simp] theorem located_map_snd (enc : α → List β) (offset : Nat)
    (l : List α) : (located enc offset l).map Prod.snd = l := by
  induction l generalizing offset with
  | nil =>
      rfl
  | cons a l ih =>
      simp [located, ih]

/-- The values whose code words lie wholly within the first `n` elements. -/
def wholly (enc : α → List β) : Nat → List α → List α
  | _, [] => []
  | n, a :: l =>
      if (enc a).length ≤ n then a :: wholly enc (n - (enc a).length) l
      else []

/-- The values wholly within a cut are the first ones of the list. -/
theorem wholly_prefix (enc : α → List β) (n : Nat) (l : List α) :
    wholly enc n l <+: l := by
  induction l generalizing n with
  | nil =>
      exact List.prefix_rfl
  | cons a l ih =>
      unfold wholly
      split_ifs
      · exact (List.prefix_cons_inj a).mpr (ih _)
      · exact List.nil_prefix

theorem wholly_map (enc : α → List β) (g : γ → α) (n : Nat) (l : List γ) :
    wholly enc n (l.map g) = (wholly (fun c => enc (g c)) n l).map g := by
  induction l generalizing n with
  | nil =>
      rfl
  | cons c l ih =>
      simp only [List.map_cons, wholly, ih]
      split_ifs <;> rfl

/-- A cut behind the last code word leaves all of them whole. -/
theorem wholly_eq_self (enc : α → List β) {n : Nat} {l : List α}
    (h : (l.flatMap enc).length ≤ n) : wholly enc n l = l := by
  induction l generalizing n with
  | nil =>
      rfl
  | cons a l ih =>
      rw [List.flatMap_cons, List.length_append] at h
      simp only [wholly, if_pos (show (enc a).length ≤ n by omega)]
      rw [ih (by omega)]

/-- The code words wholly within a cut are the beginning of the cut. -/
theorem wholly_flatMap_prefix (enc : α → List β) (n : Nat) (l : List α) :
    (wholly enc n l).flatMap enc <+: (l.flatMap enc).take n := by
  induction l generalizing n with
  | nil =>
      simp [wholly]
  | cons a l ih =>
      unfold wholly
      split_ifs with h
      · rw [List.flatMap_cons, List.flatMap_cons, List.take_append,
          List.take_of_length_le h]
        exact (List.prefix_append_right_inj _).mpr (ih _)
      · simp

/-- **Every cut is recoverable.** Scanning the first `n` elements of a
concatenation of code words yields exactly the values wholly within them and
leaves the remaining elements. -/
theorem scans_take {enc : α → List β}
    (hd : ∀ offset, Incremental (d offset)) {l : List α}
    (henc : ∀ a ∈ l, ∀ offset, Encodes (d offset) (enc a) a)
    (hne : ∀ a ∈ l, enc a ≠ []) :
    ∀ n offset,
      Scans d offset ((l.flatMap enc).take n)
        (located enc offset (wholly enc n l))
        (((l.flatMap enc).take n).drop
          ((wholly enc n l).flatMap enc).length) := by
  induction l with
  | nil =>
      intro n offset
      simpa [wholly, located] using Scans.nil (d := d) offset
  | cons a l ih =>
      intro n offset
      have iha := ih (fun b hb => henc b (List.mem_cons_of_mem _ hb))
        (fun b hb => hne b (List.mem_cons_of_mem _ hb))
      have ha := henc a (by simp)
      unfold wholly
      split_ifs with h
      · have hcut : ((a :: l).flatMap enc).take n =
            enc a ++ (l.flatMap enc).take (n - (enc a).length) := by
          rw [List.flatMap_cons, List.take_append, List.take_of_length_le h]
        rw [hcut]
        simp only [located, List.flatMap_cons, List.length_append,
          ← List.drop_drop, List.drop_left]
        refine Scans.step ?_ (ha offset _) ?_
        · exact fun hnil => hne a (by simp) (List.append_eq_nil_iff.mp hnil).1
        · simpa using iha (n - (enc a).length) (offset + (enc a).length)
      · have hcut : ((a :: l).flatMap enc).take n = (enc a).take n := by
          rw [List.flatMap_cons, List.take_append_of_le_length (by omega)]
        rw [hcut]
        simp only [located, List.flatMap_nil, List.length_nil, List.drop_zero]
        cases n with
        | zero =>
            exact Scans.nil offset
        | succ n =>
            have hsplit := ha offset
            rw [← List.take_append_drop (n + 1) (enc a)] at hsplit
            refine Scans.torn ?_ (more_of_begins (hd offset) hsplit ?_)
            · intro hnil
              have := congrArg List.length hnil
              rw [List.length_take] at this
              simp at this
              exact hne a (by simp) this
            · intro hnil
              have := congrArg List.length hnil
              rw [List.length_drop] at this
              simp at this
              omega

/-- A whole concatenation of code words is scanned without a tail. -/
theorem scans_all {enc : α → List β} {l : List α}
    (henc : ∀ a ∈ l, ∀ offset, Encodes (d offset) (enc a) a)
    (hne : ∀ a ∈ l, enc a ≠ []) (offset : Nat) :
    Scans d offset (l.flatMap enc) (located enc offset l) [] := by
  induction l generalizing offset with
  | nil =>
      exact Scans.nil offset
  | cons a l ih =>
      have iha := ih (fun b hb => henc b (List.mem_cons_of_mem _ hb))
        (fun b hb => hne b (List.mem_cons_of_mem _ hb))
      rw [List.flatMap_cons]
      refine Scans.step ?_ (henc a (by simp) offset _) ?_
      · exact fun hnil => hne a (by simp) (List.append_eq_nil_iff.mp hnil).1
      · simpa using iha (offset + (enc a).length)

end Scan

end Decoder
end Foundation
