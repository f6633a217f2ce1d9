import PyRedis.Foundation.Decoder

/-!
# Code words and their beginnings

The inputs that a decoder takes for one value, the beginnings of such inputs,
and how both compose: through sequencing, through repetition, and through the
scan of a whole input.  A scan that stops with a tail can go on to one more
value exactly when the tail begins a code word.
-/

namespace Foundation
namespace Decoder

universe u

variable {β ε α γ : Type u}

section Words

/-- The beginning of a code word, and not all of it. -/
def Begins (d : Decoder β ε α) (x : List β) : Prop :=
  ∃ q a, q ≠ [] ∧ Encodes d (x ++ q) a

theorem Begins.more {d : Decoder β ε α} (hd : Incremental d) {x : List β}
    (h : Begins d x) : d x = .more := by
  obtain ⟨q, a, hq, hword⟩ := h
  exact more_of_begins hd hword hq

/-- What is decoded to its end is a code word. -/
theorem encodes_of_done {d : Decoder β ε α} (hd : Incremental d)
    {x : List β} {a : α} (h : d x = .done a []) : Encodes d x a := by
  obtain ⟨c, hx, hc⟩ := hd.done_local h
  rw [List.append_nil] at hx
  rw [hx]
  exact hc

theorem encodes_done_iff {f : α → γ} {a : α} {x : List β} {b : γ} :
    Encodes (fun y => .done (f a) y : Decoder β ε γ) x b ↔
      x = [] ∧ b = f a := by
  constructor
  · intro h
    have hself := h.self
    injection hself with hb hx
    exact ⟨hx, hb.symm⟩
  · rintro ⟨rfl, rfl⟩ y
    rfl

theorem not_begins_done (f : α → γ) (a : α) (x : List β) :
    ¬ Begins (fun y => .done (f a) y : Decoder β ε γ) x := by
  rintro ⟨q, b, hq, hword⟩
  have hnil := (encodes_done_iff.mp hword).1
  exact hq (List.append_eq_nil_iff.mp hnil).2

theorem ofExcept_andThen_ok (a : α) (f : α → Nat → Decoder β ε γ) :
    (ofExcept (.ok a)).andThen f = f a 0 := by
  funext x
  simp [andThen, ofExcept]

/-- A code word behind a value already known. -/
theorem encodes_ofExcept_andThen_iff {r : Except ε α}
    {f : α → Nat → Decoder β ε γ} {x : List β} {b : γ} :
    Encodes ((ofExcept r).andThen f) x b ↔
      ∃ a, r = .ok a ∧ Encodes (f a 0) x b := by
  cases r with
  | ok a =>
      simp [ofExcept_andThen_ok]
  | error e =>
      constructor
      · intro h
        have hself := h.self
        cases hself
      · rintro ⟨a, ha, -⟩
        cases ha

theorem begins_ofExcept_andThen_iff {r : Except ε α}
    {f : α → Nat → Decoder β ε γ} {x : List β} :
    Begins ((ofExcept r).andThen f) x ↔
      ∃ a, r = .ok a ∧ Begins (f a 0) x := by
  unfold Begins
  simp only [encodes_ofExcept_andThen_iff]
  constructor
  · rintro ⟨q, b, hq, a, ha, hword⟩
    exact ⟨a, ha, q, b, hq, hword⟩
  · rintro ⟨a, ha, q, b, hq, hword⟩
    exact ⟨q, b, hq, a, ha, hword⟩

variable {d : Decoder β ε α} {f : α → Nat → Decoder β ε γ}

/-- A code word of a sequence is one of each. -/
theorem encodes_andThen_iff (hd : Incremental d)
    (hf : ∀ a n, Incremental (f a n)) {x : List β} {b : γ} :
    Encodes (d.andThen f) x b ↔
      ∃ c c' a, x = c ++ c' ∧ Encodes d c a ∧
        Encodes (f a c.length) c' b := by
  constructor
  · intro h
    obtain ⟨a, mid, ha, hb⟩ := andThen_done h.self
    obtain ⟨c, rfl, hc⟩ := hd.done_local ha
    have hused : (c ++ mid).length - mid.length = c.length := by
      simp
    rw [hused] at hb
    exact ⟨c, mid, a, rfl, hc, encodes_of_done (hf a c.length) hb⟩
  · rintro ⟨c, c', a, rfl, hc, hc'⟩
    exact encodes_andThen hc hc'

/-- The beginning of a sequence ends in its second part, or in its first. -/
theorem begins_andThen_iff (hd : Incremental d)
    (hf : ∀ a n, Incremental (f a n)) {x : List β} :
    Begins (d.andThen f) x ↔
      (∃ c c' a, x = c ++ c' ∧ Encodes d c a ∧
        Begins (f a c.length) c') ∨
      ∃ s c' a b, s ≠ [] ∧ Encodes d (x ++ s) a ∧
        Encodes (f a (x ++ s).length) c' b := by
  constructor
  · rintro ⟨q, b, hq, hword⟩
    obtain ⟨c, c', a, hx, hc, hc'⟩ := (encodes_andThen_iff hd hf).mp hword
    rcases List.append_eq_append_iff.mp hx with ⟨s, rfl, rfl⟩ | ⟨t, rfl, rfl⟩
    · by_cases hs : s = []
      · subst hs
        rw [List.append_nil] at hc hc'
        exact Or.inl ⟨x, [], a, by simp, hc, c', b, hq, hc'⟩
      · exact Or.inr ⟨s, c', a, b, hs, hc, hc'⟩
    · exact Or.inl ⟨c, t, a, rfl, hc, q, b, hq, hc'⟩
  · rintro (⟨c, c', a, rfl, hc, q, b, hq, hc'⟩ | ⟨s, c', a, b, hs, hc, hc'⟩)
    · refine ⟨q, b, hq, ?_⟩
      rw [List.append_assoc]
      exact encodes_andThen hc hc'
    · refine ⟨s ++ c', b, by simp [hs], ?_⟩
      rw [← List.append_assoc]
      exact encodes_andThen hc hc'

end Words

section Rows

variable {d : Nat → Decoder β ε α} {W T : List β → Prop}

/-- A row of values is written as a row of code words. -/
theorem encodes_times_iff (hd : ∀ offset, Incremental (d offset))
    (hW : ∀ offset c, W c ↔ ∃ a, Encodes (d offset) c a) {x : List β} :
    ∀ {n offset : Nat},
      (∃ l, Encodes (times d n offset) x l) ↔
        ∃ cs : List (List β), cs.length = n ∧ (∀ c ∈ cs, W c) ∧
          x = cs.flatten := by
  intro n
  induction n generalizing x with
  | zero =>
      intro offset
      constructor
      · rintro ⟨l, hl⟩
        exact ⟨[], rfl, by simp, (encodes_done_iff (f := id).mp hl).1⟩
      · rintro ⟨cs, hlen, -, rfl⟩
        rw [List.eq_nil_of_length_eq_zero hlen]
        exact ⟨[], fun y => rfl⟩
  | succ n ih =>
      intro offset
      have hrest : ∀ a used, Incremental
          ((times d n (offset + used)).andThen fun l _ =>
            fun x => .done (a :: l) x) :=
        fun a used => incremental_andThen (incremental_times hd n _)
          fun l _ => incremental_done (a :: ·) l
      constructor
      · rintro ⟨l, hl⟩
        obtain ⟨c, c', a, rfl, hc, hc'⟩ :=
          (encodes_andThen_iff (hd offset) hrest).mp hl
        obtain ⟨c'', e, l', rfl, hl', he⟩ :=
          (encodes_andThen_iff (incremental_times hd n _)
            fun l _ => incremental_done (a :: ·) l).mp hc'
        obtain ⟨rfl, -⟩ := encodes_done_iff.mp he
        obtain ⟨cs, rfl, hcs, rfl⟩ := ih.mp ⟨l', hl'⟩
        refine ⟨c :: cs, rfl, ?_, by simp⟩
        exact List.forall_mem_cons.mpr ⟨(hW offset c).mpr ⟨a, hc⟩, hcs⟩
      · rintro ⟨cs, hlen, hcs, rfl⟩
        obtain ⟨c, cs, rfl⟩ := List.exists_cons_of_length_eq_add_one hlen
        obtain ⟨hc, hcs⟩ := List.forall_mem_cons.mp hcs
        obtain ⟨a, ha⟩ := (hW offset c).mp hc
        have hrow : ∃ l, Encodes (times d n (offset + c.length))
            cs.flatten l :=
          ih.mpr ⟨cs, by simpa using hlen, hcs, rfl⟩
        obtain ⟨l, hl⟩ := hrow
        refine ⟨a :: l, encodes_andThen ha ?_⟩
        have hdone : Encodes (fun x => .done (a :: l) x : Decoder β ε (List α))
            [] (a :: l) := fun y => rfl
        have hword := encodes_andThen hl
          (f := fun l _ => fun x => .done (a :: l) x) hdone
        rwa [List.append_nil] at hword

/-- The beginning of a row is some code words and the beginning of one. -/
theorem begins_times_iff (hd : ∀ offset, Incremental (d offset))
    (hW : ∀ offset c, W c ↔ ∃ a, Encodes (d offset) c a)
    (hT : ∀ offset x, T x ↔ Begins (d offset) x) {x : List β} :
    ∀ {n offset : Nat},
      Begins (times d n offset) x ↔
        ∃ (cs : List (List β)) (r : List β), cs.length < n ∧
          (∀ c ∈ cs, W c) ∧ T r ∧ x = cs.flatten ++ r := by
  intro n
  induction n generalizing x with
  | zero =>
      intro offset
      constructor
      · intro h
        exact absurd h (not_begins_done id [] x)
      · rintro ⟨cs, r, hlen, -⟩
        exact absurd hlen (Nat.not_lt_zero _)
  | succ n ih =>
      intro offset
      have hlast : ∀ (a : α) (l : List α) (_ : Nat), Incremental
          (fun x => .done (a :: l) x : Decoder β ε (List α)) :=
        fun a l _ => incremental_done (a :: ·) l
      have hrest : ∀ a used, Incremental
          ((times d n (offset + used)).andThen fun l _ =>
            fun x => .done (a :: l) x) :=
        fun a used => incremental_andThen (incremental_times hd n _)
          (hlast a)
      refine (begins_andThen_iff (hd offset) hrest).trans ?_
      constructor
      · rintro (⟨c, c', a, rfl, hc, hbegins⟩ | ⟨s, c', a, b, hs, hc, -⟩)
        · rcases (begins_andThen_iff (incremental_times hd n _)
            (hlast a)).mp hbegins with
            ⟨-, e, l, -, -, he⟩ | ⟨s, e, l, b, hs, hl, -⟩
          · exact absurd he (not_begins_done (a :: ·) l e)
          · obtain ⟨cs, r, hlen, hcs, hr, rfl⟩ := ih.mp ⟨s, l, hs, hl⟩
            refine ⟨c :: cs, r, by simpa using hlen, ?_, hr, by simp⟩
            exact List.forall_mem_cons.mpr ⟨(hW offset c).mpr ⟨a, hc⟩, hcs⟩
        · exact ⟨[], x, n.succ_pos, by simp,
            (hT offset x).mpr ⟨s, a, hs, hc⟩, rfl⟩
      · rintro ⟨cs, r, hlen, hcs, hr, rfl⟩
        cases cs with
        | nil =>
            obtain ⟨q, a, hq, hword⟩ := (hT offset r).mp hr
            -- the rest of the row may repeat the word that is begun here
            have hcs' : ∀ c ∈ List.replicate n (r ++ q), W c := by
              intro c hc
              rw [List.eq_of_mem_replicate hc]
              exact (hW offset _).mpr ⟨a, hword⟩
            have hrow : ∃ l, Encodes (times d n (offset + (r ++ q).length))
                (List.replicate n (r ++ q)).flatten l :=
              (encodes_times_iff hd hW).mpr
                ⟨_, List.length_replicate, hcs', rfl⟩
            obtain ⟨l, hl⟩ := hrow
            refine Or.inr ⟨q, (List.replicate n (r ++ q)).flatten ++ [], a,
              a :: l, hq, hword, ?_⟩
            exact encodes_andThen hl fun y => rfl
        | cons c cs =>
            obtain ⟨hc, hcs⟩ := List.forall_mem_cons.mp hcs
            obtain ⟨a, ha⟩ := (hW offset c).mp hc
            have hbegins : Begins (times d n (offset + c.length))
                (cs.flatten ++ r) :=
              ih.mpr ⟨cs, r, by simpa using hlen, hcs, hr, rfl⟩
            obtain ⟨q, l, hq, hl⟩ := hbegins
            refine Or.inl ⟨c, cs.flatten ++ r, a, by simp, ha, ?_⟩
            exact (begins_andThen_iff (incremental_times hd n _)
              (hlast a)).mpr (Or.inr ⟨q, [], l, a :: l, hq, hl, fun y => rfl⟩)

end Rows

section Scans

variable {d : Nat → Decoder β ε α} {W T : List β → Prop}

/-- Code words are scanned one by one, whatever follows them. -/
theorem scans_words (hp : ∀ offset, Productive (d offset)) :
    ∀ (cs : List (List β)) (offset : Nat),
      (∀ c ∈ cs, ∀ offset, ∃ a, Encodes (d offset) c a) →
      ∃ first : List (Nat × α), ∀ {r tail : List β}
        {items : List (Nat × α)},
        Scans d (offset + cs.flatten.length) r items tail →
        Scans d offset (cs.flatten ++ r) (first ++ items) tail
  | [], offset, _ => ⟨[], fun h => by simpa using h⟩
  | c :: cs, offset, hcs => by
      obtain ⟨hc, hcs⟩ := List.forall_mem_cons.mp hcs
      obtain ⟨a, ha⟩ := hc offset
      obtain ⟨first, hfirst⟩ := scans_words hp cs (offset + c.length) hcs
      refine ⟨(offset, a) :: first, ?_⟩
      intro r tail items h
      rw [List.flatten_cons, List.length_append, ← Nat.add_assoc] at h
      rw [List.flatten_cons, List.append_assoc, List.cons_append]
      have hne : c ++ (cs.flatten ++ r) ≠ [] := by
        have hless := hp offset (ha (cs.flatten ++ r))
        intro hnil
        rw [hnil] at hless
        exact absurd hless (Nat.not_lt_zero _)
      refine Scans.step hne (ha _) ?_
      have hused : (c ++ (cs.flatten ++ r)).length -
          (cs.flatten ++ r).length = c.length := by
        simp
      rw [hused]
      exact hfirst h

/-- What has been scanned is a row of code words and the tail. -/
theorem Scans.words (hd : ∀ offset, Incremental (d offset)) {offset : Nat}
    {x tail : List β} {items : List (Nat × α)}
    (h : Scans d offset x items tail) :
    ∃ cs : List (List β), x = cs.flatten ++ tail ∧
      ∀ c ∈ cs, ∃ offset a, Encodes (d offset) c a := by
  induction h with
  | nil offset =>
      exact ⟨[], rfl, by simp⟩
  | torn hx h =>
      exact ⟨[], rfl, by simp⟩
  | @step offset x rest tail a items hx h next ih =>
      obtain ⟨c, rfl, hc⟩ := (hd offset).done_local h
      obtain ⟨cs, rfl, hcs⟩ := ih
      refine ⟨c :: cs, by simp, ?_⟩
      exact List.forall_mem_cons.mpr ⟨⟨offset, a, hc⟩, hcs⟩

/-- A scan that finds something begins with it. -/
theorem Scans.cons {offset : Nat} {x tail : List β} {item : Nat × α}
    {items : List (Nat × α)} (h : Scans d offset x (item :: items) tail) :
    ∃ rest, d offset x = .done item.2 rest ∧
      Scans d (offset + (x.length - rest.length)) rest items tail := by
  generalize hall : item :: items = all at h
  cases h with
  | nil =>
      cases hall
  | torn hx h =>
      cases hall
  | step hx h next =>
      cases hall
      exact ⟨_, h, next⟩

/-- A scan that finds nothing leaves everything. -/
theorem Scans.eq_tail {offset : Nat} {x tail : List β}
    (h : Scans d offset x [] tail) : x = tail := by
  generalize hnone : ([] : List (Nat × α)) = items at h
  cases h with
  | nil =>
      rfl
  | torn hx h =>
      rfl
  | step hx h next =>
      cases hnone

/-- A scan of more input that finds the same and more goes on at the tail. -/
theorem Scans.resume (hd : ∀ offset, Incremental (d offset)) {offset : Nat}
    {x s tail tail' : List β} {items later : List (Nat × α)}
    (h : Scans d offset x items tail)
    (h' : Scans d offset (x ++ s) (items ++ later) tail') :
    ∃ offset', Scans d offset' (tail ++ s) later tail' := by
  induction h with
  | nil offset =>
      exact ⟨offset, h'⟩
  | torn hx h =>
      exact ⟨_, h'⟩
  | @step offset x rest tail a items hx h next ih =>
      obtain ⟨c, rfl, hc⟩ := (hd offset).done_local h
      have hdone : d offset (c ++ rest ++ s) = .done a (rest ++ s) := by
        rw [List.append_assoc]
        exact hc (rest ++ s)
      rw [List.cons_append] at h'
      obtain ⟨rest', h'', next'⟩ := h'.cons
      rw [hdone] at h''
      cases h''
      have hused : (c ++ rest ++ s).length - (rest ++ s).length =
          (c ++ rest).length - rest.length := by
        simp only [List.length_append]
        omega
      rw [hused] at next'
      exact ih next'

/-- **When a scan can be completed.** Input that was scanned up to a tail can
be continued to give one more value and no tail if and only if it is a row of
code words and the beginning of one. -/
theorem Scans.completed_iff (hd : ∀ offset, Incremental (d offset))
    (hp : ∀ offset, Productive (d offset))
    (hW : ∀ offset c, W c ↔ ∃ a, Encodes (d offset) c a)
    (hT : ∀ offset x, T x ↔ Begins (d offset) x) {offset : Nat}
    {x tail : List β} {items : List (Nat × α)}
    (h : Scans d offset x items tail) (htail : tail ≠ []) :
    (∃ s item, Scans d offset (x ++ s) (items ++ [item]) []) ↔
      ∃ (cs : List (List β)) (r : List β), (∀ c ∈ cs, W c) ∧ T r ∧
        x = cs.flatten ++ r := by
  constructor
  · rintro ⟨s, item, h'⟩
    have hs : s ≠ [] := by
      rintro rfl
      rw [List.append_nil] at h'
      exact htail (h.unique h').2
    obtain ⟨cs, hx, hcs⟩ := h.words hd
    obtain ⟨o, hlast⟩ := h.resume hd h'
    refine ⟨cs, tail, fun c hc => ?_, ?_, hx⟩
    · obtain ⟨o, a, ha⟩ := hcs c hc
      exact (hW o c).mpr ⟨a, ha⟩
    · obtain ⟨rest, hdone, hend⟩ := hlast.cons
      rw [hend.eq_tail] at hdone
      exact (hT o tail).mpr ⟨s, _, hs, encodes_of_done (hd o) hdone⟩
  · rintro ⟨cs, r, hcs, hr, rfl⟩
    obtain ⟨first, hfirst⟩ := scans_words hp cs offset
      fun c hc o => (hW o c).mp (hcs c hc)
    have hne : r ≠ [] := by
      rintro rfl
      exact htail (h.unique (hfirst (Scans.nil _))).2
    have hbegins := (hT (offset + cs.flatten.length) r).mp hr
    obtain ⟨rfl, rfl⟩ := h.unique
      (hfirst (Scans.torn hne (hbegins.more (hd _))))
    obtain ⟨q, a, hq, hword⟩ := hbegins
    refine ⟨q, (offset + cs.flatten.length, a), ?_⟩
    rw [List.append_assoc, List.append_nil]
    refine hfirst (Scans.step (by simp [hne]) hword.self ?_)
    exact Scans.nil _

end Scans

end Decoder
end Foundation
