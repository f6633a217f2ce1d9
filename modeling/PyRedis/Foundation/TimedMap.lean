import Mathlib.Order.Basic
import Mathlib.Tactic

/-!
# Maps whose entries die, and logs of facts about them

An entry carries an optional deadline and is alive at `t` when it has none or
when the deadline lies after `t`.  A map may keep entries that are already
dead.  What an observer at time `t` sees is the live part of the map, and two
maps agree at `t` when their live parts are equal.

A log records facts: each says what a key now holds, or until when, or that
keys are gone.  A fact acts on each key separately.  The last section shows
which facts keep the agreement of two maps: those that say everything about
their keys always do, and those that only amend an entry do when the entry was
seen alive.
-/

namespace Foundation

universe u v w

/-- A value with the time at which it ceases to exist, if there is one. -/
structure Timed (ν : Type v) (τ : Type w) where
  value : ν
  deadline : Option τ
deriving DecidableEq

/-- Everything stored under each key, dead entries included. -/
abbrev TimedMap (κ : Type u) (ν : Type v) (τ : Type w) :=
  κ → Option (Timed ν τ)

variable {κ : Type u} {ν : Type v} {τ : Type w}

/-- One line of a log. -/
inductive Fact (κ : Type u) (ν : Type v) (τ : Type w) where
  | put (k : κ) (v : ν) (deadline : Option τ)
  | expireAt (k : κ) (deadline : τ)
  | persist (k : κ)
  | drop (ks : List κ)
  | dropAll
deriving DecidableEq

namespace Fact

variable [DecidableEq κ]

/-- What a fact makes of the entry of one key. -/
def actOn : Fact κ ν τ → κ → Option (Timed ν τ) → Option (Timed ν τ)
  | put k v d, j, o => if j = k then some ⟨v, d⟩ else o
  | expireAt k d, j, o =>
      if j = k then o.map (fun e => ⟨e.value, some d⟩) else o
  | persist k, j, o =>
      if j = k then o.map (fun e => ⟨e.value, none⟩) else o
  | drop ks, j, o => if j ∈ ks then none else o
  | dropAll, _, _ => none

/-- A fact applied to a whole map. -/
def apply (f : Fact κ ν τ) (m : TimedMap κ ν τ) : TimedMap κ ν τ :=
  fun j => f.actOn j (m j)

end Fact

section Replay

variable [DecidableEq κ]

/-- Facts applied one after the other. -/
def replay (fs : List (Fact κ ν τ)) (m : TimedMap κ ν τ) :
    TimedMap κ ν τ :=
  fs.foldl (fun m f => f.apply m) m

@[simp] theorem replay_nil (m : TimedMap κ ν τ) : replay [] m = m := by
  rfl

@[simp] theorem replay_cons (f : Fact κ ν τ) (fs : List (Fact κ ν τ))
    (m : TimedMap κ ν τ) :
    replay (f :: fs) m = replay fs (f.apply m) := by
  rfl

theorem replay_append (fs gs : List (Fact κ ν τ)) (m : TimedMap κ ν τ) :
    replay (fs ++ gs) m = replay gs (replay fs m) := by
  simp [replay]

/-- What becomes of a key depends on the entry of that key only. -/
theorem replay_congr (fs : List (Fact κ ν τ)) {m r : TimedMap κ ν τ} {k : κ}
    (h : m k = r k) : replay fs m k = replay fs r k := by
  induction fs generalizing m r with
  | nil =>
      exact h
  | cons f fs ih =>
      exact ih (congrArg (f.actOn k) h)

/-- The fact leaves nothing of what was known about the key. -/
def Fact.Overrides (f : Fact κ ν τ) (k : κ) : Prop :=
  ∀ o o', f.actOn k o = f.actOn k o'

/-- After the last fact that overrides a key, nothing depends on the map that
the facts are applied to. -/
theorem replay_eq_of_overrides {fs : List (Fact κ ν τ)} {k : κ}
    (h : ∃ f ∈ fs, f.Overrides k) (m r : TimedMap κ ν τ) :
    replay fs m k = replay fs r k := by
  obtain ⟨f, hf, hover⟩ := h
  obtain ⟨before, after, rfl⟩ := List.append_of_mem hf
  simp only [replay_append, replay_cons]
  exact replay_congr after (hover _ _)

/-- Dropping keys one by one is dropping them together. -/
theorem replay_drops (ks : List κ) (m : TimedMap κ ν τ) :
    replay (ks.map (fun k => Fact.drop [k])) m = (Fact.drop ks).apply m := by
  induction ks generalizing m with
  | nil =>
      funext j
      simp [Fact.apply, Fact.actOn]
  | cons k ks ih =>
      rw [List.map_cons, replay_cons, ih]
      funext j
      by_cases hk : j = k
      · simp [Fact.apply, Fact.actOn, hk]
      · simp [Fact.apply, Fact.actOn, hk]

end Replay

section Live

variable [LinearOrder τ]

/-- An entry is alive strictly before its deadline. -/
def Timed.AliveAt (t : τ) (e : Timed ν τ) : Prop :=
  ∀ d, e.deadline = some d → t < d

instance (t : τ) (e : Timed ν τ) : Decidable (e.AliveAt t) :=
  match h : e.deadline with
  | none => isTrue (by simp [Timed.AliveAt, h])
  | some d => decidable_of_iff (t < d) (by simp [Timed.AliveAt, h])

theorem Timed.AliveAt.mono {t u : τ} {e : Timed ν τ}
    (h : e.AliveAt u) (htu : t ≤ u) : e.AliveAt t :=
  fun d hd => lt_of_le_of_lt htu (h d hd)

/-- The part of an entry an observer at `t` sees. -/
def liveEntry (t : τ) (o : Option (Timed ν τ)) : Option (Timed ν τ) :=
  o.filter (fun e => e.AliveAt t)

/-- The part of a map an observer at `t` sees. -/
def live (t : τ) (m : TimedMap κ ν τ) : TimedMap κ ν τ :=
  fun k => liveEntry t (m k)

@[simp] theorem liveEntry_none (t : τ) :
    liveEntry t (none : Option (Timed ν τ)) = none := by
  rfl

theorem liveEntry_eq_some_iff {t : τ} {o : Option (Timed ν τ)}
    {e : Timed ν τ} :
    liveEntry t o = some e ↔ o = some e ∧ e.AliveAt t := by
  simp [liveEntry, Option.filter_eq_some_iff]

theorem liveEntry_of_alive {t : τ} {e : Timed ν τ} (h : e.AliveAt t) :
    liveEntry t (some e) = some e :=
  liveEntry_eq_some_iff.mpr ⟨rfl, h⟩

theorem liveEntry_of_dead {t : τ} {e : Timed ν τ} (h : ¬ e.AliveAt t) :
    liveEntry t (some e) = none := by
  simp [liveEntry, Option.filter, h]

/-- Looking twice shows nothing new. -/
theorem liveEntry_idem {t u : τ} (htu : t ≤ u) (o : Option (Timed ν τ)) :
    liveEntry u (liveEntry t o) = liveEntry u o := by
  cases o with
  | none =>
      rfl
  | some e =>
      by_cases ht : e.AliveAt t
      · rw [liveEntry_of_alive ht]
      · have hu : ¬ e.AliveAt u := fun h => ht (h.mono htu)
        rw [liveEntry_of_dead ht, liveEntry_of_dead hu]
        rfl

/-- The same live part at `t`. -/
def AgreeAt (t : τ) (m r : TimedMap κ ν τ) : Prop :=
  live t m = live t r

theorem agreeAt_iff {t : τ} {m r : TimedMap κ ν τ} :
    AgreeAt t m r ↔ ∀ k, liveEntry t (m k) = liveEntry t (r k) := by
  constructor
  · intro h k
    exact congrFun h k
  · intro h
    exact funext h

theorem AgreeAt.refl (t : τ) (m : TimedMap κ ν τ) : AgreeAt t m m :=
  rfl

theorem AgreeAt.symm {t : τ} {m r : TimedMap κ ν τ}
    (h : AgreeAt t m r) : AgreeAt t r m :=
  Eq.symm h

theorem AgreeAt.trans {t : τ} {m r q : TimedMap κ ν τ}
    (h : AgreeAt t m r) (h' : AgreeAt t r q) : AgreeAt t m q :=
  Eq.trans h h'

/-- An entry both maps show alive at `t₀` is the same entry in both. -/
theorem AgreeAt.eq_of_alive {t₀ : τ} {m r : TimedMap κ ν τ}
    (h₀ : AgreeAt t₀ m r)
    {k : κ} {e : Timed ν τ} (hk : m k = some e) (he : e.AliveAt t₀) :
    r k = some e := by
  have hsame := agreeAt_iff.mp h₀ k
  rw [hk, liveEntry_of_alive he] at hsame
  exact (liveEntry_eq_some_iff.mp hsame.symm).1

/-- `r` is `m` with some entries removed that are dead at `t`. -/
def Collected (t : τ) (r m : TimedMap κ ν τ) : Prop :=
  ∀ k, r k = m k ∨ (r k = none ∧ ∀ e, m k = some e → ¬ e.AliveAt t)

/-- Removing what is dead by `t` cannot be seen at `t`. -/
theorem Collected.agreeAt {t : τ} {r m : TimedMap κ ν τ}
    (h : Collected t r m) : AgreeAt t r m := by
  rw [agreeAt_iff]
  intro k
  rcases h k with hk | ⟨hnone, hdead⟩
  · rw [hk]
  · rw [hnone]
    cases hm : m k with
    | none =>
        rfl
    | some e =>
        rw [liveEntry_of_dead (hdead e hm)]
        rfl

theorem Collected.refl (t : τ) (m : TimedMap κ ν τ) : Collected t m m :=
  fun _ => Or.inl rfl

theorem Collected.eq_of_some {t : τ} {r m : TimedMap κ ν τ}
    (h : Collected t r m) {k : κ} {e : Timed ν τ} (hk : r k = some e) :
    m k = some e := by
  rcases h k with heq | ⟨hnone, -⟩
  · rwa [heq] at hk
  · rw [hnone] at hk
    cases hk

theorem Collected.trans {t : τ} {q r m : TimedMap κ ν τ}
    (h : Collected t q r) (h' : Collected t r m) : Collected t q m := by
  intro k
  rcases h k with hqr | ⟨hnone, hdead⟩
  · rcases h' k with hrm | ⟨hnone', hdead'⟩
    · exact Or.inl (hqr.trans hrm)
    · exact Or.inr ⟨hqr.trans hnone', hdead'⟩
  · rcases h' k with hrm | ⟨-, hdead'⟩
    · exact Or.inr ⟨hnone, fun e he => hdead e (hrm.trans he)⟩
    · exact Or.inr ⟨hnone, hdead'⟩

theorem collected_live {t u : τ} (htu : t ≤ u) (m : TimedMap κ ν τ) :
    Collected u (live t m) m := by
  intro k
  cases hk : m k with
  | none =>
      left
      simp [live, hk]
  | some e =>
      by_cases he : e.AliveAt t
      · left
        simp only [live, hk, liveEntry_of_alive he]
      · right
        refine ⟨by simp only [live, hk, liveEntry_of_dead he], ?_⟩
        intro e' he' halive
        cases he'
        exact he (halive.mono htu)

end Live

section Agreement

variable [DecidableEq κ] [LinearOrder τ]
variable {t : τ} {m r : TimedMap κ ν τ}

/-- A fact that says everything about its key keeps every agreement. -/
theorem AgreeAt.put (h : AgreeAt t m r) (k : κ) (v : ν) (d : Option τ) :
    AgreeAt t ((Fact.put k v d).apply m) ((Fact.put k v d).apply r) := by
  rw [agreeAt_iff] at h ⊢
  intro j
  by_cases hj : j = k
  · simp [Fact.apply, Fact.actOn, hj]
  · simpa [Fact.apply, Fact.actOn, hj] using h j

theorem AgreeAt.drop (h : AgreeAt t m r) (ks : List κ) :
    AgreeAt t ((Fact.drop ks).apply m) ((Fact.drop ks).apply r) := by
  rw [agreeAt_iff] at h ⊢
  intro j
  by_cases hj : j ∈ ks
  · simp [Fact.apply, Fact.actOn, hj]
  · simpa [Fact.apply, Fact.actOn, hj] using h j

theorem AgreeAt.dropAll :
    AgreeAt t ((Fact.dropAll : Fact κ ν τ).apply m)
      ((Fact.dropAll : Fact κ ν τ).apply r) := by
  rfl

/-- A new deadline keeps agreement when its entry was seen alive. -/
theorem AgreeAt.expireAt {t₀ : τ} (h : AgreeAt t m r)
    (h₀ : AgreeAt t₀ m r) {k : κ} {e : Timed ν τ}
    (hk : m k = some e) (he : e.AliveAt t₀) (d : τ) :
    AgreeAt t ((Fact.expireAt k d).apply m)
      ((Fact.expireAt k d).apply r) := by
  have hr := h₀.eq_of_alive hk he
  rw [agreeAt_iff] at h ⊢
  intro j
  by_cases hj : j = k
  · subst hj
    simp [Fact.apply, hk, hr]
  · simpa [Fact.apply, Fact.actOn, hj] using h j

/-- Clearing a deadline keeps agreement when its entry was seen alive. -/
theorem AgreeAt.persist {t₀ : τ} (h : AgreeAt t m r)
    (h₀ : AgreeAt t₀ m r) {k : κ} {e : Timed ν τ}
    (hk : m k = some e) (he : e.AliveAt t₀) :
    AgreeAt t ((Fact.persist k).apply m) ((Fact.persist k).apply r) := by
  have hr := h₀.eq_of_alive hk he
  rw [agreeAt_iff] at h ⊢
  intro j
  by_cases hj : j = k
  · subst hj
    simp [Fact.apply, hk, hr]
  · simpa [Fact.apply, Fact.actOn, hj] using h j

end Agreement

section Collection

variable [DecidableEq κ] [LinearOrder τ]
variable {t u : τ} {m : TimedMap κ ν τ}

/-- A map from which one key is removed if it is dead. -/
def collect (t : τ) (k : κ) (m : TimedMap κ ν τ) : TimedMap κ ν τ :=
  fun j => if j = k then liveEntry t (m j) else m j

theorem collected_collect (htu : t ≤ u) (k : κ) (m : TimedMap κ ν τ) :
    Collected u (collect t k m) m := by
  intro j
  by_cases hj : j = k
  · have hlive := collected_live htu m j
    simpa [collect, hj, live] using hlive
  · left
    simp [collect, hj]

/-- Dropping keys that are dead is a collection. -/
theorem collected_drop (htu : t ≤ u) {ks : List κ}
    (hdead : ∀ k ∈ ks, ∀ e, m k = some e → ¬ e.AliveAt t) :
    Collected u ((Fact.drop ks).apply m) m := by
  intro k
  by_cases hk : k ∈ ks
  · right
    refine ⟨by simp [Fact.apply, Fact.actOn, hk], ?_⟩
    exact fun e he halive => hdead k hk e he (halive.mono htu)
  · left
    simp [Fact.apply, Fact.actOn, hk]

end Collection

section Grounded

variable [LinearOrder τ]

/-- A fact that amends an entry is about an entry alive at `t`. -/
def Fact.Grounded (t : τ) (m : TimedMap κ ν τ) : Fact κ ν τ → Prop
  | .expireAt k _ => ∃ e, m k = some e ∧ e.AliveAt t
  | .persist k => ∃ e, m k = some e ∧ e.AliveAt t
  | _ => True

theorem Fact.Grounded.of_collected {t u : τ} {r m : TimedMap κ ν τ}
    {f : Fact κ ν τ} (h : Collected u r m) (hf : f.Grounded t r) :
    f.Grounded t m := by
  cases f with
  | put k v d =>
      trivial
  | expireAt k d =>
      obtain ⟨e, hk, he⟩ := hf
      exact ⟨e, h.eq_of_some hk, he⟩
  | persist k =>
      obtain ⟨e, hk, he⟩ := hf
      exact ⟨e, h.eq_of_some hk, he⟩
  | drop ks =>
      trivial
  | dropAll =>
      trivial

variable [DecidableEq κ]

/-- Every fact is grounded in what the facts before it made of the map. -/
def GroundedLog (t : τ) : TimedMap κ ν τ → List (Fact κ ν τ) → Prop
  | _, [] => True
  | m, f :: fs => f.Grounded t m ∧ GroundedLog t (f.apply m) fs

/-- One grounded fact keeps the agreement of two maps. -/
theorem AgreeAt.apply {t u : τ} {m r : TimedMap κ ν τ}
    {f : Fact κ ν τ} (h : AgreeAt u m r) (ht : AgreeAt t m r)
    (hf : f.Grounded t m) : AgreeAt u (f.apply m) (f.apply r) := by
  cases f with
  | put k v d =>
      exact h.put k v d
  | expireAt k d =>
      obtain ⟨e, hk, he⟩ := hf
      exact h.expireAt ht hk he d
  | persist k =>
      obtain ⟨e, hk, he⟩ := hf
      exact h.persist ht hk he
  | drop ks =>
      exact h.drop ks
  | dropAll =>
      exact AgreeAt.dropAll

/-- Grounded facts keep the agreement of two maps. -/
theorem AgreeAt.replay {t u : τ} {fs : List (Fact κ ν τ)}
    {m r : TimedMap κ ν τ} (h : AgreeAt u m r) (ht : AgreeAt t m r)
    (hfs : GroundedLog t m fs) :
    AgreeAt u (replay fs m) (replay fs r) := by
  induction fs generalizing m r with
  | nil =>
      exact h
  | cons f fs ih =>
      exact ih (h.apply ht hfs.1) (ht.apply ht hfs.1) hfs.2

/-- A fact grounded in what is left after a collection commutes with it. -/
theorem Collected.apply {t u : τ} {r m : TimedMap κ ν τ}
    {f : Fact κ ν τ} (h : Collected u r m) (hf : f.Grounded t r) :
    Collected u (f.apply r) (f.apply m) := by
  intro j
  rcases h j with heq | ⟨hnone, hdead⟩
  · left
    simp [Fact.apply, heq]
  · cases f with
    | put k v d =>
        by_cases hj : j = k
        · left
          simp [Fact.apply, Fact.actOn, hj]
        · right
          simpa [Fact.apply, Fact.actOn, hj] using ⟨hnone, hdead⟩
    | expireAt k d =>
        obtain ⟨e, hk, -⟩ := hf
        have hj : j ≠ k := by
          rintro rfl
          rw [hnone] at hk
          cases hk
        right
        simpa [Fact.apply, Fact.actOn, hj] using ⟨hnone, hdead⟩
    | persist k =>
        obtain ⟨e, hk, -⟩ := hf
        have hj : j ≠ k := by
          rintro rfl
          rw [hnone] at hk
          cases hk
        right
        simpa [Fact.apply, Fact.actOn, hj] using ⟨hnone, hdead⟩
    | drop ks =>
        by_cases hj : j ∈ ks
        · left
          simp [Fact.apply, Fact.actOn, hj]
        · right
          simpa [Fact.apply, Fact.actOn, hj] using ⟨hnone, hdead⟩
    | dropAll =>
        left
        rfl

theorem GroundedLog.of_collected {t u : τ} {fs : List (Fact κ ν τ)}
    {r m : TimedMap κ ν τ} (h : Collected u r m)
    (hfs : GroundedLog t r fs) : GroundedLog t m fs := by
  induction fs generalizing r m with
  | nil =>
      trivial
  | cons f fs ih =>
      exact ⟨hfs.1.of_collected h, ih (h.apply hfs.1) hfs.2⟩

theorem Collected.replay {t u : τ} {fs : List (Fact κ ν τ)}
    {r m : TimedMap κ ν τ} (h : Collected u r m)
    (hfs : GroundedLog t r fs) :
    Collected u (replay fs r) (replay fs m) := by
  induction fs generalizing r m with
  | nil =>
      exact h
  | cons f fs ih =>
      exact ih (h.apply hfs.1) hfs.2

theorem GroundedLog.take {t : τ} {fs : List (Fact κ ν τ)}
    {m : TimedMap κ ν τ} (h : GroundedLog t m fs) (n : Nat) :
    GroundedLog t m (fs.take n) := by
  induction fs generalizing m n with
  | nil =>
      simpa using h
  | cons f fs ih =>
      cases n with
      | zero =>
          trivial
      | succ n =>
          exact ⟨h.1, ih h.2 n⟩

/-- Facts that say everything about their keys need no ground. -/
theorem groundedLog_of_forall {t : τ} {fs : List (Fact κ ν τ)}
    (h : ∀ f ∈ fs, ∀ m : TimedMap κ ν τ, f.Grounded t m)
    (m : TimedMap κ ν τ) : GroundedLog t m fs := by
  induction fs generalizing m with
  | nil =>
      trivial
  | cons f fs ih =>
      exact ⟨h f (by simp) m,
        ih (fun g hg => h g (List.mem_cons_of_mem _ hg)) _⟩

end Grounded

end Foundation
