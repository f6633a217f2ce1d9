import Mathlib.Data.List.Nodup
import Mathlib.Algebra.BigOperators.Group.List.Basic
import Mathlib.Tactic

/-!
# Insertion-ordered dictionaries

A finite map kept as the list of its entries in insertion order.  Assigning to
a present key overwrites it where it stands, assigning to a new key appends it,
and erasing a key closes the gap.  That no key occurs twice is a field of the
structure, so every lookup law below holds without a side condition.

The file also develops the weight of a dictionary (the sum of a function over
its entries), which is what an incrementally maintained size is compared with.
-/

namespace Foundation

universe u v w

/-- A dictionary that remembers the order in which its keys came in. -/
structure OrderedDict (κ : Type u) (ν : Type v) where
  entries : List (κ × ν)
  nodup : (entries.map Prod.fst).Nodup

namespace OrderedDict

variable {κ : Type u} {ν : Type v}

@[ext] theorem ext
    {d e : OrderedDict κ ν}
    (h : d.entries = e.entries) :
    d = e := by
  cases d
  cases e
  cases h
  rfl

/-- The dictionary without entries. -/
def empty : OrderedDict κ ν :=
  ⟨[], List.nodup_nil⟩

/-- The keys, oldest first. -/
def keys (d : OrderedDict κ ν) : List κ :=
  d.entries.map Prod.fst

/-- The number of entries. -/
def size (d : OrderedDict κ ν) : Nat :=
  d.entries.length

theorem keys_nodup (d : OrderedDict κ ν) : d.keys.Nodup :=
  d.nodup

@[simp] theorem keys_empty : (empty : OrderedDict κ ν).keys = [] := by
  rfl

@[simp] theorem length_keys (d : OrderedDict κ ν) :
    d.keys.length = d.size := by
  simp [keys, size]

instance : Membership κ (OrderedDict κ ν) :=
  ⟨fun d k => k ∈ d.keys⟩

theorem mem_iff_mem_keys {d : OrderedDict κ ν} {k : κ} :
    k ∈ d ↔ k ∈ d.keys :=
  Iff.rfl

@[simp] theorem not_mem_empty (k : κ) :
    k ∉ (empty : OrderedDict κ ν) := by
  simp [mem_iff_mem_keys]

/-- A dictionary in which no key is found is the empty one. -/
theorem eq_empty_of_not_mem {d : OrderedDict κ ν} (h : ∀ k, k ∉ d) :
    d = empty := by
  have hnil : d.entries = [] := by
    apply List.eq_nil_iff_forall_not_mem.mpr
    intro e he
    exact h e.1 (List.mem_map_of_mem he)
  exact OrderedDict.ext hnil

/-- Dictionaries with the same keys are of the same size. -/
theorem size_eq_of_mem_iff {μ : Type w} {d : OrderedDict κ ν}
    {e : OrderedDict κ μ} (h : ∀ k, k ∈ d ↔ k ∈ e) : d.size = e.size := by
  rw [← length_keys, ← length_keys]
  exact ((List.perm_ext_iff_of_nodup d.keys_nodup e.keys_nodup).mpr
    h).length_eq

theorem retain_nodup (p : ν → Bool) {l : List (κ × ν)}
    (h : (l.map Prod.fst).Nodup) :
    ((l.filter (fun e => p e.2)).map Prod.fst).Nodup :=
  h.sublist (List.filter_sublist.map Prod.fst)

/-- The entries whose values pass a test. -/
def retain (d : OrderedDict κ ν) (p : ν → Bool) : OrderedDict κ ν :=
  ⟨d.entries.filter (fun e => p e.2), retain_nodup p d.nodup⟩

/-- Every value changed where it stands. -/
def mapValues {μ : Type w} (g : ν → μ) (d : OrderedDict κ ν) :
    OrderedDict κ μ :=
  ⟨d.entries.map (fun e => (e.1, g e.2)), by
    rw [List.map_map]
    exact d.nodup⟩

/-- The sum of a function over all entries. -/
def weight (f : κ → ν → Int) (d : OrderedDict κ ν) : Int :=
  (d.entries.map (fun e => f e.1 e.2)).sum

@[simp] theorem weight_empty (f : κ → ν → Int) :
    (empty : OrderedDict κ ν).weight f = 0 := by
  rfl

theorem weight_nonneg {f : κ → ν → Int} (hf : ∀ k v, 0 ≤ f k v)
    (d : OrderedDict κ ν) : 0 ≤ d.weight f := by
  apply List.sum_nonneg
  intro x hx
  obtain ⟨e, -, rfl⟩ := List.mem_map.mp hx
  exact hf e.1 e.2

theorem weight_mapValues {μ : Type w} (f : κ → μ → Int) (g : ν → μ)
    (d : OrderedDict κ ν) :
    (d.mapValues g).weight f = d.weight fun k v => f k (g v) := by
  simp only [weight, mapValues, List.map_map]
  rfl

variable [DecidableEq κ]

instance (k : κ) (d : OrderedDict κ ν) : Decidable (k ∈ d) :=
  inferInstanceAs (Decidable (k ∈ d.keys))

section Entries

/-- First value stored under a key in a list of entries. -/
def lookupIn (k : κ) : List (κ × ν) → Option ν
  | [] => none
  | e :: l => if e.1 = k then some e.2 else lookupIn k l

/-- Overwrite the first entry of a key, or append a new one. -/
def setIn (k : κ) (v : ν) : List (κ × ν) → List (κ × ν)
  | [] => [(k, v)]
  | e :: l => if e.1 = k then (k, v) :: l else e :: setIn k v l

theorem lookupIn_isSome_iff (k : κ) (l : List (κ × ν)) :
    (lookupIn k l).isSome ↔ k ∈ l.map Prod.fst := by
  induction l with
  | nil =>
      simp [lookupIn]
  | cons e l ih =>
      by_cases h : e.1 = k
      · simp [lookupIn, h]
      · simp [lookupIn, h, ih, Ne.symm h]

theorem lookupIn_setIn (k j : κ) (v : ν) (l : List (κ × ν)) :
    lookupIn j (setIn k v l) = if j = k then some v else lookupIn j l := by
  induction l with
  | nil =>
      by_cases h : j = k
      · simp [setIn, lookupIn, h]
      · simp [setIn, lookupIn, h, Ne.symm h]
  | cons e l ih =>
      by_cases hk : e.1 = k
      · by_cases h : j = k
        · simp [setIn, lookupIn, hk, h]
        · have hj : k ≠ j := Ne.symm h
          simp [setIn, lookupIn, hk, h, hj]
      · by_cases hj : e.1 = j
        · have hne : j ≠ k := fun h => hk (hj.trans h)
          simp [setIn, lookupIn, hj, hne]
        · simp [setIn, lookupIn, hk, hj, ih]

theorem lookupIn_filter (k j : κ) (l : List (κ × ν)) :
    lookupIn j (l.filter (fun e => e.1 ≠ k)) =
      if j = k then none else lookupIn j l := by
  induction l with
  | nil =>
      simp [lookupIn]
  | cons e l ih =>
      by_cases hk : e.1 = k
      · rw [List.filter_cons_of_neg (by simp [hk]), ih]
        by_cases h : j = k
        · simp [h]
        · have hj : k ≠ j := Ne.symm h
          simp [lookupIn, hk, h, hj]
      · rw [List.filter_cons_of_pos (by simp [hk])]
        by_cases hj : e.1 = j
        · have hne : j ≠ k := fun h => hk (hj.trans h)
          simp [lookupIn, hj, hne]
        · simp only [lookupIn, if_neg hj, ih]

/-- A present key keeps its place, a new key goes last. -/
theorem keys_setIn (k : κ) (v : ν) (l : List (κ × ν)) :
    (setIn k v l).map Prod.fst =
      if k ∈ l.map Prod.fst then l.map Prod.fst
      else l.map Prod.fst ++ [k] := by
  induction l with
  | nil =>
      simp [setIn]
  | cons e l ih =>
      by_cases hk : e.1 = k
      · simp [setIn, hk]
      · have hne : k ≠ e.1 := Ne.symm hk
        by_cases hm : k ∈ l.map Prod.fst
        · simp only [setIn, if_neg hk, List.map_cons, ih, if_pos hm]
          rw [if_pos (List.mem_cons_of_mem _ hm)]
        · have hm' : k ∉ e.1 :: l.map Prod.fst := by
            simp only [List.mem_cons, not_or]
            exact ⟨hne, hm⟩
          simp only [setIn, if_neg hk, List.map_cons, ih, if_neg hm,
            if_neg hm', List.cons_append]

theorem setIn_nodup (k : κ) (v : ν) {l : List (κ × ν)}
    (h : (l.map Prod.fst).Nodup) :
    ((setIn k v l).map Prod.fst).Nodup := by
  rw [keys_setIn]
  split_ifs with hm
  · exact h
  · exact List.Nodup.append h (List.nodup_singleton k)
      (by simpa using hm)

theorem keys_filter (k : κ) (l : List (κ × ν)) :
    (l.filter (fun e => e.1 ≠ k)).map Prod.fst =
      (l.map Prod.fst).filter (fun j => j ≠ k) := by
  rw [List.filter_map]
  rfl

end Entries

/-- The value under a key, if there is one. -/
def lookup (d : OrderedDict κ ν) (k : κ) : Option ν :=
  lookupIn k d.entries

/-- Assign a value to a key. -/
def set (d : OrderedDict κ ν) (k : κ) (v : ν) : OrderedDict κ ν :=
  ⟨setIn k v d.entries, setIn_nodup k v d.nodup⟩

/-- Remove a key and its value, if present. -/
def erase (d : OrderedDict κ ν) (k : κ) : OrderedDict κ ν :=
  ⟨d.entries.filter (fun e => e.1 ≠ k), by
    rw [keys_filter]
    exact d.nodup.filter _⟩

@[simp] theorem lookup_empty (k : κ) :
    (empty : OrderedDict κ ν).lookup k = none := by
  rfl

theorem lookup_isSome_iff {d : OrderedDict κ ν} {k : κ} :
    (d.lookup k).isSome ↔ k ∈ d :=
  lookupIn_isSome_iff k d.entries

theorem mem_of_lookup {d : OrderedDict κ ν} {k : κ} {v : ν}
    (h : d.lookup k = some v) : k ∈ d := by
  rw [← lookup_isSome_iff, h]
  rfl

theorem exists_lookup_of_mem {d : OrderedDict κ ν} {k : κ}
    (h : k ∈ d) : ∃ v, d.lookup k = some v :=
  Option.isSome_iff_exists.mp (lookup_isSome_iff.mpr h)

theorem lookup_eq_none_iff {d : OrderedDict κ ν} {k : κ} :
    d.lookup k = none ↔ k ∉ d := by
  rw [← lookup_isSome_iff]
  cases d.lookup k <;> simp

theorem lookup_set (d : OrderedDict κ ν) (k j : κ) (v : ν) :
    (d.set k v).lookup j = if j = k then some v else d.lookup j :=
  lookupIn_setIn k j v d.entries

theorem lookup_erase (d : OrderedDict κ ν) (k j : κ) :
    (d.erase k).lookup j = if j = k then none else d.lookup j :=
  lookupIn_filter k j d.entries

@[simp] theorem lookup_set_self (d : OrderedDict κ ν) (k : κ) (v : ν) :
    (d.set k v).lookup k = some v := by
  simp [lookup_set]

@[simp] theorem lookup_erase_self (d : OrderedDict κ ν) (k : κ) :
    (d.erase k).lookup k = none := by
  simp [lookup_erase]

theorem keys_set (d : OrderedDict κ ν) (k : κ) (v : ν) :
    (d.set k v).keys = if k ∈ d then d.keys else d.keys ++ [k] :=
  keys_setIn k v d.entries

theorem keys_erase (d : OrderedDict κ ν) (k : κ) :
    (d.erase k).keys = d.keys.filter (fun j => j ≠ k) :=
  keys_filter k d.entries

@[simp] theorem mem_set {d : OrderedDict κ ν} {k j : κ} {v : ν} :
    j ∈ d.set k v ↔ j = k ∨ j ∈ d := by
  rw [← lookup_isSome_iff, lookup_set, ← lookup_isSome_iff]
  split_ifs with h <;> simp [h]

@[simp] theorem mem_erase {d : OrderedDict κ ν} {k j : κ} :
    j ∈ d.erase k ↔ j ≠ k ∧ j ∈ d := by
  rw [← lookup_isSome_iff, lookup_erase, ← lookup_isSome_iff]
  split_ifs with h <;> simp [h]

/-- Erasing an absent key changes nothing. -/
theorem erase_eq_self {d : OrderedDict κ ν} {k : κ} (h : k ∉ d) :
    d.erase k = d := by
  apply ext
  apply List.filter_eq_self.mpr
  intro e he
  have hne : e.1 ≠ k := by
    rintro rfl
    exact h (List.mem_map_of_mem he)
  simpa using hne

theorem entries_eq_of_lookupIn :
    ∀ {l m : List (κ × ν)}, (l.map Prod.fst).Nodup →
      l.map Prod.fst = m.map Prod.fst →
      (∀ k, lookupIn k l = lookupIn k m) → l = m
  | [], m, _, hkeys, _ => (List.map_eq_nil_iff.mp hkeys.symm).symm
  | e :: l, [], _, hkeys, _ => by
      cases hkeys
  | e :: l, f :: m, hnodup, hkeys, h => by
      obtain ⟨hkey, hkeys⟩ := List.cons_eq_cons.mp hkeys
      obtain ⟨habs, hnodup⟩ := List.nodup_cons.mp hnodup
      have hvalue := h e.1
      simp only [lookupIn, if_pos, ← hkey] at hvalue
      have htail : ∀ k, lookupIn k l = lookupIn k m := by
        intro k
        by_cases hk : e.1 = k
        · have hl : ¬ (lookupIn k l).isSome := by
            rwa [lookupIn_isSome_iff, ← hk]
          have hm : ¬ (lookupIn k m).isSome := by
            rwa [lookupIn_isSome_iff, ← hk, ← hkeys]
          rw [Option.not_isSome_iff_eq_none.mp hl,
            Option.not_isSome_iff_eq_none.mp hm]
        · have hboth := h k
          rwa [lookupIn, lookupIn, if_neg hk, ← hkey, if_neg hk] at hboth
      rw [entries_eq_of_lookupIn hnodup hkeys htail,
        show e = f from Prod.ext hkey (Option.some.inj hvalue)]

/-- Order and contents determine a dictionary. -/
theorem ext_lookup {d e : OrderedDict κ ν} (hkeys : d.keys = e.keys)
    (h : ∀ k, d.lookup k = e.lookup k) : d = e :=
  OrderedDict.ext (entries_eq_of_lookupIn d.nodup hkeys h)

theorem size_erase_lt {d : OrderedDict κ ν} {k : κ} (h : k ∈ d) :
    (d.erase k).size < d.size := by
  have hk : k ∈ d.keys := h
  rw [← length_keys, ← length_keys, keys_erase]
  exact List.length_filter_lt_length_iff_exists.mpr ⟨k, hk, by simp⟩

theorem lookupIn_retain (p : ν → Bool) (k : κ) :
    ∀ {l : List (κ × ν)}, (l.map Prod.fst).Nodup →
      lookupIn k (l.filter (fun e => p e.2)) = (lookupIn k l).filter p
  | [], _ => by
      rfl
  | e :: l, h => by
      obtain ⟨habs, htail⟩ := List.nodup_cons.mp h
      have ih := lookupIn_retain p k htail
      rw [List.filter_cons]
      by_cases hk : e.1 = k
      · subst hk
        have hnone : lookupIn e.1 l = none := by
          rw [← Option.not_isSome_iff_eq_none, lookupIn_isSome_iff]
          exact habs
        rw [hnone] at ih
        by_cases hp : p e.2 = true
        · simp [hp, lookupIn, Option.filter]
        · simp [hp, lookupIn, Option.filter, ih]
      · by_cases hp : p e.2 = true
        · simp [hp, lookupIn, hk, ih]
        · simp [hp, lookupIn, hk, ih]

theorem lookup_retain (d : OrderedDict κ ν) (p : ν → Bool) (k : κ) :
    (d.retain p).lookup k = (d.lookup k).filter p :=
  lookupIn_retain p k d.nodup

section MapValues

variable {μ : Type w} (g : ν → μ)

theorem lookupIn_map (k : κ) (l : List (κ × ν)) :
    lookupIn k (l.map (fun e => (e.1, g e.2))) = (lookupIn k l).map g := by
  induction l with
  | nil =>
      rfl
  | cons e l ih =>
      simp only [List.map_cons, lookupIn, ih]
      split_ifs <;> rfl

theorem setIn_map (k : κ) (v : ν) (l : List (κ × ν)) :
    setIn k (g v) (l.map (fun e => (e.1, g e.2))) =
      (setIn k v l).map (fun e => (e.1, g e.2)) := by
  induction l with
  | nil =>
      rfl
  | cons e l ih =>
      simp only [List.map_cons, setIn, ih]
      split_ifs <;> rfl

theorem lookup_mapValues (d : OrderedDict κ ν) (k : κ) :
    (d.mapValues g).lookup k = (d.lookup k).map g :=
  lookupIn_map g k d.entries

theorem mapValues_set (d : OrderedDict κ ν) (k : κ) (v : ν) :
    (d.mapValues g).set k (g v) = (d.set k v).mapValues g :=
  OrderedDict.ext (setIn_map g k v d.entries)

theorem mapValues_erase (d : OrderedDict κ ν) (k : κ) :
    (d.mapValues g).erase k = (d.erase k).mapValues g :=
  OrderedDict.ext List.filter_map

end MapValues

theorem mem_iff_lookupIn {k : κ} {v : ν} :
    ∀ {l : List (κ × ν)}, (l.map Prod.fst).Nodup →
      ((k, v) ∈ l ↔ lookupIn k l = some v)
  | [], _ => by
      simp [lookupIn]
  | e :: l, h => by
      obtain ⟨habs, htail⟩ := List.nodup_cons.mp h
      by_cases hk : e.1 = k
      · subst hk
        have hout : (e.1, v) ∉ l :=
          fun hmem => habs (List.mem_map.mpr ⟨_, hmem, rfl⟩)
        simp only [List.mem_cons, hout, or_false, lookupIn, if_true,
          Option.some.injEq, Prod.ext_iff, true_and]
        exact eq_comm
      · have hhead : (k, v) ≠ e := fun heq => hk (congrArg Prod.fst heq).symm
        simp only [List.mem_cons, hhead, false_or, lookupIn, if_neg hk]
        exact mem_iff_lookupIn htail

/-- What is found determines the entries, up to their order. -/
theorem entries_perm {d e : OrderedDict κ ν}
    (h : ∀ k, d.lookup k = e.lookup k) : d.entries.Perm e.entries := by
  refine (List.perm_ext_iff_of_nodup (d.nodup.of_map _)
    (e.nodup.of_map _)).mpr ?_
  rintro ⟨k, v⟩
  rw [mem_iff_lookupIn d.nodup, mem_iff_lookupIn e.nodup]
  exact iff_of_eq (congrArg (· = some v) (h k))

section Weight

/-- The weight does not depend on the order of the entries. -/
theorem weight_congr (f : κ → ν → Int) {d e : OrderedDict κ ν}
    (h : ∀ k, d.lookup k = e.lookup k) : d.weight f = e.weight f :=
  ((entries_perm h).map _).sum_eq

/-- A dictionary that has only entries of another one weighs no more. -/
theorem weight_le_of_lookup {f : κ → ν → Int} (hf : ∀ k v, 0 ≤ f k v)
    {d e : OrderedDict κ ν}
    (h : ∀ k v, d.lookup k = some v → e.lookup k = some v) :
    d.weight f ≤ e.weight f := by
  have hsubset : d.entries ⊆ e.entries := by
    rintro ⟨k, v⟩ hmem
    rw [mem_iff_lookupIn d.nodup] at hmem
    rw [mem_iff_lookupIn e.nodup]
    exact h k v hmem
  have hsubperm := List.subperm_of_subset (d.nodup.of_map _) hsubset
  obtain ⟨l, hperm, hsub⟩ := hsubperm
  have hsum : (l.map fun a => f a.1 a.2).sum = d.weight f :=
    (hperm.map _).sum_eq
  rw [← hsum]
  refine (hsub.map _).sum_le_sum fun x hx => ?_
  obtain ⟨a, -, rfl⟩ := List.mem_map.mp hx
  exact hf a.1 a.2

theorem weightIn_set (f : κ → ν → Int) (k : κ) (v : ν) :
    ∀ l : List (κ × ν),
      ((setIn k v l).map (fun e => f e.1 e.2)).sum =
        (l.map (fun e => f e.1 e.2)).sum
          - ((lookupIn k l).map (f k)).getD 0 + f k v
  | [] => by
      simp [setIn, lookupIn]
  | e :: l => by
      by_cases hk : e.1 = k
      · subst hk
        simp only [setIn, lookupIn, if_true, List.map_cons, List.sum_cons,
          Option.map_some, Option.getD_some]
        ring
      · simp only [setIn, lookupIn, if_neg hk, List.map_cons, List.sum_cons,
          weightIn_set f k v l]
        ring

theorem weightIn_filter (f : κ → ν → Int) (k : κ) :
    ∀ l : List (κ × ν), (l.map Prod.fst).Nodup →
      ((l.filter (fun e => e.1 ≠ k)).map (fun e => f e.1 e.2)).sum =
        (l.map (fun e => f e.1 e.2)).sum
          - ((lookupIn k l).map (f k)).getD 0
  | [], _ => by
      simp [lookupIn]
  | e :: l, h => by
      have htail : (l.map Prod.fst).Nodup := (List.nodup_cons.mp h).2
      by_cases hk : e.1 = k
      · have habs : lookupIn k l = none := by
          have hnot : k ∉ l.map Prod.fst := hk ▸ (List.nodup_cons.mp h).1
          have := (lookupIn_isSome_iff k l).not.mpr hnot
          simpa using this
        have ih := weightIn_filter f k l htail
        rw [habs] at ih
        rw [List.filter_cons_of_neg (by simp [hk]), ih]
        subst hk
        simp only [lookupIn, if_true, List.map_cons, List.sum_cons,
          Option.map_none, Option.getD_none, Option.map_some,
          Option.getD_some]
        ring
      · rw [List.filter_cons_of_pos (by simp [hk])]
        simp only [lookupIn, if_neg hk, List.map_cons, List.sum_cons,
          weightIn_filter f k l htail]
        ring

/-- What assigning a key adds to the weight: the new entry, less the old. -/
theorem weight_set (f : κ → ν → Int) (d : OrderedDict κ ν) (k : κ) (v : ν) :
    (d.set k v).weight f =
      d.weight f - ((d.lookup k).map (f k)).getD 0 + f k v :=
  weightIn_set f k v d.entries

/-- What erasing a key takes from the weight. -/
theorem weight_erase (f : κ → ν → Int) (d : OrderedDict κ ν) (k : κ) :
    (d.erase k).weight f =
      d.weight f - ((d.lookup k).map (f k)).getD 0 :=
  weightIn_filter f k d.entries d.nodup

end Weight

end OrderedDict

end Foundation
