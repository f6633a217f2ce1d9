import PyRedis.Theory.CommandSteps

/-!
# Keys that are only thrown away

While the clock stands still it is settled which entries are dead.  Many
operations then do nothing to the store but throw away dead entries: the keys
that stay keep their order, their recency and their entries.  What an
operation changes besides is the use of one key.
-/

namespace PyRedis
namespace KeyValueStore

open Foundation

variable {s t u : KeyValueStore} {now : Int} {key k : Bytes}

section Standing

/-- The clock gives this reading, now and ever after. -/
def StandsAt (now : Int) (s : KeyValueStore) : Prop :=
  s.clock.readings = fun _ => now

theorem StandsAt.now_eq (h : StandsAt now s) : s.clock.now = now :=
  congrFun h s.clock.taken

theorem StandsAt.reached (h : StandsAt now s) : s.clock.Reached now := by
  intro i _
  rw [h]

theorem StandsAt.of_settings (h : StandsAt now s)
    (hsettings : t.settings = s.settings) : StandsAt now t :=
  (congrArg Settings.readings hsettings).trans h

/-- What a step that records nothing leaves shows what was there. -/
theorem Evolves.agreeAt (h : Evolves s [] t) (ht : StandsAt now t) :
    AgreeAt now t.keyspace s.keyspace :=
  (h.collected now ht.reached).agreeAt

end Standing

section Entries

theorem data_lookup_eq (s : KeyValueStore) (k : Bytes) :
    s.data.lookup k = (s.keyspace k).map Timed.value := by
  unfold keyspace
  cases s.data.lookup k <;> rfl

theorem Exact.expires_lookup_eq (h : Exact s) (k : Bytes) :
    s.expires.lookup k = (s.keyspace k).bind Timed.deadline := by
  unfold keyspace
  cases hk : s.data.lookup k with
  | none =>
      exact h.expires_eq_none (OrderedDict.lookup_eq_none_iff.mp hk)
  | some value =>
      rfl

end Entries

section Life

/-- The key is there, and its deadline is not reached. -/
def Alive (now : Int) (s : KeyValueStore) (key : Bytes) : Prop :=
  ∃ e, s.keyspace key = some e ∧ e.AliveAt now

theorem alive_iff : Alive now s k ↔ liveEntry now (s.keyspace k) ≠ none := by
  constructor
  · rintro ⟨e, he, halive⟩ hnone
    rw [he, liveEntry_of_alive halive] at hnone
    cases hnone
  · intro h
    obtain ⟨e, he⟩ := Option.ne_none_iff_exists'.mp h
    obtain ⟨hk, halive⟩ := liveEntry_eq_some_iff.mp he
    exact ⟨e, hk, halive⟩

theorem Alive.mem (h : Alive now s k) : k ∈ s.data := by
  obtain ⟨e, he, -⟩ := h
  by_contra hk
  rw [keyspace_eq_none_iff.mpr hk] at he
  cases he

/-- Time only ends lives. -/
theorem Alive.earlier {later : Int} (h : Alive later s k)
    (hle : now ≤ later) : Alive now s k := by
  obtain ⟨e, he, halive⟩ := h
  exact ⟨e, he, halive.mono hle⟩

theorem Alive.of_agree (h : Alive now s k)
    (hagree : AgreeAt now s.keyspace t.keyspace) : Alive now t k := by
  rw [alive_iff] at h ⊢
  rwa [← agreeAt_iff.mp hagree k]

/-- Every key is alive. -/
def AllAlive (now : Int) (s : KeyValueStore) : Prop :=
  ∀ k ∈ s.data, Alive now s k

theorem AllAlive.drop (h : AllAlive now s) (key : Bytes) :
    AllAlive now (s.drop key) := by
  intro k hk
  obtain ⟨hne, hmem⟩ := mem_data_drop.mp hk
  obtain ⟨e, he, halive⟩ := h k hmem
  refine ⟨e, ?_, halive⟩
  rw [keyspace_drop]
  simpa [Fact.apply, Fact.actOn, hne] using he

theorem allAlive_reclaimed (h : StandsAt now s) :
    AllAlive now s.reclaimed := by
  intro k hk
  have hkeyspace := keyspace_reclaimed s
  rw [h.now_eq] at hkeyspace
  rw [alive_iff, hkeyspace, live, liveEntry_idem le_rfl]
  rw [← not_not (a := k ∈ s.reclaimed.data), ← keyspace_eq_none_iff,
    hkeyspace] at hk
  exact hk

end Life

section Thinning

/-- Keys may have gone; those that stay are in their old order and as recent as
they were, and nothing else that a selection looks at has changed. -/
structure Thins (s t : KeyValueStore) : Prop where
  keys : t.data.keys.Sublist s.data.keys
  access : ∀ k ∈ t.data, t.accessOf k = s.accessOf k
  tick : t.tick = s.tick
  cursor : t.evictCursor = s.evictCursor
  settings : t.settings = s.settings

theorem thins_of_data (hdata : t.data = s.data) (haccess : t.access = s.access)
    (htick : t.tick = s.tick) (hcursor : t.evictCursor = s.evictCursor)
    (hsettings : t.settings = s.settings) : Thins s t where
  keys := by rw [hdata]
  access := by
    intro k _
    rw [accessOf, haccess]
    rfl
  tick := htick
  cursor := hcursor
  settings := hsettings

theorem Thins.trans (h : Thins s t) (h' : Thins t u) : Thins s u where
  keys := h'.keys.trans h.keys
  access := fun k hk => (h'.access k hk).trans (h.access k (h'.keys.subset hk))
  tick := h'.tick.trans h.tick
  cursor := h'.cursor.trans h.cursor
  settings := h'.settings.trans h.settings

theorem accessOf_drop_of_ne (h : k ≠ key) :
    (s.drop key).accessOf k = s.accessOf k := by
  unfold accessOf drop
  cases s.data.lookup key with
  | none =>
      rfl
  | some value =>
      simp only [without, OrderedDict.lookup_erase, if_neg h]

theorem keys_drop (s : KeyValueStore) (key : Bytes) :
    (s.drop key).data.keys = s.data.keys.filter (fun k => k ≠ key) := by
  by_cases hk : key ∈ s.data
  · obtain ⟨value, hvalue⟩ := OrderedDict.exists_lookup_of_mem hk
    rw [drop_of_lookup hvalue]
    exact OrderedDict.keys_erase s.data key
  · rw [drop_of_not_mem hk, ← OrderedDict.keys_erase,
      OrderedDict.erase_eq_self hk]

theorem thins_drop (s : KeyValueStore) (key : Bytes) :
    Thins s (s.drop key) where
  keys := by
    rw [keys_drop]
    exact List.filter_sublist
  access := fun k hk => accessOf_drop_of_ne (mem_data_drop.mp hk).1
  tick := (sameSettings_drop s key).tick
  cursor := (sameSettings_drop s key).evictCursor
  settings := settings_drop s key

theorem tidying_thins : Tidying Thins where
  refl _ := thins_of_data rfl rfl rfl rfl rfl
  trans := Thins.trans
  reading _ := thins_of_data rfl rfl rfl rfl rfl
  drop := thins_drop

/-- What only throws expired keys away. -/
structure Collecting (f : KeyValueStore → KeyValueStore) : Prop where
  thins : ∀ s, Thins s (f s)
  evolves : ∀ s, Evolves s [] (f s)
  exact : ∀ {s}, Exact s → Exact (f s)

theorem Collecting.evicted {f : KeyValueStore → KeyValueStore}
    (hf : Collecting f) (s : KeyValueStore) : (f s).evicted = s.evicted :=
  congrArg Settings.evicted (hf.thins s).settings

theorem collecting_id : Collecting id where
  thins := tidying_thins.refl
  evolves := Evolves.refl
  exact := id

theorem collecting_reading : Collecting afterReading where
  thins := tidying_thins.reading
  evolves := evolves_afterReading
  exact := Exact.afterReading

theorem collecting_settled (key : Bytes) : Collecting (settled · key) where
  thins s := tidying_thins.settled s key
  evolves s := evolves_settled s key
  exact h := h.settled key

theorem collecting_inspected (key : Bytes) :
    Collecting (inspected · key) where
  thins s := tidying_thins.inspected s key
  evolves s := evolves_inspected s key
  exact h := h.inspected key

theorem collecting_reclaimed : Collecting reclaimed where
  thins := tidying_thins.reclaimed
  evolves := evolves_reclaimed
  exact := Exact.reclaimed

theorem collecting_looked (keys : List Bytes) :
    Collecting (looked · keys) where
  thins s := tidying_thins.looked s keys
  evolves s := Commands.evolves_looked s keys
  exact h := h.looked keys

end Thinning

section Using

/-- One key has been used: an entry was put there, in its old place or at the
end, or it was only touched. -/
structure Used (key : Bytes) (s t : KeyValueStore) : Prop where
  keys : t.data.keys =
    if key ∈ s.data then s.data.keys else s.data.keys ++ [key]
  access : ∀ k, t.accessOf k = if k = key then s.tick + 1 else s.accessOf k
  others : ∀ k, k ≠ key → t.keyspace k = s.keyspace k
  tick : t.tick = s.tick + 1
  cursor : t.evictCursor = s.evictCursor
  settings : t.settings = s.settings

theorem Used.evicted (h : Used key s t) : t.evicted = s.evicted :=
  congrArg Settings.evicted h.settings

theorem accessOf_touch (s : KeyValueStore) (key k : Bytes) :
    (s.touch key).accessOf k = if k = key then s.tick + 1 else s.accessOf k := by
  unfold accessOf touch
  rw [OrderedDict.lookup_set]
  split_ifs <;> rfl

theorem used_touch (hk : key ∈ s.data) : Used key s (s.touch key) where
  keys := by
    rw [if_pos hk]
    rfl
  access := accessOf_touch s key
  others := by
    intro k _
    rw [keyspace_touch]
  tick := rfl
  cursor := rfl
  settings := settings_touch s key

theorem used_rewritten (s : KeyValueStore) (key value : Bytes) :
    Used key s (s.rewritten key value) where
  keys := OrderedDict.keys_set s.data key value
  access := accessOf_touch (s.write key value) key
  others := by
    intro k hk
    unfold rewritten
    rw [keyspace_touch, keyspace_write]
    simp [Fact.apply, Fact.actOn, hk]
  tick := rfl
  cursor := rfl
  settings := by simp [rewritten]

theorem used_stored (s : KeyValueStore) (key value : Bytes)
    (d : Option Int) : Used key s (s.stored key value d) := by
  have hothers : ∀ k, k ≠ key →
      (s.stored key value d).keyspace k = s.keyspace k := by
    intro k hk
    rw [Commands.keyspace_stored]
    simp [Fact.apply, Fact.actOn, hk]
  cases d with
  | none =>
      exact ⟨OrderedDict.keys_set s.data key value,
        accessOf_touch (s.write key value) key, hothers, rfl, rfl,
        by simp [stored]⟩
  | some d =>
      exact ⟨OrderedDict.keys_set s.data key value,
        accessOf_touch (s.write key value) key, hothers, rfl, rfl,
        by simp [stored]⟩

end Using

end KeyValueStore
end PyRedis
