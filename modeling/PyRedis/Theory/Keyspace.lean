import PyRedis.Foundation.TimedMap
import PyRedis.Theory.Eviction

/-!
# The store as a map of timed values

`keyspace` forgets everything about a store but which value and which deadline
each key has.  Every state change of the store is a collection of dead entries
or a fact about its keys, and the equations below say which.

`Evolves s fs t` is the specification of a step: up to entries that are dead by
now, the map after it is what the facts `fs` make of the map before it.  A map
rebuilt from the facts alone tracks the store, although the store collects
dead entries at moments of its own choosing and the rebuilt map never does.
-/

namespace PyRedis

open Foundation

namespace Clock

/-- A time not earlier than any reading made. -/
def Reached (c : Clock) (t : Int) : Prop :=
  ∀ i, i < c.taken → c.readings i ≤ t

/-- Successive readings never decrease. -/
def Monotone (c : Clock) : Prop :=
  ∀ i j, i ≤ j → c.readings i ≤ c.readings j

theorem reached_advance {c : Clock} {t : Int} :
    c.advance.Reached t ↔ c.Reached t ∧ c.now ≤ t := by
  constructor
  · intro h
    refine ⟨fun i hi => h i (Nat.lt_succ_of_lt hi), ?_⟩
    exact h c.taken (Nat.lt_succ_self _)
  · rintro ⟨h, hnow⟩ i hi
    rcases Nat.lt_succ_iff_lt_or_eq.mp hi with hi | rfl
    · exact h i hi
    · exact hnow

/-- The same clock, after further readings. -/
structure Extends (c c' : Clock) : Prop where
  readings : c'.readings = c.readings
  taken : c.taken ≤ c'.taken

theorem Extends.refl (c : Clock) : c.Extends c :=
  ⟨rfl, le_rfl⟩

theorem Extends.of_eq {c c' : Clock} (h : c' = c) : c.Extends c' := by
  rw [h]
  exact Extends.refl c

theorem Extends.trans {c c' c'' : Clock} (h : c.Extends c')
    (h' : c'.Extends c'') : c.Extends c'' :=
  ⟨h'.readings.trans h.readings, le_trans h.taken h'.taken⟩

theorem extends_advance (c : Clock) : c.Extends c.advance :=
  ⟨rfl, Nat.le_succ _⟩

theorem Extends.monotone {c c' : Clock} (h : c.Extends c')
    (hc : c.Monotone) : c'.Monotone := by
  unfold Monotone
  rw [h.readings]
  exact hc

theorem Extends.reached {c c' : Clock} (h : c.Extends c') {v : Int}
    (hv : c'.Reached v) : c.Reached v := by
  intro i hi
  have := hv i (lt_of_lt_of_le hi h.taken)
  rwa [h.readings] at this

theorem exists_reached (c : Clock) : ∃ v, c.Reached v := by
  have hbound : ∀ n, ∃ v, ∀ i, i < n → c.readings i ≤ v := by
    intro n
    induction n with
    | zero =>
        exact ⟨0, fun i hi => absurd hi (Nat.not_lt_zero i)⟩
    | succ n ih =>
        obtain ⟨v, hv⟩ := ih
        refine ⟨max v (c.readings n), fun i hi => ?_⟩
        rcases Nat.lt_succ_iff_lt_or_eq.mp hi with hi | rfl
        · exact le_trans (hv i hi) (le_max_left _ _)
        · exact le_max_right _ _
  exact hbound c.taken

/-- The next reading of a monotone clock is not before any reading made. -/
theorem Monotone.reached_now {c : Clock} (h : c.Monotone) :
    c.Reached c.now :=
  fun i hi => h i c.taken (Nat.le_of_lt hi)

end Clock

/-- A line of the log of a store. -/
abbrev Write := Fact Bytes Bytes Int

namespace KeyValueStore

variable {s t u : KeyValueStore}

/-- Value and deadline of every key, expired keys included. -/
def keyspace (s : KeyValueStore) : TimedMap Bytes Bytes Int :=
  fun k => (s.data.lookup k).map (fun v => ⟨v, s.expires.lookup k⟩)

section Views

theorem keyspace_eq_none_iff {k : Bytes} :
    s.keyspace k = none ↔ k ∉ s.data := by
  simp [keyspace, OrderedDict.lookup_eq_none_iff]

theorem keyspace_eq_some_iff {k : Bytes} {e : Timed Bytes Int} :
    s.keyspace k = some e ↔
      s.data.lookup k = some e.value ∧ s.expires.lookup k = e.deadline := by
  unfold keyspace
  cases s.data.lookup k with
  | none =>
      simp
  | some v =>
      cases e
      simp

@[simp] theorem keyspace_init (clock : Clock) (maxmemory : Int)
    (policy : MaxmemoryPolicy) :
    (init clock maxmemory policy).keyspace = fun _ => none := by
  rfl

@[simp] theorem keyspace_afterReading (s : KeyValueStore) :
    s.afterReading.keyspace = s.keyspace := by
  rfl

@[simp] theorem keyspace_touch (s : KeyValueStore) (key : Bytes) :
    (s.touch key).keyspace = s.keyspace := by
  rfl

@[simp] theorem keyspace_moveSweep (s : KeyValueStore)
    (cursor : List Bytes) : (s.moveSweep cursor).keyspace = s.keyspace := by
  rfl

@[simp] theorem keyspace_relabel (s : KeyValueStore)
    (cursor evicted : List Bytes) :
    (s.relabel cursor evicted).keyspace = s.keyspace := by
  rfl

theorem keyspace_cleared (s : KeyValueStore) :
    s.cleared.keyspace = (Fact.dropAll : Write).apply s.keyspace := by
  rfl

theorem keyspace_drop (s : KeyValueStore) (key : Bytes) :
    (s.drop key).keyspace = (Fact.drop [key]).apply s.keyspace := by
  funext j
  simp only [keyspace, data_lookup_drop, Fact.apply, Fact.actOn,
    List.mem_singleton]
  by_cases hj : j = key
  · simp [hj]
  · simp [hj, expires_lookup_drop_of_ne hj]

theorem keyspace_dropAll (s : KeyValueStore) (keys : List Bytes) :
    (s.dropAll keys).keyspace = (Fact.drop keys).apply s.keyspace := by
  rw [← replay_drops]
  induction keys generalizing s with
  | nil =>
      rfl
  | cons key keys ih =>
      rw [dropAll_cons, ih, List.map_cons, replay_cons, keyspace_drop]

/-- A write with its deadline says everything about its key. -/
theorem keyspace_assign (s : KeyValueStore) (key value : Bytes)
    (d : Option Int) :
    ((s.write key value).assignExpires key d).keyspace =
      (Fact.put key value d).apply s.keyspace := by
  funext j
  cases d with
  | none =>
      by_cases hj : j = key
      · simp [keyspace, assignExpires, popExpires, write, Fact.apply,
          Fact.actOn, hj]
      · simp [keyspace, assignExpires, popExpires, write, Fact.apply,
          Fact.actOn, hj, OrderedDict.lookup_set, OrderedDict.lookup_erase]
  | some d =>
      by_cases hj : j = key
      · simp [keyspace, assignExpires, setExpires, write, Fact.apply,
          Fact.actOn, hj]
      · simp [keyspace, assignExpires, setExpires, write, Fact.apply,
          Fact.actOn, hj, OrderedDict.lookup_set]

/-- A write alone keeps the deadline. -/
theorem keyspace_write (s : KeyValueStore) (key value : Bytes) :
    (s.write key value).keyspace =
      (Fact.put key value (s.expires.lookup key)).apply s.keyspace := by
  funext j
  by_cases hj : j = key
  · simp [keyspace, write, Fact.apply, Fact.actOn, hj]
  · simp [keyspace, write, Fact.apply, Fact.actOn, hj,
      OrderedDict.lookup_set]

theorem keyspace_setExpires (s : KeyValueStore) (key : Bytes) (d : Int) :
    (s.setExpires key d).keyspace =
      (Fact.expireAt key d).apply s.keyspace := by
  funext j
  by_cases hj : j = key
  · simp [keyspace, setExpires, Fact.apply, Fact.actOn, hj,
      Function.comp_def]
  · simp [keyspace, setExpires, Fact.apply, Fact.actOn, hj,
      OrderedDict.lookup_set]

theorem keyspace_popExpires (s : KeyValueStore) (key : Bytes) :
    (s.popExpires key).keyspace = (Fact.persist key).apply s.keyspace := by
  funext j
  by_cases hj : j = key
  · simp [keyspace, popExpires, Fact.apply, Fact.actOn, hj,
      Function.comp_def]
  · simp [keyspace, popExpires, Fact.apply, Fact.actOn, hj,
      OrderedDict.lookup_erase]

/-- An expired key is one whose entry is dead. -/
theorem not_alive_of_isExpiredAt {now : Int} {key : Bytes}
    (h : s.isExpiredAt now key = true) {e : Timed Bytes Int}
    (he : s.keyspace key = some e) : ¬ e.AliveAt now := by
  obtain ⟨d, hd, hle⟩ := isExpiredAt_iff.mp h
  have hdeadline : e.deadline = some d :=
    (keyspace_eq_some_iff.mp he).2.symm.trans hd
  intro halive
  have := halive d hdeadline
  omega

theorem alive_of_not_isExpiredAt {now : Int} {key : Bytes}
    (h : ¬ s.isExpiredAt now key = true) {e : Timed Bytes Int}
    (he : s.keyspace key = some e) : e.AliveAt now := by
  intro d hd
  have hlookup := (keyspace_eq_some_iff.mp he).2.trans hd
  by_contra hle
  exact h (isExpiredAt_iff.mpr ⟨d, hlookup, not_lt.mp hle⟩)

theorem keyspace_settledAt (s : KeyValueStore) (key : Bytes) (now : Int) :
    (s.settledAt key now).keyspace = collect now key s.keyspace := by
  have hstate : s.settledAt key now =
      if s.isExpiredAt now key = true then s.drop key else s := by
    unfold settledAt isExpiredAt
    cases s.expires.lookup key with
    | none =>
        simp
    | some d =>
        simp
  rw [hstate]
  funext j
  by_cases hexp : s.isExpiredAt now key = true
  · rw [if_pos hexp, keyspace_drop]
    by_cases hj : j = key
    · subst hj
      cases he : s.keyspace j with
      | none =>
          simp [collect, Fact.apply, Fact.actOn, he]
      | some e =>
          simp [collect, Fact.apply, Fact.actOn, he,
            liveEntry_of_dead (not_alive_of_isExpiredAt hexp he)]
    · simp [collect, Fact.apply, Fact.actOn, hj]
  · rw [if_neg hexp]
    by_cases hj : j = key
    · subst hj
      cases he : s.keyspace j with
      | none =>
          simp [collect, he]
      | some e =>
          simp [collect, he,
            liveEntry_of_alive (alive_of_not_isExpiredAt hexp he)]
    · simp [collect, hj]

/-- Settling a key collects it; a key that needs no reading is alive. -/
theorem keyspace_settled (s : KeyValueStore) (key : Bytes) :
    (s.settled key).keyspace = collect s.clock.now key s.keyspace := by
  have hsame : (s.settled key).keyspace =
      (s.settledAt key s.clock.now).keyspace := by
    unfold settled
    cases hd : s.expires.lookup key with
    | none =>
        simp [settledAt, hd]
    | some d =>
        rw [keyspace_settledAt, keyspace_settledAt]
        rfl
  rw [hsame, keyspace_settledAt]

theorem keyspace_reclaimed (s : KeyValueStore) :
    s.reclaimed.keyspace = live s.clock.now s.keyspace := by
  unfold reclaimed
  rw [keyspace_dropAll, keyspace_afterReading]
  funext j
  by_cases hexp : s.isExpiredAt s.clock.now j = true
  · cases he : s.keyspace j with
    | none =>
        simp [Fact.apply, Fact.actOn, live, he]
    | some e =>
        simp [Fact.apply, Fact.actOn, live, he, mem_expiredKeys, hexp,
          liveEntry_of_dead (not_alive_of_isExpiredAt hexp he)]
  · cases he : s.keyspace j with
    | none =>
        simp [Fact.apply, Fact.actOn, live, he]
    | some e =>
        simp [Fact.apply, Fact.actOn, live, he, mem_expiredKeys, hexp,
          liveEntry_of_alive (alive_of_not_isExpiredAt hexp he)]

end Views

section Evolution

/-- The store `t` holds what the facts make of the store `s`, less some
entries dead by the last reading, and its clock has only gone on. -/
structure Evolves (s : KeyValueStore) (fs : List Write)
    (t : KeyValueStore) : Prop where
  clock : s.clock.Extends t.clock
  grounded : GroundedLog s.clock.now s.keyspace fs
  collected : ∀ v, t.clock.Reached v →
    Collected v t.keyspace (replay fs s.keyspace)

/-- A map shows what the store shows, at every time reached. -/
def Tracks (s : KeyValueStore) (r : TimedMap Bytes Bytes Int) : Prop :=
  ∀ v, s.clock.Reached v → AgreeAt v s.keyspace r

variable {fs : List Write}

/-- A map that tracks the store still does after both take the same facts. -/
theorem Tracks.evolve {r : TimedMap Bytes Bytes Int}
    (hs : s.clock.Monotone) (h : Tracks s r) (he : Evolves s fs t) :
    Tracks t (replay fs r) := by
  intro v hv
  have hbefore := h v (he.clock.reached hv)
  have hnow := h s.clock.now hs.reached_now
  exact (he.collected v hv).agreeAt.trans (hbefore.replay hnow he.grounded)

/-- Some of the facts of a step, taken by a map that tracks the store before
it, show what they make of the store itself. -/
theorem Tracks.replay_take {r : TimedMap Bytes Bytes Int}
    (hs : s.clock.Monotone) (h : Tracks s r) (he : Evolves s fs t) (n : Nat)
    {v : Int} (hv : s.clock.Reached v) :
    AgreeAt v (replay (fs.take n) s.keyspace) (replay (fs.take n) r) :=
  (h v hv).replay (h s.clock.now hs.reached_now) (he.grounded.take n)

/-- A step that collects dead entries and records nothing. -/
theorem Evolves.of_collected (hclock : s.clock.Extends t.clock)
    (h : ∀ v, t.clock.Reached v → Collected v t.keyspace s.keyspace) :
    Evolves s [] t :=
  ⟨hclock, trivial, h⟩

theorem Evolves.refl (s : KeyValueStore) : Evolves s [] s :=
  Evolves.of_collected (Clock.Extends.refl _) fun _ _ => Collected.refl _ _

theorem Evolves.trans (h : Evolves s [] t) (h' : Evolves t [] u) :
    Evolves s [] u :=
  Evolves.of_collected (h.clock.trans h'.clock) fun v hv =>
    (h'.collected v hv).trans (h.collected v (h'.clock.reached hv))

/-- Fields that the map does not show may change freely. -/
theorem Evolves.frame (h : Evolves s fs t) (hclock : u.clock = t.clock)
    (hu : u.keyspace = t.keyspace) : Evolves s fs u where
  clock := h.clock.trans (Clock.Extends.of_eq hclock)
  grounded := h.grounded
  collected := by
    rw [hclock, hu]
    exact h.collected

/-- Facts recorded after some collections, in a state whose clock may since
have gone on.  What they rest on was alive at the first reading. -/
theorem Evolves.record (h : Evolves s [] t)
    (hclock : t.clock.Extends u.clock)
    (hground : GroundedLog s.clock.now t.keyspace fs)
    (hu : u.keyspace = replay fs t.keyspace) : Evolves s fs u where
  clock := h.clock.trans hclock
  grounded := by
    obtain ⟨v, hv⟩ := t.clock.exists_reached
    exact hground.of_collected (h.collected v hv)
  collected := by
    intro v hv
    rw [hu]
    exact (h.collected v (hclock.reached hv)).replay hground

theorem evolves_afterReading (s : KeyValueStore) :
    Evolves s [] s.afterReading :=
  Evolves.of_collected (Clock.extends_advance _)
    fun _ _ => Collected.refl _ _

/-- A step that reads the clock once and collects what is dead by then. -/
theorem evolves_of_reading (hclock : t.clock = s.clock.advance)
    (h : ∀ v, s.clock.now ≤ v → Collected v t.keyspace s.keyspace) :
    Evolves s [] t := by
  refine Evolves.of_collected ?_ ?_
  · rw [hclock]
    exact Clock.extends_advance _
  · intro v hv
    rw [hclock, Clock.reached_advance] at hv
    exact h v hv.2

theorem evolves_inspected (s : KeyValueStore) (key : Bytes) :
    Evolves s [] (s.afterReading.settledAt key s.clock.now) := by
  have hclock : (s.afterReading.settledAt key s.clock.now).clock =
      s.clock.advance := by
    unfold settledAt
    cases s.afterReading.expires.lookup key with
    | none =>
        rfl
    | some d =>
        simp only
        by_cases hle : d ≤ s.clock.now
        · rw [if_pos hle, (sameSettings_drop s.afterReading key).clock]
          rfl
        · rw [if_neg hle]
          rfl
  refine evolves_of_reading hclock ?_
  intro v hv
  rw [keyspace_settledAt, keyspace_afterReading]
  exact collected_collect hv key s.keyspace

theorem evolves_settled (s : KeyValueStore) (key : Bytes) :
    Evolves s [] (s.settled key) := by
  unfold settled
  cases s.expires.lookup key with
  | none =>
      exact Evolves.refl s
  | some d =>
      exact evolves_inspected s key

theorem evolves_reclaimed (s : KeyValueStore) :
    Evolves s [] s.reclaimed := by
  refine evolves_of_reading (sameSettings_reclaimed s).clock ?_
  intro v hv
  rw [keyspace_reclaimed]
  exact collected_live hv s.keyspace

/-- Removing keys that were expired at a reading is a collection. -/
theorem evolves_dropAll {keys : List Bytes}
    (hkeys : ∀ k ∈ keys, s.isExpiredAt s.clock.now k = true) :
    Evolves s [] (s.afterReading.dropAll keys) := by
  refine evolves_of_reading (sameSettings_dropAll s.afterReading keys).clock ?_
  intro v hv
  rw [keyspace_dropAll, keyspace_afterReading]
  exact collected_drop hv
    fun k hk e he => not_alive_of_isExpiredAt (hkeys k hk) he

end Evolution

end KeyValueStore
end PyRedis
