import PyRedis.Theory.Keyspace

/-!
# What each operation does

Every public operation of the store in closed form: the value it returns or
the error it raises, and the state it leaves.  The two operations that admit a
write have several outcomes, which an inductive relation lists.

From the closed forms follow, for each operation, that it keeps `Exact`, that
it raises nothing but a store error or the `ValueError` of `int`, and what it
does to the map of timed values.
-/

namespace PyRedis
namespace KeyValueStore

open Foundation

variable {s t u : KeyValueStore}

section Settings

/-- What only an admission changes, if anything does: the limits, the readings
of the clock, and the report of evicted keys. -/
structure Settings where
  maxmemory : Int
  policy : MaxmemoryPolicy
  readings : Nat → Int
  evicted : List Bytes

def settings (s : KeyValueStore) : Settings :=
  ⟨s.maxmemory, s.policy, s.clock.readings, s.evicted⟩

variable (s)

@[simp] theorem settings_afterReading :
    s.afterReading.settings = s.settings := by
  rfl

@[simp] theorem settings_drop (key : Bytes) :
    (s.drop key).settings = s.settings := by
  unfold drop
  cases s.data.lookup key <;> rfl

@[simp] theorem settings_dropAll (keys : List Bytes) :
    (s.dropAll keys).settings = s.settings := by
  induction keys generalizing s with
  | nil =>
      rfl
  | cons key keys ih =>
      rw [dropAll_cons, ih, settings_drop]

@[simp] theorem settings_settledAt (key : Bytes) (now : Int) :
    (s.settledAt key now).settings = s.settings := by
  unfold settledAt
  cases s.expires.lookup key with
  | none =>
      rfl
  | some d =>
      by_cases hle : d ≤ now
      · simp [hle]
      · simp [hle]

@[simp] theorem settings_settled (key : Bytes) :
    (s.settled key).settings = s.settings := by
  unfold settled
  cases s.expires.lookup key with
  | none =>
      rfl
  | some d =>
      simp

@[simp] theorem settings_reclaimed : s.reclaimed.settings = s.settings := by
  simp [reclaimed]

@[simp] theorem settings_write (key value : Bytes) :
    (s.write key value).settings = s.settings := by
  rfl

@[simp] theorem settings_touch (key : Bytes) :
    (s.touch key).settings = s.settings := by
  rfl

@[simp] theorem settings_setExpires (key : Bytes) (d : Int) :
    (s.setExpires key d).settings = s.settings := by
  rfl

@[simp] theorem settings_popExpires (key : Bytes) :
    (s.popExpires key).settings = s.settings := by
  rfl

@[simp] theorem settings_assignExpires (key : Bytes) (d : Option Int) :
    (s.assignExpires key d).settings = s.settings := by
  cases d <;> rfl

@[simp] theorem settings_moveSweep (cursor : List Bytes) :
    (s.moveSweep cursor).settings = s.settings := by
  rfl

@[simp] theorem settings_relabel (cursor evicted : List Bytes) :
    (s.relabel cursor evicted).settings =
      { s.settings with evicted := evicted } := by
  rfl

@[simp] theorem settings_cleared : s.cleared.settings = s.settings := by
  rfl

variable {s}

theorem Admits.settings {key value : Bytes} {victims : List Bytes}
    (h : Admits s key value victims t) :
    t.settings = { s.settings with evicted := s.evicted ++ victims } := by
  cases h with
  | asIs _ =>
      simp [KeyValueStore.settings]
  | evicting cursor _ _ =>
      simp

end Settings

section Parsing

/-- `parse_int` raises a store error, or the `ValueError` of `int`. -/
theorem parseInt_error {py : Interpreter} {raw : Bytes} {e : Exc}
    (h : parseInt py raw = .error e) :
    e = .value ∨ e = .store .notAnInteger := by
  unfold parseInt at h
  split_ifs at h with hcanonical
  · split at h
    · cases h
      exact Or.inl rfl
    · split_ifs at h
      cases h
      exact Or.inr rfl
  · cases h
    exact Or.inr rfl

theorem parseInt_ok_bounds {py : Interpreter} {raw : Bytes} {n : Int}
    (h : parseInt py raw = .ok n) : int64Min ≤ n ∧ n ≤ int64Max := by
  unfold parseInt at h
  split_ifs at h with hcanonical
  split at h
  · cases h
  · split_ifs at h with hbounds
    cases h
    exact hbounds

end Parsing

section Set

/-- The deadline a `set` asks for, and the store once it is known. -/
def timing (s : KeyValueStore) :
    Option Int → Except Exc (Option Int) × KeyValueStore
  | none => (.ok none, s)
  | some ttl =>
      if ttl ≤ 0 then (.error (.store .invalidExpire), s)
      else if int64Max < s.clock.now + ttl then
        (.error (.store .invalidExpire), s.afterReading)
      else (.ok (some (s.clock.now + ttl)), s.afterReading)

/-- A store after an admitted `set`. -/
def stored (s : KeyValueStore) (key value : Bytes) (d : Option Int) :
    KeyValueStore :=
  ((s.write key value).assignExpires key d).touch key

theorem deadline_run (s : KeyValueStore) (ttl : Int) :
    (deadline ttl).run s =
      if ttl ≤ 0 then (.error (.store .invalidExpire), s)
      else if int64Max < s.clock.now + ttl then
        (.error (.store .invalidExpire), s.afterReading)
      else (.ok (s.clock.now + ttl), s.afterReading) := by
  unfold deadline
  by_cases hpos : ttl ≤ 0
  · simp [hpos]
  · by_cases hover : int64Max < s.clock.now + ttl
    · simp [hpos, hover, readClock_run]
    · simp [hpos, hover, readClock_run]

theorem timing_eq_or {ttl : Option Int} {r : Except Exc (Option Int)}
    (h : s.timing ttl = (r, t)) : t = s ∨ t = s.afterReading := by
  unfold timing at h
  split at h
  · cases h
    exact Or.inl rfl
  · split_ifs at h
    · cases h
      exact Or.inl rfl
    · cases h
      exact Or.inr rfl
    · cases h
      exact Or.inr rfl

/-- The outcomes of `set`. -/
inductive Sets (s : KeyValueStore) (key value : Bytes) (ttl : Option Int) :
    Except Exc Unit → KeyValueStore → Prop
  | untimely {t : KeyValueStore}
      (h : s.timing ttl = (.error (.store .invalidExpire), t)) :
      Sets s key value ttl (.error (.store .invalidExpire)) t
  | refused {d : Option Int} {t : KeyValueStore}
      (h : s.timing ttl = (.ok d, t)) (hr : t.Refuses key value) :
      Sets s key value ttl (.error (.store .outOfMemory)) t
  | stored {d : Option Int} {t u : KeyValueStore} {victims : List Bytes}
      (h : s.timing ttl = (.ok d, t)) (hr : ¬ t.Refuses key value)
      (ha : Admits t key value victims u) :
      Sets s key value ttl (.ok ()) (u.stored key value d)

theorem Exact.timed (h : Exact s) {ttl : Option Int}
    {r : Except Exc (Option Int)} (ht : s.timing ttl = (r, t)) :
    Exact t := by
  rcases timing_eq_or ht with rfl | rfl
  · exact h
  · exact h.afterReading

theorem Exact.stored (h : Exact s) (key value : Bytes) (d : Option Int) :
    Exact (s.stored key value d) := by
  have hmem : key ∈ (s.write key value).data :=
    OrderedDict.mem_set.mpr (Or.inl rfl)
  have hassigned := (h.write key value).assignExpires hmem d
  have hmem' : key ∈ ((s.write key value).assignExpires key d).data := by
    cases d <;> exact hmem
  exact hassigned.touch hmem'

/-- The part of `set` that follows the deadline. -/
theorem set_tail_run (h : Exact s) (key value : Bytes)
    {ttl d : Option Int} (hs : s.timing ttl = (.ok d, t)) :
    ∃ r u, Sets s key value ttl r u ∧
      (do
        admitWrite key value
        Fallible.modify (fun s => s.write key value)
        Fallible.modify (fun s => s.assignExpires key d)
        Fallible.modify (fun s => s.touch key)).run t = (r, u) := by
  by_cases hr : t.Refuses key value
  · refine ⟨_, t, Sets.refused hs hr, ?_⟩
    simp only [Fallible.run_bind, admit_run_of_refuses hr]
  · obtain ⟨victims, u, ha, hrun⟩ :=
      admit_run_of_not_refuses (h.timed hs) hr
    refine ⟨_, _, Sets.stored hs hr ha, ?_⟩
    simp only [Fallible.run_bind, hrun, Fallible.run_modify]
    rfl

theorem set_run (h : Exact s) (key value : Bytes) (ttl : Option Int) :
    ∃ r t, Sets s key value ttl r t ∧
      (set key value ttl).run s = (r, t) := by
  cases ttl with
  | none =>
      exact set_tail_run h key value rfl
  | some ttl =>
      by_cases hpos : ttl ≤ 0
      · refine ⟨_, s, Sets.untimely (by simp [timing, hpos]), ?_⟩
        simp [set, deadline_run, hpos]
      by_cases hover : int64Max < s.clock.now + ttl
      · refine ⟨_, _, Sets.untimely (by simp [timing, hpos, hover]; rfl), ?_⟩
        simp [set, deadline_run, hpos, hover]
      · have hs : s.timing (some ttl) =
            (.ok (some (s.clock.now + ttl)), s.afterReading) := by
          simp [timing, hpos, hover]
        obtain ⟨r, u, hsets, hrun⟩ :=
          set_tail_run h key value hs
        refine ⟨r, u, hsets, ?_⟩
        simp only [set, Fallible.run_bind, deadline_run, if_neg hpos,
          if_neg hover, Fallible.run_pure]
        exact hrun

theorem Sets.exact {key value : Bytes} {ttl : Option Int}
    {r : Except Exc Unit} (h : Exact s) (hs : Sets s key value ttl r t) :
    Exact t := by
  cases hs with
  | untimely ht =>
      exact h.timed ht
  | refused ht _ =>
      exact h.timed ht
  | stored ht _ ha =>
      exact (ha.exact (h.timed ht)).stored key value _

end Set

section Incr

/-- The number an `incr` starts from. -/
def counter (py : Interpreter) (s : KeyValueStore) (key : Bytes) :
    Except Exc Int :=
  match s.data.lookup key with
  | none => .ok 0
  | some raw => parseInt py raw

/-- A store after an admitted `incr`. -/
def rewritten (s : KeyValueStore) (key value : Bytes) : KeyValueStore :=
  (s.write key value).touch key

/-- The outcomes of `incr`. -/
inductive Incrs (py : Interpreter) (s : KeyValueStore) (key : Bytes) :
    Except Exc Int → KeyValueStore → Prop
  | malformed {e : Exc} (h : (s.settled key).counter py key = .error e) :
      Incrs py s key (.error e) (s.settled key)
  | overflow {n : Int} (h : (s.settled key).counter py key = .ok n)
      (hover : int64Max < n + 1) :
      Incrs py s key (.error (.store .integerOverflow)) (s.settled key)
  | refused {n : Int} (h : (s.settled key).counter py key = .ok n)
      (hfits : n + 1 ≤ int64Max)
      (hr : (s.settled key).Refuses key (str (n + 1))) :
      Incrs py s key (.error (.store .outOfMemory)) (s.settled key)
  | stored {n : Int} {u : KeyValueStore} {victims : List Bytes}
      (h : (s.settled key).counter py key = .ok n)
      (hfits : n + 1 ≤ int64Max)
      (hr : ¬ (s.settled key).Refuses key (str (n + 1)))
      (ha : Admits (s.settled key) key (str (n + 1)) victims u) :
      Incrs py s key (.ok (n + 1)) (u.rewritten key (str (n + 1)))

theorem Exact.rewritten (h : Exact s) (key value : Bytes) :
    Exact (s.rewritten key value) :=
  (h.write key value).touch (OrderedDict.mem_set.mpr (Or.inl rfl))

theorem counter_error {py : Interpreter} {key : Bytes} {e : Exc}
    (h : s.counter py key = .error e) :
    e = .value ∨ e = .store .notAnInteger := by
  unfold counter at h
  split at h
  · cases h
  · exact parseInt_error h

/-- The part of `incr` that follows the reading of the value. -/
theorem incr_tail_run (h : Exact s) {py : Interpreter} {key : Bytes}
    {n : Int} (hn : (s.settled key).counter py key = .ok n) :
    ∃ r t, Incrs py s key r t ∧
      (if int64Max < n + 1 then
        Fallible.raise (.store .integerOverflow)
      else do
        admitWrite key (str (n + 1))
        Fallible.modify (fun s => s.write key (str (n + 1)))
        Fallible.modify (fun s => s.touch key)
        pure (n + 1)).run (s.settled key) = (r, t) := by
  by_cases hover : int64Max < n + 1
  · refine ⟨_, _, Incrs.overflow hn hover, ?_⟩
    simp only [if_pos hover, Fallible.run_raise]
  · have hfits := not_lt.mp hover
    by_cases hr : (s.settled key).Refuses key (str (n + 1))
    · refine ⟨_, _, Incrs.refused hn hfits hr, ?_⟩
      simp only [if_neg hover, Fallible.run_bind, admit_run_of_refuses hr]
    · obtain ⟨victims, u, ha, hrun⟩ :=
        admit_run_of_not_refuses (h.settled key) hr
      refine ⟨_, _, Incrs.stored hn hfits hr ha, ?_⟩
      simp only [if_neg hover, Fallible.run_bind, hrun,
        Fallible.run_modify, Fallible.run_pure]
      rfl

theorem incr_run (h : Exact s) (py : Interpreter) (key : Bytes) :
    ∃ r t, Incrs py s key r t ∧ (incr py key).run s = (r, t) := by
  unfold incr
  simp only [Fallible.run_bind, dropIfExpired_run h, Fallible.run_get]
  cases hv : (s.settled key).data.lookup key with
  | none =>
      exact incr_tail_run h (n := 0) (by simp [counter, hv])
  | some raw =>
      have hcounter : ∀ n, parseInt py raw = .ok n →
          (s.settled key).counter py key = .ok n := by
        intro n hp
        simp [counter, hv, hp]
      cases hp : parseInt py raw with
      | error e =>
          refine ⟨_, _, Incrs.malformed (e := e) ?_, ?_⟩
          · simp [counter, hv, hp]
          · simp [hp]
      | ok n =>
          obtain ⟨r, t, hincrs, hrun⟩ :=
            incr_tail_run h (hcounter n hp)
          refine ⟨r, t, hincrs, ?_⟩
          simp only [hp, Fallible.run_ofExcept_ok]
          exact hrun

theorem Incrs.exact {py : Interpreter} {key : Bytes} {r : Except Exc Int}
    (h : Exact s) (hs : Incrs py s key r t) : Exact t := by
  cases hs with
  | malformed _ =>
      exact h.settled key
  | overflow _ _ =>
      exact h.settled key
  | refused _ _ _ =>
      exact h.settled key
  | stored _ _ _ ha =>
      exact (ha.exact (h.settled key)).rewritten key _

end Incr

section Lookups

/-- A store after a `get`. -/
def gotten (s : KeyValueStore) (key : Bytes) : KeyValueStore :=
  if key ∈ (s.settled key).data then (s.settled key).touch key
  else s.settled key

theorem get_run (h : Exact s) (key : Bytes) :
    (get key).run s =
      (.ok ((s.settled key).data.lookup key), s.gotten key) := by
  unfold get gotten
  cases hv : (s.settled key).data.lookup key with
  | none =>
      have hk := OrderedDict.lookup_eq_none_iff.mp hv
      simp [dropIfExpired_run h, hv, hk]
  | some value =>
      have hk := OrderedDict.mem_of_lookup hv
      simp [dropIfExpired_run h, hv, hk]

theorem Exact.gotten (h : Exact s) (key : Bytes) : Exact (s.gotten key) := by
  unfold KeyValueStore.gotten
  split_ifs with hk
  · exact (h.settled key).touch hk
  · exact h.settled key

/-- A store after `ttl`. -/
def inspected (s : KeyValueStore) (key : Bytes) : KeyValueStore :=
  s.afterReading.settledAt key s.clock.now

theorem ttl_run (h : Exact s) (key : Bytes) :
    (ttl key).run s =
      (.ok ⟨decide (key ∈ (s.inspected key).data),
        ((s.inspected key).expires.lookup key).map (· - s.clock.now)⟩,
        s.inspected key) := by
  have hi : Exact (s.inspected key) := h.afterReading.settledAt key _
  unfold ttl
  simp only [Fallible.run_bind, readClock_run,
    dropIfExpired_run_at h.afterReading, Fallible.run_get]
  change (Fallible.run _ (s.inspected key)) = _
  by_cases hk : key ∈ (s.inspected key).data
  · cases hd : (s.inspected key).expires.lookup key with
    | none =>
        simp [inspected] at hk hd
        simp [inspected, hk, hd]
    | some d =>
        simp [inspected] at hk hd
        simp [inspected, hk, hd]
  · have hd := hi.expires_eq_none hk
    simp [inspected] at hk hd
    simp [inspected, hk, hd]

theorem Exact.inspected (h : Exact s) (key : Bytes) :
    Exact (s.inspected key) :=
  h.afterReading.settledAt key _

/-- A store after `exists`. -/
def looked (s : KeyValueStore) (keys : List Bytes) : KeyValueStore :=
  keys.foldl settled s

/-- The number `exists` returns. -/
def present (s : KeyValueStore) : List Bytes → Nat
  | [] => 0
  | key :: keys =>
      (if key ∈ (s.settled key).data then 1 else 0) +
        present (s.settled key) keys

theorem existsStep_run (h : Exact s) (n : Nat) (key : Bytes) :
    (existsStep n key).run s =
      (.ok (n + if key ∈ (s.settled key).data then 1 else 0),
        s.settled key) := by
  unfold existsStep
  by_cases hk : key ∈ (s.settled key).data
  · simp [dropIfExpired_run h, hk]
  · simp [dropIfExpired_run h, hk]

theorem exists_run (h : Exact s) (keys : List Bytes) :
    («exists» keys).run s = (.ok (s.present keys), s.looked keys) := by
  have hloop : ∀ n, (keys.foldlM existsStep n).run s =
      (.ok (n + s.present keys), s.looked keys) := by
    induction keys generalizing s with
    | nil =>
        intro n
        rfl
    | cons key keys ih =>
        intro n
        rw [List.foldlM_cons, Fallible.run_bind, existsStep_run h]
        simp only [ih (h.settled key), present, looked, List.foldl_cons,
          Nat.add_assoc]
  have := hloop 0
  rwa [Nat.zero_add] at this

theorem Exact.looked (h : Exact s) (keys : List Bytes) :
    Exact (s.looked keys) := by
  induction keys generalizing s with
  | nil =>
      exact h
  | cons key keys ih =>
      exact ih (h.settled key)

theorem dbsize_run (h : Exact s) :
    dbsize.run s = (.ok s.reclaimed.data.size, s.reclaimed) := by
  unfold dbsize
  simp [dropExpired_run h]

end Lookups

section Removals

/-- A store after `delete`. -/
def deleted (s : KeyValueStore) (keys : List Bytes) : KeyValueStore :=
  keys.foldl (fun s key => (s.settled key).drop key) s

/-- The number `delete` returns. -/
def removed (s : KeyValueStore) : List Bytes → Nat
  | [] => 0
  | key :: keys =>
      (if key ∈ (s.settled key).data then 1 else 0) +
        removed ((s.settled key).drop key) keys

theorem deleteStep_run (h : Exact s) (n : Nat) (key : Bytes) :
    (deleteStep n key).run s =
      (.ok (n + if key ∈ (s.settled key).data then 1 else 0),
        (s.settled key).drop key) := by
  unfold deleteStep
  by_cases hk : key ∈ (s.settled key).data
  · simp [dropIfExpired_run h, hk, remove_run hk]
  · simp [dropIfExpired_run h, hk, drop_of_not_mem hk]

theorem delete_run (h : Exact s) (keys : List Bytes) :
    (delete keys).run s = (.ok (s.removed keys), s.deleted keys) := by
  have hloop : ∀ n, (keys.foldlM deleteStep n).run s =
      (.ok (n + s.removed keys), s.deleted keys) := by
    induction keys generalizing s with
    | nil =>
        intro n
        rfl
    | cons key keys ih =>
        intro n
        rw [List.foldlM_cons, Fallible.run_bind, deleteStep_run h]
        simp only [ih ((h.settled key).drop key), removed, deleted,
          List.foldl_cons, Nat.add_assoc]
  have := hloop 0
  rwa [Nat.zero_add] at this

theorem Exact.deleted (h : Exact s) (keys : List Bytes) :
    Exact (s.deleted keys) := by
  induction keys generalizing s with
  | nil =>
      exact h
  | cons key keys ih =>
      exact ih ((h.settled key).drop key)

theorem discard_run (s : KeyValueStore) (keys : List Bytes) :
    (discard keys).run s = (.ok (), s.dropAll keys) := by
  induction keys generalizing s with
  | nil =>
      rfl
  | cons key keys ih =>
      have hstep : (discardStep key).run s = (.ok (), s.drop key) := by
        unfold discardStep
        by_cases hk : key ∈ s.data
        · simp [hk, remove_run hk]
        · simp [hk, drop_of_not_mem hk]
      unfold discard Fallible.forEach
      simp only [Fallible.run_bind, hstep]
      exact ih (s.drop key)

end Removals

section Deadlines

theorem expire_run (h : Exact s) (key : Bytes) (ttl : Int) :
    (expire key ttl).run s =
      if key ∈ (s.settled key).data then
        if ttl ≤ 0 then (.ok true, (s.settled key).drop key)
        else if int64Max < (s.settled key).clock.now + ttl then
          (.error (.store .invalidExpire), (s.settled key).afterReading)
        else
          (.ok true, (s.settled key).afterReading.setExpires key
            ((s.settled key).clock.now + ttl))
      else (.ok false, s.settled key) := by
  unfold expire
  by_cases hk : key ∈ (s.settled key).data
  · by_cases hpos : ttl ≤ 0
    · simp [dropIfExpired_run h, hk, hpos, remove_run hk]
    · by_cases hover : int64Max < (s.settled key).clock.now + ttl
      · simp [dropIfExpired_run h, hk, hpos, hover, deadline_run]
      · simp [dropIfExpired_run h, hk, hpos, hover, deadline_run]
  · simp [dropIfExpired_run h, hk]

theorem persist_run (h : Exact s) (key : Bytes) :
    (persist key).run s =
      if key ∈ (s.settled key).expires then
        (.ok true, (s.settled key).popExpires key)
      else (.ok false, s.settled key) := by
  unfold persist
  by_cases hk : key ∈ (s.settled key).expires
  · have hdata := (h.settled key).expires_mem key hk
    simp [dropIfExpired_run h, hk, hdata]
  · simp [dropIfExpired_run h, hk]

theorem deadlineMs_run (s : KeyValueStore) (key : Bytes) :
    (deadlineMs key).run s = (.ok (s.expires.lookup key), s) := by
  rfl

theorem takeEvicted_run (s : KeyValueStore) :
    takeEvicted.run s = (.ok s.evicted, s.relabel s.evictCursor []) := by
  rfl

theorem flushdb_run (s : KeyValueStore) :
    flushdb.run s = (.ok (), s.cleared) := by
  rfl

end Deadlines

section Tidying

/-- A relation that readings of the clock and removals keep. -/
structure Tidying (R : KeyValueStore → KeyValueStore → Prop) : Prop where
  refl : ∀ s, R s s
  trans : ∀ {s t u}, R s t → R t u → R s u
  reading : ∀ s, R s s.afterReading
  drop : ∀ s key, R s (s.drop key)

variable {R : KeyValueStore → KeyValueStore → Prop}

namespace Tidying

theorem dropAll (h : Tidying R) (s : KeyValueStore) (keys : List Bytes) :
    R s (s.dropAll keys) := by
  induction keys generalizing s with
  | nil =>
      exact h.refl s
  | cons key keys ih =>
      exact h.trans (h.drop s key) (ih (s.drop key))

theorem settledAt (h : Tidying R) (s : KeyValueStore) (key : Bytes)
    (now : Int) : R s (s.settledAt key now) := by
  unfold KeyValueStore.settledAt
  cases s.expires.lookup key with
  | none =>
      exact h.refl s
  | some d =>
      simp only
      split_ifs
      · exact h.drop s key
      · exact h.refl s

theorem settled (h : Tidying R) (s : KeyValueStore) (key : Bytes) :
    R s (s.settled key) := by
  unfold KeyValueStore.settled
  cases s.expires.lookup key with
  | none =>
      exact h.refl s
  | some d =>
      exact h.trans (h.reading s) (h.settledAt _ key _)

theorem inspected (h : Tidying R) (s : KeyValueStore) (key : Bytes) :
    R s (s.inspected key) :=
  h.trans (h.reading s) (h.settledAt _ key _)

theorem reclaimed (h : Tidying R) (s : KeyValueStore) : R s s.reclaimed :=
  h.trans (h.reading s) (h.dropAll _ _)

theorem looked (h : Tidying R) (s : KeyValueStore) (keys : List Bytes) :
    R s (s.looked keys) := by
  induction keys generalizing s with
  | nil =>
      exact h.refl s
  | cons key keys ih =>
      exact h.trans (h.settled s key) (ih (s.settled key))

theorem deleted (h : Tidying R) (s : KeyValueStore) (keys : List Bytes) :
    R s (s.deleted keys) := by
  induction keys generalizing s with
  | nil =>
      exact h.refl s
  | cons key keys ih =>
      exact h.trans (h.trans (h.settled s key) (h.drop _ key)) (ih _)

theorem timing (h : Tidying R) {ttl : Option Int}
    {r : Except Exc (Option Int)} (ht : s.timing ttl = (r, t)) : R s t := by
  rcases timing_eq_or ht with rfl | rfl
  · exact h.refl _
  · exact h.reading s

end Tidying

end Tidying

section Recovery

theorem restore_run (s : KeyValueStore) (key value : Bytes)
    (d : Option Int) :
    (restore key value d).run s =
      (.ok (), (s.write key value).assignExpires key d) := by
  rfl

theorem Exact.restored (h : Exact s) (key value : Bytes) (d : Option Int) :
    Exact ((s.write key value).assignExpires key d) :=
  (h.write key value).assignExpires (OrderedDict.mem_set.mpr (Or.inl rfl)) d

theorem setDeadline_run (s : KeyValueStore) (key : Bytes) (d : Int) :
    (setDeadline key d).run s =
      (.ok (), if key ∈ s.data then s.setExpires key d else s) := by
  rfl

theorem clearDeadline_run (s : KeyValueStore) (key : Bytes) :
    (clearDeadline key).run s = (.ok (), s.popExpires key) := by
  rfl

end Recovery

end KeyValueStore
end PyRedis
