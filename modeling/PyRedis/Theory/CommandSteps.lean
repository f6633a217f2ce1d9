import PyRedis.Theory.CommandEffects
import PyRedis.Theory.StoreOperations

/-!
# What a request does to the store

`Serving` is what holds of the store between two commands: the bookkeeping is
exact, no eviction waits to be reported, and whatever a record would have to
write can be read back by the interpreter.

`Step s fs t` is what one command does from such a state: the store `t` holds
what the recorded facts make of `s`, up to collected entries, and no setting
has changed.  Each command is shown to take such a step, whether it answers
with a result or with an error, from the closed forms of the operations.
-/

namespace PyRedis
namespace Commands

open Foundation KeyValueStore

section EffectRuns

variable {s : KeyValueStore} (h : Exact s)
include h

theorem effect_get_run (key : Bytes) (rest : List Bytes) :
    (Effects.get (key :: rest)).run s =
      (.ok ⟨[], Effects.getReply ((s.settled key).data.lookup key)⟩,
        s.gotten key) := by
  simp only [Effects.get, Fallible.run_bind, get_run h key,
    Fallible.run_pure]

theorem effect_ttl_run (key : Bytes) (rest : List Bytes) :
    (Effects.ttl (key :: rest)).run s =
      (.ok ⟨[], Resp.encodeInteger (Effects.ttlReply
        ⟨decide (key ∈ (s.inspected key).data),
          ((s.inspected key).expires.lookup key).map (· - s.clock.now)⟩)⟩,
        s.inspected key) := by
  simp only [Effects.ttl, Fallible.run_bind, ttl_run h key,
    Fallible.run_pure]

theorem effect_exists_run (args : List Bytes) :
    (Effects.exists args).run s =
      (.ok ⟨[], Resp.encodeInteger (s.present args)⟩, s.looked args) := by
  simp only [Effects.exists, Fallible.run_bind, exists_run h args,
    Fallible.run_pure]

theorem effect_dbsize_run (args : List Bytes) :
    (Effects.dbsize args).run s =
      (.ok ⟨[], Resp.encodeInteger s.reclaimed.data.size⟩,
        s.reclaimed) := by
  simp only [Effects.dbsize, Fallible.run_bind, dbsize_run h,
    Fallible.run_pure]

theorem effect_delete_run (args : List Bytes) :
    (Effects.delete args).run s =
      (.ok ⟨if s.removed args ≠ 0 then [.drop args] else [],
        Resp.encodeInteger (s.removed args)⟩, s.deleted args) := by
  simp only [Effects.delete, Fallible.run_bind, delete_run h args,
    Fallible.run_pure]

theorem effect_persist_run (key : Bytes) (rest : List Bytes) :
    (Effects.persist (key :: rest)).run s =
      if key ∈ (s.settled key).expires then
        (.ok ⟨[.persist key], Resp.encodeInteger 1⟩,
          (s.settled key).popExpires key)
      else (.ok ⟨[], Resp.encodeInteger 0⟩, s.settled key) := by
  simp only [Effects.persist, Fallible.run_bind, persist_run h key]
  split_ifs <;> rfl

end EffectRuns

section Readable

/-- Everything a record about an entry writes can be read back. -/
structure ReadableEntry (rd : Interpreter) (key : Bytes)
    (e : Timed Bytes Int) : Prop where
  key : rd.Reads key.length
  value : rd.Reads e.value.length
  deadline : ∀ d, e.deadline = some d → rd.Reads d.natAbs

def ReadableMap (rd : Interpreter) (m : TimedMap Bytes Bytes Int) : Prop :=
  ∀ k e, m k = some e → ReadableEntry rd k e

/-- The record of the fact can be read back. -/
def ReadableFact (rd : Interpreter) : Write → Prop
  | .put key value d => ReadableEntry rd key ⟨value, d⟩
  | .expireAt key d => rd.Reads key.length ∧ rd.Reads d.natAbs
  | .persist key => rd.Reads key.length
  | .drop keys => keys ≠ [] ∧ rd.Reads (keys.length + 1) ∧
      ∀ k ∈ keys, rd.Reads k.length
  | .dropAll => True

/-- A request whose parts, and whose number of parts, can be read back; the
sizes of Python objects always can. -/
structure ReadableRequest (rd : Interpreter) (request : List Bytes) :
    Prop where
  count : rd.Reads request.length
  part : ∀ p ∈ request, rd.Reads p.length

variable {py rd : Interpreter}

theorem ReadableMap.apply {f : Write} {m : TimedMap Bytes Bytes Int}
    (hm : ReadableMap rd m) (hf : ReadableFact rd f) :
    ReadableMap rd (f.apply m) := by
  intro k e he
  cases f with
  | put key value d =>
      by_cases hk : k = key
      · simp only [Fact.apply, Fact.actOn, hk, if_true] at he
        cases he
        rw [hk]
        exact hf
      · simp only [Fact.apply, Fact.actOn, hk, if_false] at he
        exact hm k e he
  | expireAt key d =>
      by_cases hk : k = key
      · simp only [Fact.apply, Fact.actOn, hk, if_true,
          Option.map_eq_some_iff] at he
        obtain ⟨e', he', rfl⟩ := he
        have hentry := hm key e' he'
        refine ⟨by rw [hk]; exact hf.1, hentry.value, ?_⟩
        intro d' hd'
        cases hd'
        exact hf.2
      · simp only [Fact.apply, Fact.actOn, hk, if_false] at he
        exact hm k e he
  | persist key =>
      by_cases hk : k = key
      · simp only [Fact.apply, Fact.actOn, hk, if_true,
          Option.map_eq_some_iff] at he
        obtain ⟨e', he', rfl⟩ := he
        refine ⟨by rw [hk]; exact hf, (hm key e' he').value, ?_⟩
        intro d' hd'
        cases hd'
      · simp only [Fact.apply, Fact.actOn, hk, if_false] at he
        exact hm k e he
  | drop keys =>
      by_cases hk : k ∈ keys
      · simp [Fact.apply, Fact.actOn, hk] at he
      · simp only [Fact.apply, Fact.actOn, hk, if_false] at he
        exact hm k e he
  | dropAll =>
      simp [Fact.apply, Fact.actOn] at he

theorem ReadableMap.replay {fs : List Write}
    {m : TimedMap Bytes Bytes Int} (hm : ReadableMap rd m)
    (hfs : ∀ f ∈ fs, ReadableFact rd f) :
    ReadableMap rd (replay fs m) := by
  induction fs generalizing m with
  | nil =>
      exact hm
  | cons f fs ih =>
      exact ih (hm.apply (hfs f (by simp)))
        fun g hg => hfs g (List.mem_cons_of_mem _ hg)

theorem ReadableMap.of_evolves {s t : KeyValueStore} {fs : List Write}
    (hs : ReadableMap rd s.keyspace) (h : Evolves s fs t)
    (hfs : ∀ f ∈ fs, ReadableFact rd f) : ReadableMap rd t.keyspace := by
  obtain ⟨v, hv⟩ := t.clock.exists_reached
  intro k e he
  exact hs.replay hfs k e ((h.collected v hv).eq_of_some he)

end Readable

section Steps

/-- What holds of the store between two commands. -/
structure Serving (rd : Interpreter) (s : KeyValueStore) : Prop where
  exact : Exact s
  drained : s.evicted = []
  readable : ReadableMap rd s.keyspace

/-- The readings of the clock can be written and read back. -/
def Printable (rd : Interpreter) (c : Clock) : Prop :=
  ∀ i, rd.Reads (c.readings i).natAbs

/-- What one command does. -/
structure Step (rd : Interpreter) (s : KeyValueStore) (fs : List Write)
    (t : KeyValueStore) : Prop where
  exact : Exact t
  settings : t.settings = s.settings
  evolves : Evolves s fs t
  facts : ∀ f ∈ fs, ReadableFact rd f

variable {py rd : Interpreter} {s t u : KeyValueStore} {fs : List Write}

theorem Step.serving (h : Step rd s fs t) (hs : Serving rd s) :
    Serving rd t where
  exact := h.exact
  drained := (congrArg Settings.evicted h.settings).trans hs.drained
  readable := hs.readable.of_evolves h.evolves h.facts

/-- A step that records nothing. -/
theorem Step.silent (hexact : Exact t) (hsettings : t.settings = s.settings)
    (h : Evolves s [] t) : Step rd s [] t :=
  ⟨hexact, hsettings, h, by simp⟩

theorem Step.refl (hs : Serving rd s) : Step rd s [] s :=
  Step.silent hs.exact rfl (Evolves.refl s)

/-- A command takes a step, whether it answers or raises. -/
def Steps (rd : Interpreter) (x : StoreM Effect) (s : KeyValueStore) :
    Prop :=
  Fallible.Triple x s (fun effect t => Step rd s effect.facts t)
    (fun _ t => Step rd s [] t)

theorem steps_silent {x : StoreM Effect} {reply : Bytes}
    (hrun : x.run s = (.ok ⟨[], reply⟩, t)) (ht : Step rd s [] t) :
    Steps rd x s :=
  Fallible.Triple.of_ok hrun ht

theorem steps_raise (hs : Serving rd s) (e : Exc) :
    Steps rd (Fallible.raise e) s :=
  Fallible.Triple.raise (Step.refl hs)

end Steps

section Reads

variable {py rd : Interpreter} {s : KeyValueStore}

theorem steps_ping (hs : Serving rd s) (args : List Bytes) :
    Steps rd (Effects.ping args) s := by
  cases args with
  | nil =>
      exact steps_silent rfl (Step.refl hs)
  | cons message _ =>
      exact steps_silent rfl (Step.refl hs)

theorem step_settled (hs : Serving rd s) (key : Bytes) :
    Step rd s [] (s.settled key) :=
  Step.silent (hs.exact.settled key) (settings_settled s key)
    (evolves_settled s key)

theorem steps_get (hs : Serving rd s) (args : List Bytes) :
    Steps rd (Effects.get args) s := by
  cases args with
  | nil =>
      exact steps_raise hs _
  | cons key rest =>
      refine steps_silent (effect_get_run hs.exact key rest) ?_
      refine Step.silent (hs.exact.gotten key) ?_ ?_
      · unfold gotten
        split_ifs <;> simp
      · refine (evolves_settled s key).frame ?_ ?_
        · unfold gotten
          split_ifs <;> rfl
        · unfold gotten
          split_ifs <;> rfl

theorem steps_ttl (hs : Serving rd s) (args : List Bytes) :
    Steps rd (Effects.ttl args) s := by
  cases args with
  | nil =>
      exact steps_raise hs _
  | cons key rest =>
      refine steps_silent (effect_ttl_run hs.exact key rest) ?_
      exact Step.silent (hs.exact.inspected key) (by simp [inspected])
        (evolves_inspected s key)

theorem evolves_looked (s : KeyValueStore) (keys : List Bytes) :
    Evolves s [] (s.looked keys) := by
  induction keys generalizing s with
  | nil =>
      exact Evolves.refl s
  | cons key keys ih =>
      exact (evolves_settled s key).trans (ih (s.settled key))

theorem settings_looked (s : KeyValueStore) (keys : List Bytes) :
    (s.looked keys).settings = s.settings := by
  induction keys generalizing s with
  | nil =>
      rfl
  | cons key keys ih =>
      exact (ih (s.settled key)).trans (settings_settled s key)

theorem steps_exists (hs : Serving rd s) (args : List Bytes) :
    Steps rd (Effects.exists args) s := by
  exact steps_silent (effect_exists_run hs.exact args)
    (Step.silent (hs.exact.looked args) (settings_looked s args)
      (evolves_looked s args))

theorem step_reclaimed (hs : Serving rd s) : Step rd s [] s.reclaimed :=
  Step.silent hs.exact.reclaimed (settings_reclaimed s) (evolves_reclaimed s)

theorem steps_dbsize (hs : Serving rd s) (args : List Bytes) :
    Steps rd (Effects.dbsize args) s := by
  exact steps_silent (effect_dbsize_run hs.exact args) (step_reclaimed hs)

end Reads

section Removals

variable {py rd : Interpreter} {s : KeyValueStore}

theorem extends_deleted (s : KeyValueStore) (keys : List Bytes) :
    s.clock.Extends (s.deleted keys).clock := by
  induction keys generalizing s with
  | nil =>
      exact Clock.Extends.refl _
  | cons key keys ih =>
      have hstep : s.clock.Extends ((s.settled key).drop key).clock := by
        rw [(sameSettings_drop (s.settled key) key).clock]
        exact (evolves_settled s key).clock
      exact hstep.trans (ih _)

theorem settings_deleted (s : KeyValueStore) (keys : List Bytes) :
    (s.deleted keys).settings = s.settings := by
  induction keys generalizing s with
  | nil =>
      rfl
  | cons key keys ih =>
      refine (ih _).trans ?_
      simp

/-- What a `delete` leaves is exactly what its record says. -/
theorem keyspace_deleted (s : KeyValueStore) (keys : List Bytes) :
    (s.deleted keys).keyspace = (Fact.drop keys).apply s.keyspace := by
  rw [← replay_drops]
  induction keys generalizing s with
  | nil =>
      rfl
  | cons key keys ih =>
      have hstep : ((s.settled key).drop key).keyspace =
          (Fact.drop [key]).apply s.keyspace := by
        rw [keyspace_drop, keyspace_settled]
        funext j
        by_cases hj : j = key
        · simp [Fact.apply, Fact.actOn, hj]
        · simp [Fact.apply, Fact.actOn, collect, hj]
      rw [List.map_cons, replay_cons, ← hstep]
      exact ih _

/-- A `delete` that removed nothing has only collected. -/
theorem evolves_deleted_of_removed {keys : List Bytes}
    (h : s.removed keys = 0) : Evolves s [] (s.deleted keys) := by
  induction keys generalizing s with
  | nil =>
      exact Evolves.refl s
  | cons key keys ih =>
      simp only [removed, Nat.add_eq_zero_iff] at h
      have hk : key ∉ (s.settled key).data := by
        intro hk
        rw [if_pos hk] at h
        exact absurd h.1 one_ne_zero
      have hrest := ih h.2
      rw [drop_of_not_mem hk] at hrest
      refine (evolves_settled s key).trans ?_
      have hstate : s.deleted (key :: keys) =
          (s.settled key).deleted keys := by
        simp only [deleted, List.foldl_cons, drop_of_not_mem hk]
      rwa [hstate]

theorem steps_delete (hs : Serving rd s) {args : List Bytes}
    (hcount : rd.Reads (args.length + 1))
    (hparts : ∀ p ∈ args, rd.Reads p.length) :
    Steps rd (Effects.delete args) s := by
  refine Fallible.Triple.of_ok (effect_delete_run hs.exact args) ?_
  by_cases hremoved : s.removed args = 0
  · simp only [hremoved, ne_eq, not_true_eq_false, if_false]
    exact Step.silent (hs.exact.deleted args) (settings_deleted s args)
      (evolves_deleted_of_removed hremoved)
  · simp only [ne_eq, hremoved, not_false_eq_true, if_true]
    refine ⟨hs.exact.deleted args, settings_deleted s args, ?_, ?_⟩
    · refine (Evolves.refl s).record (extends_deleted s args) ?_ ?_
      · exact ⟨trivial, trivial⟩
      · rw [keyspace_deleted]
        rfl
    · intro f hf
      rw [List.mem_singleton.mp hf]
      refine ⟨?_, hcount, hparts⟩
      rintro rfl
      exact hremoved rfl

theorem steps_flushdb (s : KeyValueStore) (args : List Bytes) :
    Steps rd (Effects.flushdb args) s := by
  have hrun : (Effects.flushdb args).run s =
      (.ok ⟨[.dropAll], Resp.ok⟩, s.cleared) := rfl
  refine Fallible.Triple.of_ok hrun ⟨Exact.cleared s, rfl, ?_, ?_⟩
  · refine (Evolves.refl s).record (Clock.Extends.refl _) ?_ ?_
    · exact ⟨trivial, trivial⟩
    · rw [keyspace_cleared]
      rfl
  · intro f hf
    rw [List.mem_singleton.mp hf]
    trivial

end Removals

section Deadlines

variable {py rd : Interpreter} {s : KeyValueStore}

/-- A present key that has been settled is alive at the reading. -/
theorem alive_of_settled {key : Bytes}
    (hk : key ∈ (s.settled key).data) :
    ∃ e, (s.settled key).keyspace key = some e ∧ e.AliveAt s.clock.now := by
  cases he : (s.settled key).keyspace key with
  | none =>
      exact absurd hk (keyspace_eq_none_iff.mp he)
  | some e =>
      refine ⟨e, rfl, ?_⟩
      rw [keyspace_settled] at he
      simp only [collect, if_true] at he
      exact (liveEntry_eq_some_iff.mp he).2

theorem expires_lookup_drop_self (h : Exact s) (key : Bytes) :
    (s.drop key).expires.lookup key = none :=
  (h.drop key).expires_eq_none fun hk => (mem_data_drop.mp hk).1 rfl

/-- A deadline that lies ahead and fits 64 bits can be read back. -/
theorem reads_deadline {now ttl : Int} (hnow : rd.Reads now.natAbs)
    (hpos : 0 < ttl) (hfits : now + ttl ≤ int64Max) :
    rd.Reads (now + ttl).natAbs := by
  unfold int64Max at hfits
  rcases Int.le_total 0 (now + ttl) with hsign | hsign
  · exact rd.reads_of_le_word (by omega)
  · exact hnow.mono (by omega)

theorem steps_persist (hs : Serving rd s) (args : List Bytes) :
    Steps rd (Effects.persist args) s := by
  cases args with
  | nil =>
      exact steps_raise hs _
  | cons key rest =>
      have hrun := effect_persist_run hs.exact key rest
      split_ifs at hrun with hk
      · have hdata := (hs.exact.settled key).expires_mem key hk
        obtain ⟨e, he, halive⟩ := alive_of_settled hdata
        refine Fallible.Triple.of_ok hrun
          ⟨(hs.exact.settled key).popExpires key, by simp, ?_, ?_⟩
        · refine (evolves_settled s key).record
            (Clock.Extends.refl _) ?_ (keyspace_popExpires _ key)
          exact ⟨⟨e, he, halive⟩, trivial⟩
        · intro f hf
          rw [List.mem_singleton.mp hf]
          exact ((step_settled hs key).serving hs).readable key e he |>.key
      · exact steps_silent hrun (step_settled hs key)

/-- The outcomes of an `expire` request on a key and a number of seconds. -/
theorem effect_expire_run (h : Exact s) (key raw : Bytes)
    (rest : List Bytes) {seconds : Int}
    (hraw : parseInt py raw = .ok seconds) :
    (Effects.expire py (key :: raw :: rest)).run s =
      if key ∈ (s.settled key).data then
        if seconds * millisPerSecond ≤ 0 then
          (.ok ⟨[.drop [key]], Resp.encodeInteger 1⟩,
            (s.settled key).drop key)
        else if int64Max <
            (s.settled key).clock.now + seconds * millisPerSecond then
          (.ok ⟨[], Resp.encodeError
            "ERR invalid expire time in 'expire' command"⟩,
            (s.settled key).afterReading)
        else
          (.ok ⟨[.expireAt key ((s.settled key).clock.now +
              seconds * millisPerSecond)], Resp.encodeInteger 1⟩,
            (s.settled key).afterReading.setExpires key
              ((s.settled key).clock.now + seconds * millisPerSecond))
      else (.ok ⟨[], Resp.encodeInteger 0⟩, s.settled key) := by
  have hrun := expire_run h key (seconds * millisPerSecond)
  have hgone := expires_lookup_drop_self (h.settled key) key
  simp only [Effects.expire, Fallible.run_bind, hraw,
    Fallible.run_ofExcept_ok]
  by_cases hk : key ∈ (s.settled key).data
  · simp only [if_pos hk] at hrun ⊢
    by_cases hpos : seconds * millisPerSecond ≤ 0
    · simp only [if_pos hpos] at hrun ⊢
      rw [Effects.rescue_run_ok hrun]
      simp only [if_true, Fallible.run_bind, deadlineMs_run, hgone,
        Fallible.run_pure]
      rfl
    · simp only [if_neg hpos] at hrun ⊢
      by_cases hover : int64Max <
          (s.settled key).clock.now + seconds * millisPerSecond
      · simp only [if_pos hover] at hrun ⊢
        rw [Effects.rescue_run_invalid hrun]
        rfl
      · simp only [if_neg hover] at hrun ⊢
        rw [Effects.rescue_run_ok hrun]
        simp only [if_true, Fallible.run_bind, deadlineMs_run, setExpires,
          OrderedDict.lookup_set_self, Fallible.run_pure]
        rfl
  · simp only [if_neg hk] at hrun ⊢
    rw [Effects.rescue_run_ok hrun]
    rfl

theorem steps_expire (hs : Serving rd s) (hclock : Printable rd s.clock)
    {args : List Bytes} :
    Steps rd (Effects.expire py args) s := by
  rcases args with _ | ⟨key, _ | ⟨raw, rest⟩⟩
  · exact steps_raise hs _
  · exact steps_raise hs _
  · cases hraw : parseInt py raw with
    | error e =>
        have hrun : (Effects.expire py (key :: raw :: rest)).run s =
            (.error e, s) := by
          simp only [Effects.expire, Fallible.run_bind, hraw,
            Fallible.run_ofExcept_error]
        exact Fallible.Triple.of_error hrun (Step.refl hs)
    | ok seconds =>
        have hrun := effect_expire_run hs.exact key raw rest hraw
        have hsettled := hs.exact.settled key
        split_ifs at hrun with hk hpos hover
        · obtain ⟨e, he, -⟩ := alive_of_settled hk
          have hkey := ((step_settled hs key).serving hs).readable key e he
          refine Fallible.Triple.of_ok hrun
            ⟨hsettled.drop key, by simp, ?_, ?_⟩
          · refine (evolves_settled s key).record ?_ ⟨trivial, trivial⟩
              (keyspace_drop _ key)
            exact Clock.Extends.of_eq (sameSettings_drop _ key).clock
          · intro f hf
            rw [List.mem_singleton.mp hf]
            refine ⟨by simp, rd.reads_of_le_word (by simp), ?_⟩
            intro k hkmem
            rw [List.mem_singleton.mp hkmem]
            exact hkey.key
        · refine Fallible.Triple.of_ok hrun (Step.silent
            hsettled.afterReading (by simp) ?_)
          exact (evolves_settled s key).trans (evolves_afterReading _)
        · obtain ⟨e, he, halive⟩ := alive_of_settled hk
          have hkey := ((step_settled hs key).serving hs).readable key e he
          refine Fallible.Triple.of_ok hrun
            ⟨hsettled.afterReading.setExpires hk _, by simp, ?_, ?_⟩
          · refine (evolves_settled s key).record
              (Clock.extends_advance _) ?_ (keyspace_setExpires _ key _)
            exact ⟨⟨e, he, halive⟩, trivial⟩
          · intro f hf
            rw [List.mem_singleton.mp hf]
            refine ⟨hkey.key, reads_deadline ?_ (not_le.mp hpos)
              (not_lt.mp hover)⟩
            unfold Clock.now
            rw [(evolves_settled s key).clock.readings]
            exact hclock _
        · exact steps_silent hrun (step_settled hs key)

end Deadlines

section Writes

variable {py rd : Interpreter} {s t u : KeyValueStore}
variable {key value : Bytes} {victims : List Bytes}

/-- What an admission leaves: a collection, and then the victims gone. -/
theorem Admits.split (h : Admits s key value victims u) :
    ∃ w, Evolves s [] w ∧ u.clock = w.clock ∧
      (∀ v ∈ victims, v ∈ w.data) ∧
      u.keyspace = replay (victims.map (fun v => .drop [v])) w.keyspace := by
  cases h with
  | asIs _ =>
      exact ⟨s, Evolves.refl s, rfl, by simp, rfl⟩
  | evicting cursor _ hevicts =>
      refine ⟨s.reclaimed, evolves_reclaimed s, ?_, hevicts.mem, ?_⟩
      · exact (sameSettings_dropAll s.reclaimed victims).clock
      · rw [keyspace_relabel, keyspace_dropAll, replay_drops]

theorem grounded_write (fs : List Bytes) (key value : Bytes)
    (d : Option Int) (now : Int) (m : TimedMap Bytes Bytes Int) :
    GroundedLog now m
      (fs.map (fun v => .drop [v]) ++ [.put key value d]) := by
  apply groundedLog_of_forall
  intro f hf m'
  rcases List.mem_append.mp hf with hf | hf
  · obtain ⟨v, -, rfl⟩ := List.mem_map.mp hf
    trivial
  · rw [List.mem_singleton.mp hf]
    trivial

theorem readableFact_drop_singleton {k : Bytes} (hk : rd.Reads k.length) :
    ReadableFact rd (.drop [k]) := by
  refine ⟨by simp, rd.reads_of_le_word (by simp), ?_⟩
  intro j hj
  rw [List.mem_singleton.mp hj]
  exact hk

/-- The victims of an admission were readable, and so is what it leaves. -/
theorem readable_admitted (hs : Serving rd s) (hbefore : Evolves s [] t)
    (ha : Admits t key value victims u) :
    (∀ f ∈ victims.map (fun v => (Fact.drop [v] : Write)),
      ReadableFact rd f) ∧ ReadableMap rd u.keyspace := by
  obtain ⟨w, hw, -, hmem, hu⟩ := Admits.split ha
  have hreadable := hs.readable.of_evolves (hbefore.trans hw) (by simp)
  have hfacts : ∀ f ∈ victims.map (fun v => (Fact.drop [v] : Write)),
      ReadableFact rd f := by
    intro f hf
    obtain ⟨v, hv, rfl⟩ := List.mem_map.mp hf
    cases he : w.keyspace v with
    | none =>
        exact absurd (hmem v hv) (keyspace_eq_none_iff.mp he)
    | some e =>
        exact readableFact_drop_singleton (hreadable v e he).key
  refine ⟨hfacts, ?_⟩
  rw [hu]
  exact hreadable.replay hfacts

/-- An admitted write, however it treats the deadline, and its report. -/
theorem step_written (hs : Serving rd s) (hbefore : Evolves s [] t)
    (hsettings : t.settings = s.settings)
    (ha : Admits t key value victims u) {w : KeyValueStore}
    (hexact : Exact w) (hwsettings : w.settings = u.settings)
    (hclock : w.clock = u.clock)
    (hw : w.keyspace =
      (Fact.put key value (w.expires.lookup key)).apply u.keyspace)
    (hput : ReadableEntry rd key ⟨value, w.expires.lookup key⟩)
    (reply : Bytes) :
    Fallible.Triple (Effects.written key value reply) w
      (fun effect v => Step rd s effect.facts v)
      (fun _ v => Step rd s [] v) := by
  obtain ⟨w₀, hw₀, hclock₀, -, hu⟩ := Admits.split ha
  have hdrained : t.evicted = [] :=
    (congrArg Settings.evicted hsettings).trans hs.drained
  have husettings := Admits.settings ha
  have hevicted : w.evicted = victims := by
    have : w.evicted = t.evicted ++ victims :=
      congrArg Settings.evicted (hwsettings.trans husettings)
    rw [this, hdrained, List.nil_append]
  have hrun : (Effects.written key value reply).run w =
      (.ok ⟨victims.map (fun v => .drop [v]) ++
        [.put key value (w.expires.lookup key)], reply⟩,
        w.relabel w.evictCursor []) := by
    rw [← hevicted]
    rfl
  refine Fallible.Triple.of_ok hrun ⟨hexact.relabel _ _, ?_, ?_, ?_⟩
  · rw [settings_relabel, hwsettings, husettings, hsettings]
    simp [KeyValueStore.settings, hs.drained]
  · refine (hbefore.trans hw₀).record (Clock.Extends.of_eq ?_)
      (grounded_write victims key value _ _ _) ?_
    · exact hclock.trans hclock₀
    · rw [keyspace_relabel, hw, hu, replay_append]
      rfl
  · intro f hf
    rcases List.mem_append.mp hf with hf | hf
    · exact (readable_admitted hs hbefore ha).1 f hf
    · rw [List.mem_singleton.mp hf]
      exact hput

theorem expires_lookup_stored (s : KeyValueStore) (key value : Bytes)
    (d : Option Int) :
    (s.stored key value d).expires.lookup key = d := by
  cases d with
  | none =>
      exact OrderedDict.lookup_erase_self _ _
  | some d =>
      exact OrderedDict.lookup_set_self _ _ _

theorem keyspace_stored (s : KeyValueStore) (key value : Bytes)
    (d : Option Int) :
    (s.stored key value d).keyspace =
      (Fact.put key value d).apply s.keyspace := by
  unfold stored
  rw [keyspace_touch, keyspace_assign]

theorem clock_stored (s : KeyValueStore) (key value : Bytes)
    (d : Option Int) : (s.stored key value d).clock = s.clock := by
  cases d <;> rfl

theorem evolves_timing {ttl : Option Int} {r : Except Exc (Option Int)}
    (h : s.timing ttl = (r, t)) :
    Evolves s [] t ∧ t.settings = s.settings := by
  rcases timing_eq_or h with rfl | rfl
  · exact ⟨Evolves.refl _, rfl⟩
  · exact ⟨evolves_afterReading s, rfl⟩

/-- The deadline a `set` installs lies ahead and fits 64 bits. -/
theorem reads_timing (hclock : Printable rd s.clock) {ttl d : Option Int}
    (h : s.timing ttl = (.ok d, t)) :
    ∀ x, d = some x → rd.Reads x.natAbs := by
  intro x hx
  subst hx
  unfold timing at h
  split at h
  · cases h
  · next ttl =>
      split_ifs at h with hpos hover
      · cases h
      · cases h
      · cases h
        exact reads_deadline (hclock _) (not_le.mp hpos) (not_lt.mp hover)

theorem steps_set (hs : Serving rd s) (hclock : Printable rd s.clock)
    {args : List Bytes} (hparts : ∀ p ∈ args, rd.Reads p.length) :
    Steps rd (Effects.set py args) s := by
  rcases args with _ | ⟨key, _ | ⟨value, options⟩⟩
  · exact steps_raise hs _
  · exact steps_raise hs _
  · cases hopt : setOptions py options with
    | error e =>
        have hrun : (Effects.set py (key :: value :: options)).run s =
            (.error e, s) := by
          simp only [Effects.set, Fallible.run_bind, hopt,
            Fallible.run_ofExcept_error]
        exact Fallible.Triple.of_error hrun (Step.refl hs)
    | ok ttl =>
        cases ttl with
        | none =>
            have hrun : (Effects.set py (key :: value :: options)).run s =
                (.ok ⟨[], Resp.encodeError "ERR syntax error"⟩, s) := by
              simp only [Effects.set, Fallible.run_bind, hopt,
                Fallible.run_ofExcept_ok, Fallible.run_pure]
            exact steps_silent hrun (Step.refl hs)
        | some ttl =>
            obtain ⟨r, t, hsets, hset⟩ := set_run hs.exact key value ttl
            have ht := hsets.exact hs.exact
            have hrescue :
                (Effects.set py (key :: value :: options)).run s =
                (Effects.rescueInvalidExpire "set"
                  (KeyValueStore.set key value ttl)
                  fun _ => Effects.written key value Resp.ok).run s := by
              simp only [Effects.set, Fallible.run_bind, hopt,
                Fallible.run_ofExcept_ok]
            unfold Steps Fallible.Triple
            rw [hrescue]
            cases hsets with
            | untimely htiming =>
                obtain ⟨hevolves, hsettings⟩ := evolves_timing htiming
                rw [Effects.rescue_run_invalid hset]
                exact Step.silent ht hsettings hevolves
            | refused htiming _ =>
                obtain ⟨hevolves, hsettings⟩ := evolves_timing htiming
                rw [Effects.rescue_run_error hset (by simp)]
                exact Step.silent ht hsettings hevolves
            | @stored d t u victims htiming _ ha =>
                obtain ⟨hevolves, hsettings⟩ := evolves_timing htiming
                rw [Effects.rescue_run_ok hset]
                have hd := expires_lookup_stored u key value d
                refine step_written hs hevolves hsettings ha ht ?_
                  (clock_stored u key value d) ?_ ?_ Resp.ok
                · simp [KeyValueStore.stored]
                · rw [hd, keyspace_stored]
                · rw [hd]
                  exact ⟨hparts key (by simp), hparts value (by simp),
                    reads_timing hclock htiming⟩

theorem counter_ok_bound {n : Int} (h : s.counter py key = .ok n) :
    int64Min ≤ n := by
  unfold counter at h
  split at h
  · cases h
    decide
  · exact (parseInt_ok_bounds h).1

/-- What an `incr` writes: a number of 64 bits under the deadline the key had
before. -/
theorem readable_rewritten (hs : Serving rd s) (hbefore : Evolves s [] t)
    (ht : Exact t) {n : Int} (ha : Admits t key (str (n + 1)) victims u)
    (hkey : rd.Reads key.length) (hlow : int64Min ≤ n)
    (hfits : n + 1 ≤ int64Max) :
    ReadableEntry rd key ⟨str (n + 1), u.expires.lookup key⟩ := by
  unfold int64Min at hlow
  unfold int64Max at hfits
  refine ⟨hkey, ?_, ?_⟩
  · exact (rd.reads_of_le_word (by omega)).length_str
  · intro d hd
    have hmem := (ha.exact ht).mem_of_deadline hd
    obtain ⟨v, hv⟩ := OrderedDict.exists_lookup_of_mem hmem
    have he : u.keyspace key = some ⟨v, some d⟩ :=
      keyspace_eq_some_iff.mpr ⟨hv, hd⟩
    exact ((readable_admitted hs hbefore ha).2 key _ he).deadline d rfl

theorem steps_incr (hs : Serving rd s) {args : List Bytes}
    (hparts : ∀ p ∈ args, rd.Reads p.length) :
    Steps rd (Effects.incr py args) s := by
  cases args with
  | nil =>
      exact steps_raise hs _
  | cons key rest =>
      obtain ⟨r, t, hincrs, hincr⟩ := incr_run hs.exact py key
      have ht := hincrs.exact hs.exact
      have hevolves := evolves_settled s key
      have hsettings := settings_settled s key
      unfold Steps Fallible.Triple
      simp only [Effects.incr, Fallible.run_bind, hincr]
      cases hincrs with
      | malformed _ =>
          exact Step.silent ht hsettings hevolves
      | overflow _ _ =>
          exact Step.silent ht hsettings hevolves
      | refused _ _ _ =>
          exact Step.silent ht hsettings hevolves
      | @stored n u victims hn hfits _ ha =>
          refine step_written hs hevolves hsettings ha ht (by
            simp [rewritten]) rfl ?_ ?_ _
          · exact keyspace_write u key (str (n + 1))
          · exact readable_rewritten (u := u) hs hevolves
              (hs.exact.settled key) ha (hparts key (by simp))
              (counter_ok_bound hn) hfits

end Writes

section Requests

variable {py rd : Interpreter} {s : KeyValueStore}

/-- Every command of the table takes a step. -/
theorem steps_effect (hs : Serving rd s) (hclock : Printable rd s.clock)
    {name : Bytes} {args : List Bytes}
    (hreq : ReadableRequest rd (name :: args)) {c : StoreCommand}
    (hc : lookupEffect py name = some c) :
    Steps rd (c.effect args) s := by
  have hparts : ∀ p ∈ args, rd.Reads p.length :=
    fun p hp => hreq.part p (List.mem_cons_of_mem _ hp)
  apply lookupEffect_cases (motive := fun c => Steps rd (c.effect args) s) hc
  case ping =>
    exact steps_ping hs args
  case set =>
    exact steps_set hs hclock hparts
  case get =>
    exact steps_get hs args
  case expire =>
    exact steps_expire hs hclock
  case ttl =>
    exact steps_ttl hs args
  case persist =>
    exact steps_persist hs args
  case delete =>
    exact steps_delete hs hreq.count hparts
  case «exists» =>
    exact steps_exists hs args
  case incr =>
    exact steps_incr hs hparts
  case dbsize =>
    exact steps_dbsize hs args
  case flushdb =>
    exact steps_flushdb s args

/-- **Every request takes a step**, whatever it asks for. -/
theorem steps_execute (hs : Serving rd s) (hclock : Printable rd s.clock)
    {request : List Bytes} (hreq : ReadableRequest rd request) :
    Steps rd (execute py request) s := by
  cases request with
  | nil =>
      exact steps_raise hs _
  | cons name args =>
      obtain hc | ⟨c, hc⟩ := (lookupEffect py name).eq_none_or_eq_some
      · have hrun : execute py (name :: args) =
            pure ⟨[], Resp.encodeError (unknownCommand name args)⟩ := by
          simp only [execute, hc]
        rw [hrun]
        exact Fallible.Triple.pure (Step.refl hs)
      · simp only [execute, hc]
        split_ifs
        · exact Fallible.Triple.pure (Step.refl hs)
        · refine Fallible.Triple.catching
            (steps_effect hs hclock hreq hc) ?_
          intro e t ht
          cases errorReply e with
          | some reply =>
              exact Fallible.Triple.pure ht
          | none =>
              exact Fallible.Triple.raise ht

/-- A sweep takes a step that records nothing. -/
theorem step_sweepExpired (hs : Serving rd s) (limit : Nat) :
    ∃ n t, (sweepExpired limit).run s = (.ok n, t) ∧ Step rd s [] t := by
  obtain ⟨keys, cursor, -, hkeys, hrun⟩ := sweepExpired_run hs.exact limit
  refine ⟨_, _, hrun, Step.silent ?_ ?_ ?_⟩
  · exact (hs.exact.afterReading.dropAll keys).moveSweep cursor
  · simp
  · exact (evolves_dropAll hkeys).frame rfl rfl

end Requests

end Commands
end PyRedis
