import PyRedis.Theory.IntegerParsing
import PyRedis.Theory.ReferenceMachine

/-!
# Expiration cannot be observed

Without a memory limit the server answers as a machine does that removes every
entry the moment its deadline arrives.  The store may hold any number of
expired entries, and each command collects what it has to before it answers:
what the store shows at the time of an event is what the machine holds.
-/

namespace PyRedis

open Foundation

namespace KeyValueStore

variable {s t : KeyValueStore} {m : Reference} {now : Int} {key : Bytes}

section Showing

/-- The store shows what the machine holds, and may hold what has expired. -/
structure Shows (now : Int) (s : KeyValueStore) (m : Reference) : Prop where
  exact : Exact s
  stands : StandsAt now s
  free : s.maxmemory = 0
  entries : ∀ k, liveEntry now (s.keyspace k) = m.lookup k

theorem Shows.agree (h : Shows now s m) :
    AgreeAt now s.keyspace m.lookup := by
  rw [agreeAt_iff]
  intro k
  rw [← h.entries, liveEntry_idem le_rfl]

/-- Expired entries may be thrown away. -/
theorem Shows.collected (h : Shows now s m)
    {f : KeyValueStore → KeyValueStore} (hf : Collecting f) :
    Shows now (f s) m where
  exact := hf.exact h.exact
  stands := h.stands.of_settings (hf.thins s).settings
  free := (congrArg Settings.maxmemory (hf.thins s).settings).trans h.free
  entries := by
    have hagree := (hf.evolves s).agreeAt
      (h.stands.of_settings (hf.thins s).settings)
    intro k
    rw [agreeAt_iff.mp hagree k, h.entries]

theorem Shows.settled (h : Shows now s m) (key : Bytes) :
    Shows now (s.settled key) m :=
  h.collected (collecting_settled key)

/-- A key that has been settled has the machine's entry. -/
theorem Shows.entry_settled (h : Shows now s m) (key : Bytes) :
    (s.settled key).keyspace key = m.lookup key := by
  rw [keyspace_settled, h.stands.now_eq, ← h.entries key]
  simp [collect]

theorem Shows.lookup_settled (h : Shows now s m) (key : Bytes) :
    (s.settled key).data.lookup key = (m.lookup key).map Timed.value := by
  rw [data_lookup_eq, h.entry_settled]

theorem Shows.deadline_settled (h : Shows now s m) (key : Bytes) :
    (s.settled key).expires.lookup key =
      (m.lookup key).bind Timed.deadline := by
  rw [(h.exact.settled key).expires_lookup_eq, h.entry_settled]

theorem Shows.mem_settled (h : Shows now s m) (key : Bytes) :
    key ∈ (s.settled key).data ↔ key ∈ m := by
  rw [← OrderedDict.lookup_isSome_iff, ← OrderedDict.lookup_isSome_iff,
    h.lookup_settled, Option.isSome_map]

/-- An entry that the machine holds is alive. -/
theorem Shows.alive (h : Shows now s m) {e : Timed Bytes Int}
    (he : m.lookup key = some e) :
    (s.settled key).keyspace key = some e ∧ e.AliveAt now := by
  refine ⟨(h.entry_settled key).trans he, ?_⟩
  rw [← h.entries] at he
  exact (liveEntry_eq_some_iff.mp he).2

/-- A key that is removed from both. -/
theorem Shows.drop (h : Shows now s m) (key : Bytes) :
    Shows now (s.drop key) (m.erase key) where
  exact := h.exact.drop key
  stands := h.stands.of_settings (settings_drop s key)
  free := (congrArg Settings.maxmemory (settings_drop s key)).trans h.free
  entries := by
    intro k
    rw [keyspace_drop, Reference.lookup_erase_eq]
    simp only [Fact.apply, Fact.actOn]
    split_ifs
    · rfl
    · exact h.entries k

/-- The deadline of a SET is the machine's. -/
theorem Shows.timing (h : Shows now s m) (ttl : Option Int) :
    ∃ t, Shows now t m ∧
      s.timing ttl =
        (match ttl with
          | none => .ok none
          | some ms =>
              match Reference.deadline now ms with
              | none => .error (.store .invalidExpire)
              | some d => .ok (some d), t) := by
  have hread := h.collected collecting_reading
  cases ttl with
  | none =>
      exact ⟨s, h, rfl⟩
  | some ms =>
      simp only [KeyValueStore.timing, h.stands.now_eq]
      by_cases hpos : ms ≤ 0
      · have hnone : Reference.deadline now ms = none :=
          if_neg fun hfits => absurd hfits.1 (not_lt.mpr hpos)
        rw [if_pos hpos, hnone]
        exact ⟨s, h, rfl⟩
      · rw [if_neg hpos]
        by_cases hover : int64Max < now + ms
        · have hnone : Reference.deadline now ms = none :=
            if_neg fun hfits => absurd hfits.2 (not_le.mpr hover)
          rw [if_pos hover, hnone]
          exact ⟨_, hread, rfl⟩
        · have hsome : Reference.deadline now ms = some (now + ms) :=
            if_pos ⟨not_le.mp hpos, not_lt.mp hover⟩
          rw [if_neg hover, hsome]
          exact ⟨_, hread, rfl⟩

theorem Shows.not_refuses (h : Shows now s m) (key value : Bytes) :
    ¬ s.Refuses key value :=
  fun hr => hr.1 h.free

/-- Without a limit every write is let in as it is. -/
theorem Outcome.free {value : Bytes} {r : Except Exc Unit}
    {victims : List Bytes} (h : Outcome s key value r victims t)
    (hfree : s.maxmemory = 0) : t = s := by
  cases h with
  | refused _ =>
      rfl
  | fits _ =>
      rfl
  | evicting _ hlimit _ _ =>
      exact absurd hfree hlimit

end Showing

end KeyValueStore

namespace Commands

open KeyValueStore

variable {s t : KeyValueStore} {m m' : Reference} {now : Int}

section Reading

/-- Of the texts that are read, the exact interpreter refuses none. -/
theorem parseInt_exact {raw : Bytes} {e : Exc}
    (h : parseInt .exact raw = .error e) : e = .store .notAnInteger := by
  rcases parseInt_error h with rfl | rfl
  · obtain ⟨n, -, hreads⟩ := parseInt_eq_value_iff.mp h
    exact absurd (reads_exact n.natAbs) hreads
  · rfl

theorem setOptions_error {options : List Bytes} {e : Exc}
    (h : setOptions .exact options = .error e) :
    e = .store .notAnInteger := by
  rcases options with _ | ⟨option, _ | ⟨raw, _ | ⟨more, rest⟩⟩⟩
  · cases h
  · cases h
  · simp only [setOptions] at h
    rcases hraw : parseInt .exact raw with e' | n
    · rw [hraw] at h
      split_ifs at h
      · cases h
        exact parseInt_exact hraw
      · cases h
        exact parseInt_exact hraw
    · rw [hraw] at h
      split_ifs at h
      · cases h
      · cases h
  · cases h

theorem keyed_ne_raise {f : Bytes → Plan} {args : List Bytes} {e : Exc}
    (hf : ∀ key, f key ≠ .raise e) (hargs : ¬ args.length < 1) :
    Plans.keyed f args ≠ .raise e := by
  cases args with
  | nil =>
      exact absurd Nat.zero_lt_one hargs
  | cons key rest =>
      exact hf key

/-- Reading a request fails only on an argument that is no integer. -/
theorem entry_raise {name : Bytes} {c : PlannedCommand} {args : List Bytes}
    {e : Exc} (hmem : (name, c) ∈ planTable .exact)
    (harity : ¬ args.length < c.minArgs) (h : c.plan args = .raise e) :
    e = .store .notAnInteger := by
  simp only [planTable, List.mem_cons, List.not_mem_nil, or_false,
    Prod.mk.injEq] at hmem
  rcases hmem with ⟨-, rfl⟩ | ⟨-, rfl⟩ | ⟨-, rfl⟩ | ⟨-, rfl⟩ | ⟨-, rfl⟩ |
    ⟨-, rfl⟩ | ⟨-, rfl⟩ | ⟨-, rfl⟩ | ⟨-, rfl⟩ | ⟨-, rfl⟩ | ⟨-, rfl⟩
  · cases args <;> cases h
  · rcases args with _ | ⟨key, _ | ⟨value, options⟩⟩
    · simp at harity
    · simp at harity
    · simp only [Plans.set] at h
      rcases ho : setOptions .exact options with e' | _ | ttlMs
      · rw [ho] at h
        cases h
        exact setOptions_error ho
      · rw [ho] at h
        cases h
      · rw [ho] at h
        cases h
  · exact absurd h (keyed_ne_raise (fun _ => by simp) harity)
  · rcases args with _ | ⟨key, _ | ⟨raw, rest⟩⟩
    · simp at harity
    · simp at harity
    · simp only [Plans.expire] at h
      rcases hraw : parseInt .exact raw with e' | n
      · rw [hraw] at h
        cases h
        exact parseInt_exact hraw
      · rw [hraw] at h
        cases h
  · exact absurd h (keyed_ne_raise (fun _ => by simp) harity)
  · exact absurd h (keyed_ne_raise (fun _ => by simp) harity)
  · cases h
  · cases h
  · exact absurd h (keyed_ne_raise (fun _ => by simp) harity)
  · cases h
  · cases h

theorem plan_raise {name : Bytes} {args : List Bytes} {e : Exc}
    (h : plan .exact (name :: args) = .raise e) :
    e = .store .notAnInteger := by
  simp only [plan] at h
  cases hc : (planTable .exact).lookup (upper name) with
  | none =>
      rw [hc] at h
      cases h
  | some c =>
      obtain ⟨l, l', hl, -⟩ := List.lookup_eq_some_iff.mp hc
      have hmem : (upper name, c) ∈ planTable .exact := by
        rw [hl]
        simp
      rw [hc] at h
      simp only at h
      split_ifs at h with harity
      refine entry_raise hmem (fun hless => harity ?_) h
      simp [PlannedCommand.wrongArity, hless]

end Reading

section Answers

/-- The request gets the machine's answer, and the store then shows what the
machine holds. -/
def Answers (now : Int) (s : KeyValueStore) (m : Reference) (p : Plan) :
    Prop :=
  ∃ effect t, (p.effect .exact).run s = (.ok effect, t) ∧
    effect.reply = (Reference.act now m p).1 ∧
    AgreeAt now t.keyspace (Reference.act now m p).2.lookup

theorem answers_of {p : Plan} {effect : Effect}
    (hrun : (p.effect .exact).run s = (.ok effect, t))
    (hact : Reference.act now m p = (effect.reply, m'))
    (hagree : AgreeAt now t.keyspace m'.lookup) : Answers now s m p := by
  refine ⟨effect, t, hrun, ?_, ?_⟩
  · rw [hact]
  · rw [hact]
    exact hagree

theorem answers_raise (h : Shows now s m) :
    Answers now s m (.raise (.store .notAnInteger)) := by
  have hrun : ((Plan.raise (.store .notAnInteger)).effect .exact).run s =
      (.ok ⟨[], storeErrorReply .notAnInteger⟩, s) :=
    Plan.effect_run_reply rfl rfl
  exact answers_of hrun rfl h.agree

theorem answers_get (h : Shows now s m) (key : Bytes) :
    Answers now s m (.get key) := by
  have hrun : ((Plan.get key).effect .exact).run s =
      (.ok ⟨[], Effects.getReply ((s.settled key).data.lookup key)⟩,
        s.gotten key) :=
    Plan.effect_run_ok (effect_get_run h.exact key [])
  have hkeyspace : (s.gotten key).keyspace = (s.settled key).keyspace := by
    unfold gotten
    split_ifs
    · exact keyspace_touch _ _
    · rfl
  have hagree := (h.settled key).agree
  rw [← hkeyspace] at hagree
  refine answers_of hrun ?_ hagree
  rw [h.lookup_settled]
  simp only [Reference.act, Reference.get]
  cases m.lookup key <;> rfl

theorem answers_ttl (h : Shows now s m) (key : Bytes) :
    Answers now s m (.ttl key) := by
  have hrun : ((Plan.ttl key).effect .exact).run s = _ :=
    Plan.effect_run_ok (effect_ttl_run h.exact key [])
  have hi := h.collected (collecting_inspected key)
  refine answers_of hrun ?_ hi.agree
  have hentry : (s.inspected key).keyspace key = m.lookup key := by
    unfold inspected
    rw [keyspace_settledAt, keyspace_afterReading, h.stands.now_eq,
      ← h.entries key]
    simp [collect]
  have hmem : key ∈ (s.inspected key).data ↔ (m.lookup key).isSome := by
    rw [← OrderedDict.lookup_isSome_iff, data_lookup_eq, hentry,
      Option.isSome_map]
  simp only [hi.exact.expires_lookup_eq, hentry, h.stands.now_eq, hmem,
    Reference.act, Reference.ttl]
  rcases m.lookup key with _ | ⟨value, _ | d⟩ <;> rfl

theorem present_eq (h : Shows now s m) (keys : List Bytes) :
    s.present keys = (keys.filter (· ∈ m)).length := by
  induction keys generalizing s with
  | nil =>
      rfl
  | cons key keys ih =>
      rw [present, ih (h.settled key), List.filter_cons]
      simp only [h.mem_settled key]
      by_cases hk : key ∈ m
      · simp [hk, Nat.add_comm]
      · simp [hk]

theorem answers_exists (h : Shows now s m) (keys : List Bytes) :
    Answers now s m (.exists keys) := by
  have hrun : ((Plan.exists keys).effect .exact).run s = _ :=
    Plan.effect_run_ok (effect_exists_run h.exact keys)
  refine answers_of hrun ?_ (h.collected (collecting_looked keys)).agree
  simp only [present_eq h, Reference.act, Reference.exists]

theorem answers_dbsize (h : Shows now s m) : Answers now s m .dbsize := by
  have hrun : (Plan.dbsize.effect .exact).run s = _ :=
    Plan.effect_run_ok (effect_dbsize_run h.exact [])
  refine answers_of hrun ?_ (h.collected collecting_reclaimed).agree
  have hsize : s.reclaimed.data.size = m.size := by
    refine OrderedDict.size_eq_of_mem_iff fun k => ?_
    rw [← OrderedDict.lookup_isSome_iff, ← OrderedDict.lookup_isSome_iff,
      data_lookup_eq, Option.isSome_map, keyspace_reclaimed, h.stands.now_eq,
      live, h.entries]
  simp only [hsize, Reference.act]

theorem removed_eq (h : Shows now s m) (keys : List Bytes) :
    s.removed keys = (keys.toFinset.filter (· ∈ m)).card := by
  induction keys generalizing s m with
  | nil =>
      rfl
  | cons key keys ih =>
      rw [removed, ih ((h.settled key).drop key),
        Reference.card_present]
      simp only [h.mem_settled key]

theorem answers_delete (h : Shows now s m) (keys : List Bytes) :
    Answers now s m (.delete keys) := by
  have hrun : ((Plan.delete keys).effect .exact).run s = _ :=
    Plan.effect_run_ok (effect_delete_run h.exact keys)
  have hagree : AgreeAt now (s.deleted keys).keyspace
      (keys.foldl OrderedDict.erase m).lookup := by
    rw [keyspace_deleted, Reference.lookup_foldl_erase]
    exact h.agree.drop keys
  refine answers_of hrun ?_ hagree
  simp only [removed_eq h, Reference.act, Reference.delete]

theorem answers_flushdb (s : KeyValueStore) (m : Reference) :
    Answers now s m .flushdb :=
  answers_of (Plan.effect_run_ok rfl) rfl rfl

theorem answers_persist (h : Shows now s m) (key : Bytes) :
    Answers now s m (.persist key) := by
  have hrun := effect_persist_run h.exact key []
  have hagree := (h.settled key).agree
  have hmem : key ∈ (s.settled key).expires ↔
      ((m.lookup key).bind Timed.deadline).isSome := by
    rw [← OrderedDict.lookup_isSome_iff, h.deadline_settled]
  rcases hm : m.lookup key with _ | ⟨value, _ | d⟩
  · rw [if_neg (by simp [hmem, hm])] at hrun
    refine answers_of (Plan.effect_run_ok hrun) ?_ hagree
    simp only [Reference.act, Reference.persist, hm]
  · rw [if_neg (by simp [hmem, hm])] at hrun
    refine answers_of (Plan.effect_run_ok hrun) ?_ hagree
    simp only [Reference.act, Reference.persist, hm]
  · rw [if_pos (by simp [hmem, hm])] at hrun
    obtain ⟨hentry, halive⟩ := h.alive hm
    have hcleared : AgreeAt now ((s.settled key).popExpires key).keyspace
        (OrderedDict.set m key ⟨value, none⟩).lookup := by
      rw [keyspace_popExpires, Reference.lookup_clear_deadline hm]
      exact hagree.persist hagree hentry halive
    refine answers_of (Plan.effect_run_ok hrun) ?_ hcleared
    simp only [Reference.act, Reference.persist, hm]

theorem answers_expire (h : Shows now s m) (key : Bytes) (ms : Int) :
    Answers now s m (.expire key ms) := by
  have hrun := @expire_effect_run .exact s h.exact key ms
  have hsettled := h.settled key
  have hmem := h.mem_settled key
  rw [hsettled.stands.now_eq] at hrun
  cases hm : m.lookup key with
  | none =>
      rw [if_neg (hmem.not.mpr (OrderedDict.lookup_eq_none_iff.mp hm))] at hrun
      refine answers_of hrun ?_ hsettled.agree
      simp only [Reference.act, Reference.expire, hm]
  | some e =>
      rw [if_pos (hmem.mpr (OrderedDict.mem_of_lookup hm))] at hrun
      obtain ⟨hentry, halive⟩ := h.alive hm
      split_ifs at hrun with hpos hover
      · refine answers_of hrun ?_ (hsettled.drop key).agree
        simp only [Reference.act, Reference.expire, hm, if_pos hpos]
      · refine answers_of hrun ?_
          (hsettled.collected collecting_reading).agree
        have hnone : Reference.deadline now ms = none :=
          if_neg fun hfits => absurd hfits.2 (not_le.mpr hover)
        simp only [Reference.act, Reference.expire, hm, if_neg hpos, hnone]
      · have hsome : Reference.deadline now ms = some (now + ms) :=
          if_pos ⟨not_le.mp hpos, not_lt.mp hover⟩
        have hread := (hsettled.collected collecting_reading).agree
        have hset : AgreeAt now ((s.settled key).afterReading.setExpires key
              (now + ms)).keyspace
            (OrderedDict.set m key ⟨e.value, some (now + ms)⟩).lookup := by
          rw [keyspace_setExpires, Reference.lookup_set_deadline hm]
          exact hread.expireAt hread hentry halive (now + ms)
        refine answers_of hrun ?_ hset
        simp only [Reference.act, Reference.expire, hm, if_neg hpos, hsome]

/-- A SET with a deadline that is valid, or without one. -/
theorem stored_agrees (h : Shows now s m) (ht : Shows now t m)
    {key value : Bytes} {ttl d : Option Int}
    (htiming : s.timing ttl = (.ok d, t))
    (hact : Reference.act now m (.set key value ttl) =
      (Resp.ok, OrderedDict.set m key ⟨value, d⟩)) :
    Answers now s m (.set key value ttl) := by
  obtain ⟨victims, u, houtcome, hrun⟩ :=
    @set_effect_stored .exact s t key value h.exact ttl d htiming
      (ht.not_refuses key value)
  obtain rfl := houtcome.free ht.free
  refine answers_of hrun hact ?_
  rw [Reference.lookup_set_eq]
  exact (keyspace_stored u key value d).symm ▸ ht.agree.put key value d

theorem answers_set (h : Shows now s m) (key value : Bytes)
    (ttl : Option Int) : Answers now s m (.set key value ttl) := by
  obtain ⟨t, ht, htiming⟩ := h.timing ttl
  cases ttl with
  | none =>
      exact stored_agrees h ht htiming rfl
  | some ms =>
      cases hd : Reference.deadline now ms with
      | none =>
          simp only [hd] at htiming
          obtain ⟨_, _, hsets, hrun⟩ :=
            @set_effect_run .exact s h.exact key value (some ms)
          obtain ⟨rfl, rfl⟩ := hsets.eq_of_untimely htiming
          refine answers_of hrun ?_ ht.agree
          simp only [Reference.act, Reference.set, hd]
      | some d =>
          simp only [hd] at htiming
          refine stored_agrees h ht htiming ?_
          simp only [Reference.act, Reference.set, hd]

/-- The number an INCR starts from. -/
theorem counter_eq (h : Shows now s m) (key : Bytes) :
    (s.settled key).counter .exact key =
      match m.lookup key with
      | none => .ok 0
      | some e => parseInt .exact e.value := by
  unfold counter
  rw [h.lookup_settled]
  cases m.lookup key <;> rfl

/-- An INCR of a number that can be incremented. -/
theorem incremented_agrees (h : Shows now s m) {key : Bytes} {n : Int}
    (hn : (s.settled key).counter .exact key = .ok n)
    (hfits : n + 1 ≤ int64Max)
    (hact : Reference.act now m (.incr key) =
      (Resp.encodeInteger (n + 1), OrderedDict.set m key
        ⟨str (n + 1), (m.lookup key).bind Timed.deadline⟩)) :
    Answers now s m (.incr key) := by
  have hsettled := h.settled key
  obtain ⟨victims, u, houtcome, hrun⟩ := incr_effect_stored h.exact hn hfits
    (hsettled.not_refuses key _)
  obtain rfl := houtcome.free hsettled.free
  refine answers_of hrun hact ?_
  have hkeyspace := keyspace_rewritten (s.settled key) key (str (n + 1))
  rw [h.deadline_settled] at hkeyspace
  rw [Reference.lookup_set_eq]
  exact hkeyspace ▸ hsettled.agree.put key _ _

theorem answers_incr (h : Shows now s m) (key : Bytes) :
    Answers now s m (.incr key) := by
  have hcounter := counter_eq h key
  have hsettled := h.settled key
  cases hm : m.lookup key with
  | none =>
      rw [hm] at hcounter
      refine incremented_agrees h hcounter (by decide) ?_
      simp only [Reference.act, Reference.incr, hm]
      rfl
  | some e =>
      rw [hm] at hcounter
      simp only at hcounter
      obtain ⟨_, _, hincrs, hrun⟩ := @incr_effect_run .exact s h.exact key
      cases hn : parseInt .exact e.value with
      | error e' =>
          rw [hn] at hcounter
          obtain rfl := parseInt_exact hn
          obtain ⟨rfl, rfl⟩ := hincrs.eq_of_unread hcounter
          refine answers_of hrun ?_ hsettled.agree
          simp only [Reference.act, Reference.incr, hm, Reference.number, hn]
          rfl
      | ok n =>
          rw [hn] at hcounter
          by_cases hover : int64Max < n + 1
          · obtain ⟨rfl, rfl⟩ := hincrs.eq_of_overflow hcounter hover
            refine answers_of hrun ?_ hsettled.agree
            simp only [Reference.act, Reference.incr, hm, Reference.number,
              hn, Except.toOption, if_pos hover]
            rfl
          · refine incremented_agrees h hcounter (not_lt.mp hover) ?_
            simp only [Reference.act, Reference.incr, hm, Reference.number,
              hn, Except.toOption, if_neg hover, Option.bind_some]

/-- **Every request gets the machine's answer.** -/
theorem answers_plan (h : Shows now s m) (p : Plan)
    (hraise : ∀ e, p = .raise e → e = .store .notAnInteger) :
    Answers now s m p := by
  cases p with
  | answer reply =>
      have hrun : ((Plan.answer reply).effect .exact).run s =
          (.ok ⟨[], reply⟩, s) := rfl
      exact answers_of hrun rfl h.agree
  | raise e =>
      obtain rfl := hraise e rfl
      exact answers_raise h
  | set key value ttlMs =>
      exact answers_set h key value ttlMs
  | get key =>
      exact answers_get h key
  | expire key ttlMs =>
      exact answers_expire h key ttlMs
  | ttl key =>
      exact answers_ttl h key
  | persist key =>
      exact answers_persist h key
  | delete keys =>
      exact answers_delete h keys
  | «exists» keys =>
      exact answers_exists h keys
  | incr key =>
      exact answers_incr h key
  | dbsize =>
      exact answers_dbsize h
  | flushdb =>
      exact answers_flushdb s m

end Answers

end Commands

namespace Server

open Commands KeyValueStore

variable {J : Type} [Journal J] {s : KeyValueStore} {j : J}
variable {m : Reference} {now : Int}

section Runs

/-- Journals that take every record they are given. -/
structure Accepting (P : J → Prop) : Prop where
  works : ∀ j, P j → Journal.failed j = false
  append : ∀ j record, P j →
    ∃ j', (Journal.append record).run j = (.ok (), j') ∧ P j'

theorem accepting_nullJournal : Accepting fun _ : NullJournal => True where
  works _ _ := rfl
  append j _ _ := ⟨j, rfl, trivial⟩

theorem Accepting.recordAll {P : J → Prop} (h : Accepting P)
    (facts : List Write) (hj : P j) :
    ∃ j', (recordAll facts).run j = (.ok (), j') ∧ P j' := by
  induction facts generalizing j with
  | nil =>
      exact ⟨j, rfl, hj⟩
  | cons f facts ih =>
      obtain ⟨j', hrun, hj'⟩ := h.append j (encodeFact f) hj
      obtain ⟨j'', hrest, hj''⟩ := ih hj'
      refine ⟨j'', ?_, hj''⟩
      have hcons : (Commands.recordAll (f :: facts)).run j =
          (Commands.recordAll facts).run j' := by
        simp only [Commands.recordAll, Fallible.forEach, Fallible.run_bind]
        rw [hrun]
      rw [hcons, hrest]

/-- A request as a client sends it, or a sweep. -/
def Served : Event → Prop
  | .request parts => parts ≠ []
  | .sweep _ => True
  | .fsync => False

instance (event : Event) : Decidable (Served event) :=
  match event with
  | .request parts => inferInstanceAs (Decidable (parts ≠ []))
  | .sweep _ => isTrue trivial
  | .fsync => isFalse id

/-- A server at rest, and what a machine holds that was last told the time
`now`. -/
structure Matches (policy : MaxmemoryPolicy) (now : Int) (s : KeyValueStore)
    (m : Reference) : Prop where
  resting : Resting 0 policy s
  agree : AgreeAt now s.keyspace m.lookup

variable {policy : MaxmemoryPolicy}

/-- The machine purges what the store may go on holding. -/
theorem Matches.shows (h : Matches policy now s m) {later : Int}
    (hle : now ≤ later) :
    Shows later (s.atClock (.frozen later)) (Reference.purge later m) where
  exact := h.resting.exact.atClock _
  stands := rfl
  free := h.resting.maxmemory
  entries := by
    intro k
    have hk := congrArg (liveEntry later) (agreeAt_iff.mp h.agree k)
    rw [liveEntry_idem hle, liveEntry_idem hle] at hk
    rw [Reference.lookup_purge]
    exact hk

theorem Resting.atClock (h : Resting 0 policy s) (clock : Clock) :
    Resting 0 policy (s.atClock clock) :=
  ⟨h.exact.atClock clock, h.drained, h.maxmemory, h.policy⟩

/-- The replies to the events of a script. -/
def replies (py : Interpreter) (state : KeyValueStore × J) :
    List Moment → List (Except Exc (Option Bytes))
  | [] => []
  | moment :: script =>
      (turn py state moment).1 :: replies py (turn py state moment).2 script

/-- **One event.** -/
theorem Matches.turn {P : J → Prop} (hP : Accepting P) (hj : P j)
    (h : Matches policy now s m) {moment : Moment}
    (hle : now ≤ moment.now) (hserved : Served moment.event) :
    ∃ s' j', Server.turn .exact (s, j) moment =
        (.ok (Reference.step m moment).1, (s', j')) ∧ P j' ∧
      Matches policy moment.now s' (Reference.step m moment).2 := by
  have hshows := h.shows hle
  have hresting := Resting.atClock h.resting (.frozen moment.now)
  obtain ⟨later, event⟩ := moment
  cases event with
  | request parts =>
      cases parts with
      | nil =>
          exact absurd rfl hserved
      | cons name args =>
          obtain ⟨effect, t, hrun, hreply, hagree⟩ :=
            answers_plan hshows (plan .exact (name :: args))
              fun e => plan_raise
          have haway : ¬ turnedAway .exact
              (s.atClock (.frozen later), j)
                (.request (name :: args)) = true := by
            simp [turnedAway, hP.works j hj]
          obtain ⟨j', hrecord, hj'⟩ := hP.recordAll effect.facts hj
          have hafter :=
            (@preserves_resting_execute .exact 0 policy
              (name :: args)).state_after hresting
          rw [execute_eq_plan, hrun] at hafter
          refine ⟨t, j', ?_, hj', hafter, hagree⟩
          unfold Server.turn atMoment
          rw [handle_request_run haway hrun]
          simp only [committed, hrecord, hreply]
          rfl
  | sweep limit =>
      obtain ⟨keys, cursor, hkeys, hrun⟩ :=
        @handle_sweep_run J _ .exact _ j hshows.exact limit
      have hsettings : ∀ u : KeyValueStore,
          ((u.afterReading.dropAll keys).moveSweep cursor).settings =
            u.settings := by
        intro u
        simp
      have hexact : ∀ {u : KeyValueStore}, Exact u →
          Exact ((u.afterReading.dropAll keys).moveSweep cursor) :=
        fun hu => (hu.afterReading.dropAll keys).moveSweep cursor
      have hagree := (evolves_swept cursor hkeys).agreeAt
        (hshows.stands.of_settings (hsettings _))
      exact ⟨_, j, hrun, hj,
        hresting.of_settings (hexact hshows.exact) (hsettings _),
        hagree.trans hshows.agree⟩
  | fsync =>
      cases hserved

/-- **A whole run.** -/
theorem Matches.replies {P : J → Prop} (hP : Accepting P)
    (script : List Moment) :
    ∀ {now : Int} {s : KeyValueStore} {m : Reference} {j : J}, P j →
      Matches policy now s m → (∀ moment ∈ script, now ≤ moment.now) →
      InOrder script → (∀ moment ∈ script, Served moment.event) →
      Server.replies .exact (s, j) script =
        (Reference.replies m script).map .ok := by
  induction script with
  | nil =>
      intros
      rfl
  | cons moment script ih =>
      intro now s m j hj h hfrom horder hserved
      obtain ⟨hafter, horder⟩ := List.pairwise_cons.mp horder
      obtain ⟨hfirst, hserved⟩ := List.forall_mem_cons.mp hserved
      obtain ⟨s', j', hturn, hj', hmatches⟩ :=
        h.turn hP hj (hfrom moment List.mem_cons_self) hfirst
      simp only [Server.replies, Reference.replies, List.map_cons, hturn]
      rw [ih hj' hmatches hafter horder hserved]

/-- **Expiration cannot be observed.** Without a memory limit, the replies to
any script of requests and sweeps are those of the machine that removes every
entry at its deadline and ignores the sweeps. -/
theorem expiration_unobservable {P : J → Prop} (hP : Accepting P)
    (hj : P j) (clock : Clock) (policy : MaxmemoryPolicy)
    (script : List Moment) (horder : InOrder script)
    (hserved : ∀ moment ∈ script, Served moment.event) :
    Server.replies .exact (init clock 0 policy, j) script =
      (Reference.replies .empty script).map .ok := by
  cases script with
  | nil =>
      rfl
  | cons moment script =>
      have hstart : Matches policy moment.now (init clock 0 policy) .empty :=
        ⟨⟨exact_init clock 0 policy, rfl, rfl, rfl⟩, rfl⟩
      have hfrom : ∀ moment' ∈ moment :: script, moment.now ≤ moment'.now := by
        intro moment' hmem
        rcases List.mem_cons.mp hmem with rfl | hmem
        · exact le_rfl
        · exact (List.pairwise_cons.mp horder).1 moment' hmem
      exact Matches.replies hP (moment :: script) hj hstart hfrom horder hserved

/-- A counter expires at the very time it is incremented, with a sweep before
and a look after. -/
def expiringCounter : List Moment :=
  [⟨0, .request [ascii "SET", ascii "n", ascii "7", ascii "PX", ascii "1500"]⟩,
    ⟨0, .request [ascii "ttl", ascii "n"]⟩,
    ⟨1499, .sweep 100⟩,
    ⟨1499, .request [ascii "INCR", ascii "n"]⟩,
    ⟨1500, .request [ascii "INCR", ascii "n"]⟩,
    ⟨1500, .request [ascii "TTL", ascii "n"]⟩]

/-- It is 8 at first, lasts two seconds, and starts again from 0. -/
theorem counter_starts_again :
    Server.replies .exact (init (.frozen 0) 0 .noeviction, NullJournal.mk)
      expiringCounter =
        [.ok (some Resp.ok), .ok (some (Resp.encodeInteger 2)), .ok none,
          .ok (some (Resp.encodeInteger 8)),
          .ok (some (Resp.encodeInteger 1)),
          .ok (some (Resp.encodeInteger (-1)))] := by
  have hreference : Reference.replies .empty expiringCounter =
      [some Resp.ok, some (Resp.encodeInteger 2), none,
        some (Resp.encodeInteger 8), some (Resp.encodeInteger 1),
        some (Resp.encodeInteger (-1))] := by
    decide +kernel
  rw [expiration_unobservable accepting_nullJournal trivial (.frozen 0)
    .noeviction expiringCounter (by decide +kernel) (by decide +kernel),
    hreference]
  rfl

end Runs

end Server

end PyRedis
