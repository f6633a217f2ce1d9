import PyRedis.Foundation.Equivariance
import PyRedis.Theory.AdmissionLaws
import PyRedis.Theory.BoundedReference
import PyRedis.Theory.LazyExpiration

/-!
# A bounded server deletes keys to make room

A server with a memory limit answers as the bounded machine may.  Only the
admission of a write looks at the limit: every other operation does not notice
that it is gone, and answers like the server without one.  A write is admitted,
possibly after victims are gone, or it is refused and changes nothing that
shows.
-/

namespace PyRedis

open Foundation
open Fallible (Equivariant)

namespace KeyValueStore

section Unlimited

/-- The store without its limit. -/
def unlimited (s : KeyValueStore) : KeyValueStore :=
  { s with maxmemory := 0 }

/-- The operation does not notice that the limit is gone. -/
abbrev Limitless {α : Type} (x : StoreM α) : Prop :=
  Equivariant unlimited (fun _ => True) x

theorem Exact.unlimited {s : KeyValueStore} (h : Exact s) :
    Exact s.unlimited :=
  h.frame rfl rfl rfl rfl rfl

theorem Exact.of_unlimited {s : KeyValueStore} (h : Exact s.unlimited) :
    Exact s :=
  h.frame rfl rfl rfl rfl rfl

theorem unlimited_eq_self {s : KeyValueStore} (h : s.maxmemory = 0) :
    s.unlimited = s := by
  unfold unlimited
  rw [← h]

theorem limitless_modify {f : KeyValueStore → KeyValueStore}
    (hf : ∀ s, f s.unlimited = (f s).unlimited) :
    Limitless (Fallible.modify f) :=
  Equivariant.modify hf fun _ _ => trivial

theorem limitless_readClock : Limitless readClock :=
  Equivariant.of_run (fun _ => rfl) (fun _ => rfl) (fun _ => rfl)
    fun _ _ => trivial

theorem limitless_remove (key : Bytes) : Limitless (remove key) := by
  intro s _
  have hdata : s.unlimited.data.lookup key = s.data.lookup key := rfl
  refine ⟨trivial, ?_⟩
  simp only [Fallible.run, remove, hdata]
  cases s.data.lookup key <;> rfl

theorem limitless_dropIfExpired (key : Bytes) (now : Option Int) :
    Limitless (dropIfExpired key now) := by
  refine Equivariant.get_bind (fun _ => rfl) fun s => ?_
  cases s.expires.lookup key with
  | none =>
      exact Equivariant.pure ()
  | some deadline =>
      have hdrop : ∀ t : Int,
          Limitless (if deadline ≤ t then remove key else pure ()) := by
        intro t
        split_ifs
        · exact limitless_remove key
        · exact Equivariant.pure ()
      cases now with
      | none =>
          exact limitless_readClock.bind hdrop
      | some t =>
          exact (Equivariant.pure t).bind hdrop

theorem limitless_deadline (ttlMs : Int) : Limitless (deadline ttlMs) := by
  unfold deadline
  split_ifs
  · exact Equivariant.raise _
  · refine limitless_readClock.bind fun now => ?_
    split_ifs
    · exact Equivariant.raise _
    · exact Equivariant.pure _

theorem limitless_dropExpired : Limitless dropExpired := by
  refine limitless_readClock.bind fun now => ?_
  refine Equivariant.get_bind (fun _ => rfl) fun s => ?_
  refine Equivariant.foldlM (fun removed key => ?_) _ 0
  refine Equivariant.get_bind (fun _ => rfl) fun t => ?_
  cases t.expires.lookup key with
  | none =>
      exact Equivariant.raise _
  | some deadline =>
      simp only
      split_ifs
      · exact (limitless_remove key).bind fun _ => Equivariant.pure _
      · exact Equivariant.pure _

theorem limitless_get (key : Bytes) : Limitless (get key) := by
  refine (limitless_dropIfExpired key none).bind fun _ => ?_
  refine Equivariant.get_bind (fun _ => rfl) fun s => ?_
  cases s.data.lookup key with
  | none =>
      exact Equivariant.pure none
  | some value =>
      have htouch : Limitless (Fallible.modify (fun s => s.touch key)) :=
        limitless_modify fun _ => rfl
      exact htouch.bind fun _ => Equivariant.pure _

theorem limitless_delete (keys : List Bytes) : Limitless (delete keys) := by
  refine Equivariant.foldlM (fun removed key => ?_) keys 0
  refine (limitless_dropIfExpired key none).bind fun _ => ?_
  refine Equivariant.get_bind (fun _ => rfl) fun s => ?_
  split_ifs
  · exact (limitless_remove key).bind fun _ => Equivariant.pure _
  · exact Equivariant.pure _

theorem limitless_exists (keys : List Bytes) :
    Limitless («exists» keys) := by
  refine Equivariant.foldlM (fun present key => ?_) keys 0
  refine (limitless_dropIfExpired key none).bind fun _ => ?_
  refine Equivariant.get_bind (fun _ => rfl) fun s => ?_
  split_ifs <;> exact Equivariant.pure _

theorem limitless_deadlineMs (key : Bytes) : Limitless (deadlineMs key) :=
  Equivariant.get_bind (fun _ => rfl) fun _ => Equivariant.pure _

theorem limitless_expire (key : Bytes) (ttlMs : Int) :
    Limitless (expire key ttlMs) := by
  refine (limitless_dropIfExpired key none).bind fun _ => ?_
  refine Equivariant.get_bind (fun _ => rfl) fun s => ?_
  split_ifs
  · exact (limitless_remove key).bind fun _ => Equivariant.pure _
  · refine (limitless_deadline ttlMs).bind fun t => ?_
    have hset : Limitless (Fallible.modify (fun s => s.setExpires key t)) :=
      limitless_modify fun _ => rfl
    exact hset.bind fun _ => Equivariant.pure _
  · exact Equivariant.pure _

theorem limitless_ttl (key : Bytes) : Limitless (ttl key) := by
  refine limitless_readClock.bind fun now => ?_
  refine (limitless_dropIfExpired key (some now)).bind fun _ => ?_
  refine Equivariant.get_bind (fun _ => rfl) fun s => ?_
  split_ifs
  · cases s.expires.lookup key <;> exact Equivariant.pure _
  · exact Equivariant.pure _

theorem limitless_persist (key : Bytes) : Limitless (persist key) := by
  have hpop : Limitless (Fallible.modify (fun s => s.popExpires key)) :=
    limitless_modify fun _ => rfl
  refine (limitless_dropIfExpired key none).bind fun _ => ?_
  refine Equivariant.get_bind (fun _ => rfl) fun s => ?_
  split_ifs
  · exact hpop.bind fun _ => Equivariant.pure _
  · exact Equivariant.pure _

theorem limitless_dbsize : Limitless dbsize :=
  limitless_dropExpired.bind fun _ =>
    Equivariant.get_bind (fun _ => rfl) fun _ => Equivariant.pure _

theorem limitless_flushdb : Limitless flushdb :=
  limitless_modify fun _ => rfl

end Unlimited

section Room

variable {s t : KeyValueStore} {m : Reference} {now c : Int}
variable {key value : Bytes} {victims : List Bytes}

/-- What the machine's other keys cost when it holds what the store holds. -/
theorem otherCost_eq (hm : s.keyspace = m.lookup) (key : Bytes) :
    s.otherCost key = m.otherCost key := by
  have hvalues : ∀ k, s.data.lookup k =
      (m.mapValues Timed.value).lookup k := by
    intro k
    rw [data_lookup_eq, hm, OrderedDict.lookup_mapValues]
  rw [Reference.otherCost_eq_weight]
  refine OrderedDict.weight_congr cost fun k => ?_
  rw [OrderedDict.lookup_erase, OrderedDict.lookup_erase, hvalues]

/-- A store that shows what the machine holds may hold more. -/
theorem otherCost_le
    (hm : ∀ k, liveEntry now (s.keyspace k) = m.lookup k) (key : Bytes) :
    m.otherCost key ≤ s.otherCost key := by
  rw [Reference.otherCost_eq_weight]
  refine OrderedDict.weight_le_of_lookup cost_nonneg fun k value hk => ?_
  rw [OrderedDict.lookup_erase] at hk ⊢
  split_ifs at hk ⊢ with hne
  rw [OrderedDict.lookup_mapValues] at hk
  obtain ⟨e, he, rfl⟩ := Option.map_eq_some_iff.mp hk
  rw [← hm] at he
  rw [data_lookup_eq, (liveEntry_eq_some_iff.mp he).1, Option.map_some]

/-- A chain of selections makes room in the machine. -/
theorem Chooses.makesRoom (h : Chooses key c s victims t) (hs : Exact s)
    (hm : s.keyspace = m.lookup) :
    ∃ m', Reference.MakesRoom s.maxmemory key c m victims m' ∧
      t.keyspace = m'.lookup := by
  induction h generalizing m with
  | fits hfits =>
      rw [projected_eq hs] at hfits
      refine ⟨m, .fits ?_, hm⟩
      rw [← otherCost_eq hm]
      exact hfits
  | @evict s t v victims hover hv next ih =>
      have hnext : (s.evictOne key v).keyspace = (m.erase v).lookup := by
        unfold evictOne
        rw [keyspace_relabel, keyspace_drop, Reference.lookup_erase_eq, hm]
      have hmem : v ∈ m := by
        rw [← OrderedDict.lookup_isSome_iff, ← hm,
          ← Option.isSome_map (f := Timed.value), ← data_lookup_eq,
          OrderedDict.lookup_isSome_iff]
        exact mem_of_victim hv
      have hne : v ≠ key :=
        (eligible_of_mem_inLine (victim_spec hv).1).1
      have hover' : s.maxmemory < m.otherCost key + c := by
        rw [← otherCost_eq hm]
        rwa [projected_eq hs] at hover
      obtain ⟨m', hroom, hlast⟩ := ih (hs.evictOne key v) hnext
      rw [maxmemory_evictOne] at hroom
      exact ⟨m', .evict hover' hmem hne hroom, hlast⟩

/-- A write that is let in, and the room that is made for it. -/
structure Admitted (now : Int) (s : KeyValueStore) (key value : Bytes)
    (m : Reference) (victims : List Bytes) (t : KeyValueStore)
    (m' : Reference) : Prop where
  room : Reference.MakesRoom s.maxmemory key (cost key value) m victims m'
  policy : s.policy = .noeviction → victims = []
  agree : AgreeAt now t.keyspace m'.lookup
  entry : s.keyspace key = m.lookup key → t.keyspace key = m'.lookup key

theorem Outcome.admitted (hs : Shows now s.unlimited m)
    (hlimit : s.maxmemory ≠ 0)
    (h : Outcome s key value (.ok ()) victims t) :
    ∃ m', Admitted now s key value m victims t m' := by
  have hexact := hs.exact.of_unlimited
  cases h with
  | fits hfits =>
      have hfits := hfits.resolve_left hlimit
      rw [projected_eq hexact] at hfits
      refine ⟨m, .fits ?_, fun _ => rfl, hs.agree, id⟩
      have hle := @otherCost_le s m now hs.entries key
      exact le_trans (add_le_add_left hle _) hfits
  | evicting hr _ hover hchooses =>
      have hkeyspace : s.reclaimed.keyspace = m.lookup := by
        rw [keyspace_reclaimed]
        funext k
        rw [← hs.entries k, ← hs.stands.now_eq]
        rfl
      have hmax : s.reclaimed.maxmemory = s.maxmemory :=
        (sameSettings_reclaimed s).maxmemory
      obtain ⟨m', hroom, hlast⟩ :=
        hchooses.makesRoom hexact.reclaimed hkeyspace
      rw [hmax] at hroom
      refine ⟨m', hroom, fun hpolicy => ?_, ?_, fun _ => by rw [hlast]⟩
      · exact absurd ⟨hlimit, hover, Or.inl hpolicy⟩ hr
      · rw [hlast]
        exact AgreeAt.refl now _

end Room

end KeyValueStore

namespace Commands

open KeyValueStore

variable {py : Interpreter} {s t : KeyValueStore} {m m' : Reference}
variable {now : Int}

section Reading

theorem limitless_rescue {α : Type} {name : String} {x : StoreM α}
    {k : α → StoreM Effect} (hx : Limitless x) (hk : ∀ a, Limitless (k a)) :
    Limitless (Effects.rescueInvalidExpire name x k) := by
  intro s _
  refine ⟨trivial, ?_⟩
  have hrun := hx.run_eq (s := s) trivial
  rcases hxs : x.run s with ⟨e | a, t⟩
  · rw [hxs] at hrun
    by_cases he : e = .store .invalidExpire
    · subst he
      rw [Effects.rescue_run_invalid hxs, Effects.rescue_run_invalid hrun]
    · rw [Effects.rescue_run_error hxs he, Effects.rescue_run_error hrun he]
  · rw [hxs] at hrun
    rw [Effects.rescue_run_ok hxs, Effects.rescue_run_ok hrun]
    exact (hk a).run_eq trivial

theorem limitless_attempt {p : Plan} (hp : ¬ Reference.CanWrite p) :
    Limitless (p.attempt py) := by
  cases p with
  | answer reply =>
      exact Equivariant.pure _
  | raise e =>
      exact Equivariant.raise e
  | set key value ttlMs =>
      exact absurd trivial hp
  | get key =>
      exact (limitless_get key).bind fun _ => Equivariant.pure _
  | expire key ttlMs =>
      refine limitless_rescue (limitless_expire key ttlMs) fun applied => ?_
      split_ifs
      · exact (limitless_deadlineMs key).bind fun _ => Equivariant.pure _
      · exact Equivariant.pure _
  | ttl key =>
      exact (limitless_ttl key).bind fun _ => Equivariant.pure _
  | persist key =>
      exact (limitless_persist key).bind fun _ => Equivariant.pure _
  | delete keys =>
      exact (limitless_delete keys).bind fun _ => Equivariant.pure _
  | «exists» keys =>
      exact (limitless_exists keys).bind fun _ => Equivariant.pure _
  | incr key =>
      exact absurd trivial hp
  | dbsize =>
      exact limitless_dbsize.bind fun _ => Equivariant.pure _
  | flushdb =>
      exact limitless_flushdb.bind fun _ => Equivariant.pure _

theorem limitless_effect {p : Plan} (hp : ¬ Reference.CanWrite p) :
    Limitless (p.effect py) := by
  refine (limitless_attempt hp).catching fun e => ?_
  cases errorReply e with
  | none =>
      exact Equivariant.raise e
  | some reply =>
      exact Equivariant.pure _

end Reading

section Answers

variable {key value : Bytes}

/-- The request gets an answer that the bounded machine may give, and the
store then shows what that machine holds. -/
def AnswersWithin (now : Int) (s : KeyValueStore) (m : Reference) (p : Plan) :
    Prop :=
  ∃ effect t m', (p.effect .exact).run s = (.ok effect, t) ∧
    Reference.Allows s.maxmemory s.policy now m p (effect.reply, m') ∧
    AgreeAt now t.keyspace m'.lookup

/-- The answer is that of the machine without a limit. -/
theorem within_of_answers {p : Plan} (h : Answers now s m p)
    (hp : s.maxmemory = 0 ∨ Reference.writes now m p = none) :
    AnswersWithin now s m p := by
  obtain ⟨effect, t, hrun, hreply, hagree⟩ := h
  refine ⟨effect, t, (Reference.act now m p).2, hrun, ?_, hagree⟩
  rw [hreply]
  exact .asIs hp

/-- A request that writes nothing is answered as without a limit. -/
theorem answers_of_unlimited {p : Plan} (hp : ¬ Reference.CanWrite p)
    (h : Answers now s.unlimited m p) : Answers now s m p := by
  obtain ⟨effect, t, hrun, hreply, hagree⟩ := h
  have hsame := (@limitless_effect .exact p hp).run_eq (s := s) trivial
  rw [hrun] at hsame
  obtain ⟨hresult, rfl⟩ := Prod.mk.inj hsame
  exact ⟨effect, _, Prod.ext hresult.symm rfl, hreply, hagree⟩

theorem timing_unlimited (s : KeyValueStore) (ttl : Option Int) :
    s.unlimited.timing ttl =
      ((s.timing ttl).1, (s.timing ttl).2.unlimited) := by
  cases ttl with
  | none =>
      rfl
  | some ms =>
      simp only [timing, show s.unlimited.clock = s.clock from rfl]
      split_ifs <;> rfl

theorem settled_unlimited (h : Exact s) (key : Bytes) :
    s.unlimited.settled key = (s.settled key).unlimited := by
  have hsame := (limitless_dropIfExpired key none).run_eq (s := s) trivial
  rw [dropIfExpired_run h, dropIfExpired_run h.unlimited] at hsame
  exact (Prod.mk.inj hsame).2

/-- A SET whose deadline is valid, or that has none. -/
theorem stored_within (h : Shows now s.unlimited m)
    (hlimit : s.maxmemory ≠ 0) {ttl d : Option Int}
    (ht : Shows now t.unlimited m) (htiming : s.timing ttl = (.ok d, t))
    (hwrites : Reference.writes now m (.set key value ttl) =
      some (key, value))
    (hact : ∀ m', Reference.act now m' (.set key value ttl) =
      (Resp.ok, OrderedDict.set m' key ⟨value, d⟩)) :
    AnswersWithin now s m (.set key value ttl) := by
  have hexact := h.exact.of_unlimited
  have hsettings : t.maxmemory = s.maxmemory ∧ t.policy = s.policy := by
    rcases timing_eq_or htiming with rfl | rfl <;> exact ⟨rfl, rfl⟩
  by_cases hr : t.Refuses key value
  · obtain ⟨_, _, hsets, hrun⟩ :=
      @set_effect_run .exact s hexact key value ttl
    obtain ⟨rfl, rfl⟩ := hsets.eq_of_refuses htiming hr
    have hwhy := hr.2.2
    rw [hsettings.1, hsettings.2] at hwhy
    exact ⟨_, _, m, hrun, .refused hwrites hlimit hwhy, ht.agree⟩
  · obtain ⟨victims, u, houtcome, hrun⟩ :=
      @set_effect_stored .exact s t key value hexact ttl d htiming hr
    obtain ⟨m', hadmitted⟩ :=
      houtcome.admitted ht (by rw [hsettings.1]; exact hlimit)
    have hroom := hadmitted.room
    have hpolicy := hadmitted.policy
    rw [hsettings.1] at hroom
    rw [hsettings.2] at hpolicy
    have hallows := Reference.Allows.room hwrites hroom hpolicy
    rw [hact] at hallows
    refine ⟨_, _, _, hrun, hallows, ?_⟩
    rw [Reference.lookup_set_eq]
    exact (keyspace_stored u key value d).symm ▸
      hadmitted.agree.put key value d

theorem within_set (h : Shows now s.unlimited m) (hlimit : s.maxmemory ≠ 0)
    (key value : Bytes) (ttl : Option Int) :
    AnswersWithin now s m (.set key value ttl) := by
  obtain ⟨t', ht, htiming⟩ := h.timing ttl
  rw [timing_unlimited] at htiming
  rcases hs : s.timing ttl with ⟨r, t⟩
  rw [hs] at htiming
  obtain ⟨rfl, rfl⟩ := Prod.mk.inj htiming
  cases ttl with
  | none =>
      exact stored_within h hlimit ht hs rfl fun _ => rfl
  | some ms =>
      cases hd : Reference.deadline now ms with
      | none =>
          simp only [hd] at hs
          obtain ⟨_, _, hsets, hrun⟩ := @set_effect_run .exact s
            h.exact.of_unlimited key value (some ms)
          obtain ⟨rfl, rfl⟩ := hsets.eq_of_untimely hs
          have hact : Reference.act now m (.set key value (some ms)) =
              (invalidExpireReply "set", m) := by
            simp only [Reference.act, Reference.set, hd]
          refine within_of_answers (answers_of hrun hact ht.agree) (Or.inr ?_)
          simp only [Reference.writes, hd, Option.map_none]
      | some d =>
          simp only [hd] at hs
          refine stored_within h hlimit ht hs ?_ fun m' => ?_
          · simp only [Reference.writes, hd, Option.map_some]
          · simp only [Reference.act, Reference.set, hd]

/-- An INCR of a number that can be incremented. -/
theorem incremented_within (h : Shows now s.unlimited m)
    (hlimit : s.maxmemory ≠ 0) {n : Int}
    (hn : (s.settled key).counter .exact key = .ok n)
    (hfits : n + 1 ≤ int64Max)
    (hwrites : Reference.writes now m (.incr key) =
      some (key, str (n + 1)))
    (hact : ∀ m' : Reference, m'.lookup key = m.lookup key →
      Reference.act now m' (.incr key) =
        (Resp.encodeInteger (n + 1), OrderedDict.set m' key
          ⟨str (n + 1), (m'.lookup key).bind Timed.deadline⟩)) :
    AnswersWithin now s m (.incr key) := by
  have hexact := h.exact.of_unlimited
  have hsettled := h.settled key
  have hentry := h.entry_settled key
  rw [settled_unlimited hexact] at hsettled hentry
  have hsettings := tidying_shrinks.settled s key
  by_cases hr : (s.settled key).Refuses key (str (n + 1))
  · obtain ⟨_, _, hincrs, hrun⟩ := @incr_effect_run .exact s hexact key
    obtain ⟨rfl, rfl⟩ := hincrs.eq_of_refuses hn hfits hr
    have hwhy := hr.2.2
    rw [hsettings.maxmemory, hsettings.policy] at hwhy
    exact ⟨_, _, m, hrun, .refused hwrites hlimit hwhy, hsettled.agree⟩
  · obtain ⟨victims, u, houtcome, hrun⟩ :=
      incr_effect_stored hexact hn hfits hr
    obtain ⟨m', hadmitted⟩ := houtcome.admitted hsettled
      (by rw [hsettings.maxmemory]; exact hlimit)
    have hroom := hadmitted.room
    have hpolicy := hadmitted.policy
    rw [hsettings.maxmemory] at hroom
    rw [hsettings.policy] at hpolicy
    have hallows := Reference.Allows.room hwrites hroom hpolicy
    rw [hact m' hroom.lookup_self] at hallows
    refine ⟨_, _, _, hrun, hallows, ?_⟩
    -- the deadline is the one the machine has, whoever was evicted
    have hdeadline := (houtcome.exact (hexact.settled key)).expires_lookup_eq
      key
    rw [hadmitted.entry hentry] at hdeadline
    have hkeyspace := keyspace_rewritten u key (str (n + 1))
    rw [hdeadline] at hkeyspace
    rw [Reference.lookup_set_eq]
    exact hkeyspace ▸ hadmitted.agree.put key _ _

theorem within_incr (h : Shows now s.unlimited m) (hlimit : s.maxmemory ≠ 0)
    (key : Bytes) : AnswersWithin now s m (.incr key) := by
  have hexact := h.exact.of_unlimited
  have hcounter := counter_eq h key
  have hsettled := h.settled key
  rw [settled_unlimited hexact] at hcounter hsettled
  obtain ⟨_, _, hincrs, hrun⟩ := @incr_effect_run .exact s hexact key
  have hsame : (s.settled key).unlimited.counter .exact key =
      (s.settled key).counter .exact key := rfl
  rw [hsame] at hcounter
  cases hm : m.lookup key with
  | none =>
      rw [hm] at hcounter
      refine incremented_within h hlimit hcounter (by decide) ?_ ?_
      · simp only [Reference.writes, hm]
        rfl
      · intro m' hm'
        simp only [Reference.act, Reference.incr, hm', hm]
        rfl
  | some e =>
      rw [hm] at hcounter
      simp only at hcounter
      cases hn : parseInt .exact e.value with
      | error e' =>
          rw [hn] at hcounter
          obtain rfl := parseInt_exact hn
          obtain ⟨rfl, rfl⟩ := hincrs.eq_of_unread hcounter
          have hact : Reference.act now m (.incr key) =
              (storeErrorReply .notAnInteger, m) := by
            simp only [Reference.act, Reference.incr, hm, Reference.number, hn]
            rfl
          refine within_of_answers (answers_of hrun hact hsettled.agree)
            (Or.inr ?_)
          simp only [Reference.writes, hm, Reference.number, hn]
          rfl
      | ok n =>
          rw [hn] at hcounter
          by_cases hover : int64Max < n + 1
          · obtain ⟨rfl, rfl⟩ := hincrs.eq_of_overflow hcounter hover
            have hact : Reference.act now m (.incr key) =
                (storeErrorReply .integerOverflow, m) := by
              simp only [Reference.act, Reference.incr, hm, Reference.number,
                hn, Except.toOption, if_pos hover]
            refine within_of_answers (answers_of hrun hact hsettled.agree)
              (Or.inr ?_)
            simp only [Reference.writes, hm, Reference.number, hn,
              Except.toOption, if_pos hover]
          · refine incremented_within h hlimit hcounter (not_lt.mp hover)
              ?_ ?_
            · simp only [Reference.writes, hm, Reference.number, hn,
                Except.toOption, if_neg hover]
            · intro m' hm'
              simp only [Reference.act, Reference.incr, hm', hm,
                Reference.number, hn, Except.toOption, if_neg hover,
                Option.bind_some]

/-- **Every request gets an answer that the bounded machine may give.** -/
theorem within_plan (h : Shows now s.unlimited m) (p : Plan)
    (hraise : ∀ e, p = .raise e → e = .store .notAnInteger) :
    AnswersWithin now s m p := by
  by_cases hlimit : s.maxmemory = 0
  · have hself := unlimited_eq_self hlimit
    rw [hself] at h
    exact within_of_answers (answers_plan h p hraise) (Or.inl hlimit)
  by_cases hp : Reference.CanWrite p
  · cases p with
    | set key value ttlMs =>
        exact within_set h hlimit key value ttlMs
    | incr key =>
        exact within_incr h hlimit key
    | _ =>
        cases hp
  · exact within_of_answers
      (answers_of_unlimited hp (answers_plan h p hraise))
      (Or.inr (Reference.writes_eq_none hp))

end Answers

section Reports

variable {key value : Bytes} {effect : Effect} {p : Plan}

/-- What is reported is one fact at most, or the removals that make room and
the write after them. -/
def Reports (limit : Int) (policy : MaxmemoryPolicy) (now : Int)
    (m : Reference) (p : Plan) (facts : List Write) : Prop :=
  facts.length ≤ 1 ∨
    ∃ victims key value d m', limit ≠ 0 ∧
      facts = victims.map (fun k => .drop [k]) ++ [.put key value d] ∧
      Reference.writes now m p = some (key, value) ∧
      Reference.MakesRoom limit key (cost key value) m victims m' ∧
      (policy = .noeviction → victims = [])

/-- A write that is let in reports its victims. -/
theorem reports_written {ttl : Option Int} {victims : List Bytes}
    {u : KeyValueStore} (hs : Shows now s.unlimited m)
    (hdrained : s.evicted = [])
    (hwrites : Reference.writes now m p = some (key, value))
    (houtcome : Outcome s key value (.ok ()) victims t)
    (hu : u.evicted = t.evicted) :
    Reports s.maxmemory s.policy now m p
      (u.evicted.map (fun k => .drop [k]) ++ [.put key value ttl]) := by
  have hvictims := houtcome.evicted
  rw [hdrained, List.nil_append] at hvictims
  rw [hu, hvictims]
  by_cases hlimit : s.maxmemory = 0
  · obtain rfl := houtcome.free hlimit
    rw [hdrained] at hvictims
    rw [← hvictims]
    exact Or.inl le_rfl
  · obtain ⟨m', hadmitted⟩ := houtcome.admitted hs hlimit
    exact Or.inr ⟨victims, key, value, ttl, m', hlimit, rfl, hwrites,
      hadmitted.room, hadmitted.policy⟩

/-- The time of a SET that is valid. -/
theorem shows_timed (h : Shows now s.unlimited m) {ttl d : Option Int}
    (ht : s.timing ttl = (.ok d, t)) :
    Shows now t.unlimited m ∧
      Reference.writes now m (.set key value ttl) = some (key, value) := by
  obtain ⟨t', ht', htiming⟩ := h.timing ttl
  rw [timing_unlimited, ht] at htiming
  obtain ⟨hd, rfl⟩ := Prod.mk.inj htiming
  refine ⟨ht', ?_⟩
  cases ttl with
  | none =>
      rfl
  | some ms =>
      simp only at hd
      simp only [Reference.writes]
      cases hdeadline : Reference.deadline now ms with
      | none =>
          rw [hdeadline] at hd
          cases hd
      | some _ =>
          rfl

theorem reports_set (h : Shows now s.unlimited m) (hdrained : s.evicted = [])
    {ttl : Option Int}
    (hrun : ((Plan.set key value ttl).effect .exact).run s =
      (.ok effect, t)) :
    Reports s.maxmemory s.policy now m (.set key value ttl) effect.facts := by
  have hexact := h.exact.of_unlimited
  obtain ⟨e, t', hsets, hset⟩ := @set_effect_run .exact s hexact key value ttl
  rw [hrun] at hset
  cases hset
  cases hsets with
  | untimely _ =>
      exact Or.inl (Nat.zero_le 1)
  | refused _ _ =>
      exact Or.inl (Nat.zero_le 1)
  | @stored d t _ _ ht hr _ =>
      obtain ⟨victims, u, houtcome, hstored⟩ :=
        @set_effect_stored .exact s t key value hexact ttl d ht hr
      obtain ⟨hshows, hwrites⟩ := @shows_timed s t m now key value h ttl d ht
      have hsettings : t.maxmemory = s.maxmemory ∧ t.policy = s.policy ∧
          t.evicted = s.evicted := by
        rcases timing_eq_or ht with rfl | rfl <;> exact ⟨rfl, rfl, rfl⟩
      have hreports := @reports_written t u m now key value _
        ((u.stored key value d).expires.lookup key) victims
        (u.stored key value d) hshows (hsettings.2.2.trans hdrained) hwrites
        houtcome (by cases d <;> rfl)
      rw [hsettings.1, hsettings.2.1] at hreports
      rw [hrun] at hstored
      rw [Except.ok.inj (Prod.mk.inj hstored).1]
      exact hreports

/-- The number an INCR writes. -/
theorem writes_counter (h : Shows now s.unlimited m) {n : Int}
    (hn : (s.settled key).counter .exact key = .ok n)
    (hfits : n + 1 ≤ int64Max) :
    Reference.writes now m (.incr key) = some (key, str (n + 1)) := by
  have hcounter := counter_eq h key
  rw [settled_unlimited h.exact.of_unlimited] at hcounter
  have hsame : (s.settled key).unlimited.counter .exact key =
      (s.settled key).counter .exact key := rfl
  rw [hsame, hn] at hcounter
  simp only [Reference.writes]
  cases hm : m.lookup key with
  | none =>
      rw [hm] at hcounter
      cases hcounter
      rfl
  | some e =>
      rw [hm] at hcounter
      simp only at hcounter
      simp only [Reference.number, ← hcounter, Except.toOption,
        if_neg (not_lt.mpr hfits)]

theorem reports_incr (h : Shows now s.unlimited m) (hdrained : s.evicted = [])
    (hrun : ((Plan.incr key).effect .exact).run s = (.ok effect, t)) :
    Reports s.maxmemory s.policy now m (.incr key) effect.facts := by
  have hexact := h.exact.of_unlimited
  obtain ⟨r, t', hincrs, hincr⟩ := @incr_effect_run .exact s hexact key
  rw [hrun] at hincr
  obtain ⟨rfl, rfl⟩ := Prod.mk.inj hincr
  generalize hresult : (Except.ok effect : Except Exc Effect) = result
    at hincrs
  cases hincrs with
  | unread _ =>
      cases hresult
  | malformed _ =>
      cases hresult
      exact Or.inl (Nat.zero_le 1)
  | overflow _ _ =>
      cases hresult
      exact Or.inl (Nat.zero_le 1)
  | refused _ _ _ =>
      cases hresult
      exact Or.inl (Nat.zero_le 1)
  | @stored n _ _ hn hfits hr _ =>
      obtain ⟨victims, u, houtcome, hstored⟩ :=
        incr_effect_stored hexact hn hfits hr
      have hshows := h.settled key
      rw [settled_unlimited hexact] at hshows
      have hsettings := tidying_shrinks.settled s key
      have hevicted : (s.settled key).evicted = s.evicted :=
        congrArg Settings.evicted (settings_settled s key)
      have hreports := @reports_written (s.settled key) u m now key
        (str (n + 1)) _ ((u.rewritten key (str (n + 1))).expires.lookup key)
        victims (u.rewritten key (str (n + 1))) hshows
        (hevicted.trans hdrained) (writes_counter h hn hfits) houtcome rfl
      rw [hsettings.maxmemory, hsettings.policy] at hreports
      rw [hrun] at hstored
      rw [Except.ok.inj (Prod.mk.inj hstored).1]
      exact hreports

/-- A request that writes nothing reports one fact at most. -/
theorem length_facts_le (h : Exact s) (hp : ¬ Reference.CanWrite p)
    (hrun : (p.effect .exact).run s = (.ok effect, t)) :
    effect.facts.length ≤ 1 := by
  have hshort : ∀ {e : Effect} {u : KeyValueStore},
      (p.effect .exact).run s = (.ok e, u) → e.facts.length ≤ 1 →
        effect.facts.length ≤ 1 := by
    intro e u he hle
    rw [hrun] at he
    cases he
    exact hle
  cases p with
  | answer reply =>
      exact hshort rfl (Nat.zero_le 1)
  | raise e =>
      have hattempt : ((Plan.raise e).attempt .exact).run s =
          (.error e, s) := rfl
      cases he : errorReply e with
      | none =>
          rw [Plan.effect_run_raise hattempt he] at hrun
          cases hrun
      | some reply =>
          exact hshort (Plan.effect_run_reply hattempt he) (Nat.zero_le 1)
  | set key value ttlMs =>
      exact absurd trivial hp
  | get key =>
      exact hshort (Plan.effect_run_ok (effect_get_run h key []))
        (Nat.zero_le 1)
  | expire key ttlMs =>
      have hexpire := @expire_effect_run .exact s h key ttlMs
      split_ifs at hexpire
      · exact hshort hexpire le_rfl
      · exact hshort hexpire (Nat.zero_le 1)
      · exact hshort hexpire le_rfl
      · exact hshort hexpire (Nat.zero_le 1)
  | ttl key =>
      exact hshort (Plan.effect_run_ok (effect_ttl_run h key []))
        (Nat.zero_le 1)
  | persist key =>
      have hpersist := effect_persist_run h key []
      split_ifs at hpersist
      · exact hshort (Plan.effect_run_ok hpersist) le_rfl
      · exact hshort (Plan.effect_run_ok hpersist) (Nat.zero_le 1)
  | delete keys =>
      refine hshort (Plan.effect_run_ok (effect_delete_run h keys)) ?_
      simp only
      split_ifs <;> simp
  | «exists» keys =>
      exact hshort (Plan.effect_run_ok (effect_exists_run h keys))
        (Nat.zero_le 1)
  | incr key =>
      exact absurd trivial hp
  | dbsize =>
      exact hshort (Plan.effect_run_ok (effect_dbsize_run h []))
        (Nat.zero_le 1)
  | flushdb =>
      exact hshort (Plan.effect_run_ok rfl) le_rfl

/-- **What a request reports.** -/
theorem reports_plan (h : Shows now s.unlimited m) (hdrained : s.evicted = [])
    (hrun : (p.effect .exact).run s = (.ok effect, t)) :
    Reports s.maxmemory s.policy now m p effect.facts := by
  by_cases hp : Reference.CanWrite p
  · cases p with
    | set key value ttlMs =>
        exact reports_set h hdrained hrun
    | incr key =>
        exact reports_incr h hdrained hrun
    | _ =>
        cases hp
  · exact Or.inl (length_facts_le h.exact.of_unlimited hp hrun)

end Reports

end Commands

namespace Server

open Commands KeyValueStore

variable {J : Type} [Journal J] {s : KeyValueStore} {j : J}
variable {m : Reference} {now maxmemory : Int} {policy : MaxmemoryPolicy}

section Runs

/-- A server at rest with a limit, and what a machine holds that was last told
the time `now`. -/
structure MatchesWithin (maxmemory : Int) (policy : MaxmemoryPolicy)
    (now : Int) (s : KeyValueStore) (m : Reference) : Prop where
  resting : Resting maxmemory policy s
  agree : AgreeAt now s.keyspace m.lookup

theorem MatchesWithin.shows (h : MatchesWithin maxmemory policy now s m)
    {later : Int} (hle : now ≤ later) :
    Shows later (s.atClock (.frozen later)).unlimited
      (Reference.purge later m) where
  exact := (h.resting.exact.atClock _).unlimited
  stands := rfl
  free := rfl
  entries := by
    intro k
    have hk := congrArg (liveEntry later) (agreeAt_iff.mp h.agree k)
    rw [liveEntry_idem hle, liveEntry_idem hle] at hk
    rw [Reference.lookup_purge]
    exact hk

/-- **One request.** -/
theorem MatchesWithin.request {P : J → Prop} (hP : Accepting P) (hj : P j)
    (h : MatchesWithin maxmemory policy now s m) {later : Int}
    (hle : now ≤ later) {parts : List Bytes} (hparts : parts ≠ []) :
    ∃ reply s' j' m',
      Server.turn .exact (s, j) ⟨later, .request parts⟩ =
        (.ok (some reply), (s', j')) ∧ P j' ∧
      Reference.Allows maxmemory policy later (Reference.purge later m)
        (plan .exact parts) (reply, m') ∧
      MatchesWithin maxmemory policy later s' m' := by
  obtain ⟨name, args, rfl⟩ := List.exists_cons_of_ne_nil hparts
  have hresting : Resting maxmemory policy (s.atClock (.frozen later)) :=
    ⟨h.resting.exact.atClock _, h.resting.drained, h.resting.maxmemory,
      h.resting.policy⟩
  obtain ⟨effect, t, m', hrun, hallows, hagree⟩ :=
    within_plan (h.shows hle) (plan .exact (name :: args))
      fun e => plan_raise
  have haway : ¬ turnedAway .exact (s.atClock (.frozen later), j)
      (.request (name :: args)) = true := by
    simp [turnedAway, hP.works j hj]
  obtain ⟨j', hrecord, hj'⟩ := hP.recordAll effect.facts hj
  have hafter :=
    (@preserves_resting_execute .exact maxmemory policy
      (name :: args)).state_after hresting
  rw [execute_eq_plan, hrun] at hafter
  rw [hresting.maxmemory, hresting.policy] at hallows
  refine ⟨effect.reply, t, j', m', ?_, hj', hallows, hafter, hagree⟩
  unfold Server.turn atMoment
  rw [handle_request_run haway hrun]
  simp only [committed, hrecord]

/-- A sweep throws away what the machine has purged. -/
theorem MatchesWithin.sweep (h : MatchesWithin maxmemory policy now s m)
    {later : Int} (hle : now ≤ later) (limit : Nat) :
    ∃ s', Server.turn .exact (s, j) ⟨later, .sweep limit⟩ =
        (.ok none, (s', j)) ∧
      MatchesWithin maxmemory policy later s' (Reference.purge later m) := by
  have hshows := h.shows hle
  have hexact := h.resting.exact.atClock (.frozen later)
  obtain ⟨keys, cursor, hkeys, hrun⟩ :=
    @handle_sweep_run J _ .exact _ j hexact limit
  have hsettings : (((s.atClock (.frozen later)).afterReading.dropAll
      keys).moveSweep cursor).settings =
        (s.atClock (.frozen later)).settings := by
    simp
  have hresting : Resting maxmemory policy (s.atClock (.frozen later)) :=
    ⟨hexact, h.resting.drained, h.resting.maxmemory, h.resting.policy⟩
  have hstands : StandsAt later (s.atClock (.frozen later)) := rfl
  have hagree := (evolves_swept cursor hkeys).agreeAt
    (hstands.of_settings hsettings)
  exact ⟨_, hrun, hresting.of_settings
    ((hexact.afterReading.dropAll keys).moveSweep cursor) hsettings,
    hagree.trans hshows.agree⟩

/-- **A whole run.** -/
theorem MatchesWithin.replies {P : J → Prop} (hP : Accepting P)
    (script : List Moment) :
    ∀ {now : Int} {s : KeyValueStore} {m : Reference} {j : J}, P j →
      MatchesWithin maxmemory policy now s m →
      (∀ moment ∈ script, now ≤ moment.now) → InOrder script →
      (∀ moment ∈ script, Served moment.event) →
      Reference.Explains maxmemory policy m script
        (Server.replies .exact (s, j) script) := by
  induction script with
  | nil =>
      intros
      exact .done _
  | cons moment script ih =>
      intro now s m j hj h hfrom horder hserved
      obtain ⟨hafter, hrest⟩ := List.pairwise_cons.mp horder
      obtain ⟨hfirst, hothers⟩ := List.forall_mem_cons.mp hserved
      have hle := hfrom moment List.mem_cons_self
      obtain ⟨later, event⟩ := moment
      cases event with
      | request parts =>
          obtain ⟨reply, s', j', m', hturn, hj', hallows, hmatches⟩ :=
            h.request hP hj hle hfirst
          rw [Server.replies, hturn]
          exact .request hallows (ih hj' hmatches hafter hrest hothers)
      | sweep limit =>
          obtain ⟨s', hturn, hmatches⟩ := @h.sweep _ _ _ j _ _ _ _ _ hle limit
          rw [Server.replies, hturn]
          exact .sweep (ih hj hmatches hafter hrest hothers)
      | fsync =>
          cases hfirst

/-- **What a bounded server answers.** With a journal that takes every record,
under any limit and either policy, the replies to a script of requests and
sweeps are some that the bounded machine may give: every write is let in once enough other keys have gone, one at a time
and none too many, or it is refused as a whole; expiration cannot be observed;
and nothing else is ever lost. -/
theorem evictions_explained {P : J → Prop} (hP : Accepting P) (hj : P j)
    (clock : Clock) (maxmemory : Int) (policy : MaxmemoryPolicy)
    (script : List Moment) (horder : InOrder script)
    (hserved : ∀ moment ∈ script, Served moment.event) :
    Reference.Explains maxmemory policy .empty script
      (Server.replies .exact (init clock maxmemory policy, j) script) := by
  cases script with
  | nil =>
      exact .done _
  | cons moment script =>
      have hstart : MatchesWithin maxmemory policy moment.now
          (init clock maxmemory policy) .empty :=
        ⟨⟨exact_init clock maxmemory policy, rfl, rfl, rfl⟩, rfl⟩
      have hfrom : ∀ moment' ∈ moment :: script, moment.now ≤ moment'.now := by
        intro moment' hmem
        rcases List.mem_cons.mp hmem with rfl | hmem
        · exact le_rfl
        · exact (List.pairwise_cons.mp horder).1 moment' hmem
      exact hstart.replies hP (moment :: script) hj hfrom horder hserved

/-- Two keys in a store with room for one. -/
def twoKeys : List Moment :=
  [⟨0, .request [ascii "SET", ascii "a", ascii "1"]⟩,
    ⟨0, .request [ascii "SET", ascii "b", ascii "2"]⟩,
    ⟨0, .request [ascii "GET", ascii "a"]⟩,
    ⟨0, .request [ascii "GET", ascii "b"]⟩]

/-- The second key takes the place of the first. -/
theorem second_key_explained :
    Reference.Explains 66 .allkeysLru .empty twoKeys
      [.ok (some Resp.ok), .ok (some Resp.ok),
        .ok (some Resp.nullBulkString),
        .ok (some (Resp.encodeBulkString (ascii "2")))] := by
  have hreplies : Server.replies .exact
      (init (.frozen 0) 66 .allkeysLru, NullJournal.mk) twoKeys =
        [.ok (some Resp.ok), .ok (some Resp.ok),
          .ok (some Resp.nullBulkString),
          .ok (some (Resp.encodeBulkString (ascii "2")))] := by
    decide +kernel
  rw [← hreplies]
  exact evictions_explained accepting_nullJournal trivial (.frozen 0) 66
    .allkeysLru twoKeys (by decide +kernel) (by decide +kernel)

end Runs

end Server

end PyRedis
