import PyRedis.Theory.AlikeStores

/-!
# Looking at keys does not choose the victims

A request to look at keys, and a sweep, only throw expired keys away.  Any other
request gets the same answer from two alike stores, selects the same victims,
and leaves the stores alike.

One step breaks this.  A SET collects nothing, so it may overwrite an expired
key in its old place in one store and put it last in the other, and from then
on the order differs.  It shows as soon as a sample leaves out a key, and not
before.
-/

namespace PyRedis

open Foundation

namespace Commands

open KeyValueStore

variable {py : Interpreter} {s t u v : KeyValueStore} {now : Int}
variable {key value : Bytes} {ordered ordered' : Prop}

section Requests

/-- The same answer from two stores, which are alike afterwards. -/
def AlikeRuns {α : Type} (ordered : Prop) (now : Int) (x : StoreM α)
    (s t : KeyValueStore) : Prop :=
  (x.run t).1 = (x.run s).1 ∧ Alike ordered now (x.run s).2 (x.run t).2

theorem alikeRuns_of {α : Type} {x : StoreM α} {r : Except Exc α}
    (hs : x.run s = (r, u)) (ht : x.run t = (r, v)) (h : Alike ordered now u v) :
    AlikeRuns ordered now x s t := by
  unfold AlikeRuns
  rw [hs, ht]
  exact ⟨rfl, h⟩

theorem AlikeRuns.weaken {α : Type} {x : StoreM α}
    (h : AlikeRuns ordered now x s t) (himp : ordered' → ordered) :
    AlikeRuns ordered' now x s t :=
  ⟨h.1, h.2.weaken himp⟩

theorem alike_get (h : Alike ordered now s t) (key : Bytes) :
    AlikeRuns ordered now ((Plan.get key).effect py) s t := by
  have hgotten : Alike ordered now (s.gotten key) (t.gotten key) := by
    have hsettled := h.settled key
    unfold gotten
    by_cases hk : key ∈ (s.settled key).data
    · have hk' := (h.mem_settled key).mp hk
      rw [if_pos hk, if_pos hk']
      refine hsettled.used (used_touch hk) (used_touch hk')
        ((h.exact.settled key).touch hk) ((h.exact'.settled key).touch hk')
        (fun _ => h.mem_settled key) ?_
      rw [keyspace_touch, keyspace_touch]
      exact h.entry_settled key
    · rw [if_neg hk, if_neg fun hk' => hk ((h.mem_settled key).mpr hk')]
      exact hsettled
  refine alikeRuns_of (Plan.effect_run_ok (effect_get_run h.exact key []))
    (Plan.effect_run_ok ?_) hgotten
  rw [← h.lookup_settled]
  exact effect_get_run h.exact' key []

theorem alike_deleted (h : Alike ordered now s t) (keys : List Bytes) :
    t.removed keys = s.removed keys ∧
      Alike ordered now (s.deleted keys) (t.deleted keys) := by
  induction keys generalizing s t with
  | nil =>
      exact ⟨rfl, h⟩
  | cons key keys ih =>
      obtain ⟨hcount, halike⟩ := ih ((h.settled key).drop key)
      refine ⟨?_, halike⟩
      simp only [removed, hcount, h.mem_settled key]

theorem alike_delete (h : Alike ordered now s t) (keys : List Bytes) :
    AlikeRuns ordered now ((Plan.delete keys).effect py) s t := by
  obtain ⟨hcount, halike⟩ := alike_deleted h keys
  refine alikeRuns_of (Plan.effect_run_ok (effect_delete_run h.exact keys))
    (Plan.effect_run_ok ?_) halike
  rw [← hcount]
  exact effect_delete_run h.exact' keys

theorem alike_flushdb (h : Alike ordered now s t) :
    AlikeRuns ordered now (Plan.flushdb.effect py) s t := by
  refine alikeRuns_of (Plan.effect_run_ok rfl) (Plan.effect_run_ok rfl) ?_
  exact
    { exact := Exact.cleared s
      exact' := Exact.cleared t
      stands := h.stands
      policy := h.policy
      settings := by
        rw [settings_cleared, settings_cleared, h.settings]
      tick := h.tick
      cursor := fun _ => rfl
      line := fun _ =>
        ⟨[], List.nodup_nil, List.Sublist.refl _, List.Sublist.refl _⟩
      agree := AgreeAt.refl now _
      access := fun _ _ => rfl
      counted := by
        rintro k ⟨e, he, -⟩
        cases he }

/-- A deadline is cleared in both. -/
theorem alike_popExpires (h : Alike ordered now s t) (hk : Alive now s key) :
    Alike ordered now (s.popExpires key) (t.popExpires key) := by
  obtain ⟨e, he, halive⟩ := hk
  refine h.thinned (thins_of_data rfl rfl rfl rfl rfl)
    (thins_of_data rfl rfl rfl rfl rfl) (h.exact.popExpires key)
    (h.exact'.popExpires key) ?_ ?_
  · rintro k ⟨e', he', halive'⟩
    by_cases heq : k = key
    · rw [heq]
      exact ⟨e, he, halive⟩
    · rw [keyspace_popExpires] at he'
      refine ⟨e', ?_, halive'⟩
      simpa [Fact.apply, Fact.actOn, heq] using he'
  · rw [keyspace_popExpires, keyspace_popExpires]
    exact h.agree.persist h.agree he halive

/-- A deadline is set in both. -/
theorem alike_setExpires (h : Alike ordered now s t) (hk : Alive now s key)
    (d : Int) : Alike ordered now (s.setExpires key d) (t.setExpires key d) := by
  have hk' := hk.of_agree h.agree
  obtain ⟨e, he, halive⟩ := hk
  refine h.thinned (thins_of_data rfl rfl rfl rfl rfl)
    (thins_of_data rfl rfl rfl rfl rfl)
    (h.exact.setExpires (Alive.mem ⟨e, he, halive⟩) d)
    (h.exact'.setExpires hk'.mem d) ?_ ?_
  · rintro k ⟨e', he', halive'⟩
    by_cases heq : k = key
    · rw [heq]
      exact ⟨e, he, halive⟩
    · rw [keyspace_setExpires] at he'
      refine ⟨e', ?_, halive'⟩
      simpa [Fact.apply, Fact.actOn, heq] using he'
  · rw [keyspace_setExpires, keyspace_setExpires]
    exact h.agree.expireAt h.agree he halive d

theorem alive_settled (h : StandsAt now s) (hk : key ∈ (s.settled key).data) :
    Alive now (s.settled key) key := by
  obtain ⟨e, he, halive⟩ := alive_of_settled hk
  rw [h.now_eq] at halive
  exact ⟨e, he, halive⟩

theorem alike_persist (h : Alike ordered now s t) (key : Bytes) :
    AlikeRuns ordered now ((Plan.persist key).effect py) s t := by
  have hs := effect_persist_run h.exact key []
  have ht := effect_persist_run h.exact' key []
  have hsame : key ∈ (s.settled key).expires ↔ key ∈ (t.settled key).expires := by
    rw [← OrderedDict.lookup_isSome_iff, ← OrderedDict.lookup_isSome_iff,
      h.deadline_settled]
  by_cases hk : key ∈ (s.settled key).expires
  · rw [if_pos hk] at hs
    rw [if_pos (hsame.mp hk)] at ht
    exact alikeRuns_of (Plan.effect_run_ok hs) (Plan.effect_run_ok ht)
      (alike_popExpires (h.settled key)
        (alive_settled h.stands ((h.exact.settled key).expires_mem key hk)))
  · rw [if_neg hk] at hs
    rw [if_neg fun hk' => hk (hsame.mpr hk')] at ht
    exact alikeRuns_of (Plan.effect_run_ok hs) (Plan.effect_run_ok ht)
      (h.settled key)

theorem alike_expire (h : Alike ordered now s t) (key : Bytes) (ttlMs : Int) :
    AlikeRuns ordered now ((Plan.expire key ttlMs).effect py) s t := by
  have hs := @expire_effect_run py s h.exact key ttlMs
  have ht := @expire_effect_run py t h.exact' key ttlMs
  have hsettled := h.settled key
  rw [hsettled.stands.now_eq] at hs
  rw [hsettled.stands'.now_eq] at ht
  by_cases hk : key ∈ (s.settled key).data
  · rw [if_pos hk] at hs
    rw [if_pos ((h.mem_settled key).mp hk)] at ht
    have hread := hsettled.both collecting_reading collecting_reading
    split_ifs at hs ht with hpos hover
    · exact alikeRuns_of hs ht (hsettled.drop key)
    · exact alikeRuns_of hs ht hread
    · exact alikeRuns_of hs ht
        (alike_setExpires hread (alive_settled h.stands hk) (now + ttlMs))
  · rw [if_neg hk] at hs
    rw [if_neg fun hk' => hk ((h.mem_settled key).mpr hk')] at ht
    exact alikeRuns_of hs ht hsettled

theorem Alike.timing (h : Alike ordered now s t) {ttl : Option Int}
    {r : Except Exc (Option Int)} (hs : s.timing ttl = (r, u)) :
    ∃ v, t.timing ttl = (r, v) ∧ Alike ordered now u v := by
  have hread := h.both collecting_reading collecting_reading
  cases ttl with
  | none =>
      cases hs
      exact ⟨t, rfl, h⟩
  | some ttl =>
      simp only [KeyValueStore.timing, h.stands.now_eq] at hs
      simp only [KeyValueStore.timing, h.stands'.now_eq]
      split_ifs at hs ⊢ with hpos hover
      · cases hs
        exact ⟨t, rfl, h⟩
      · cases hs
        exact ⟨_, rfl, hread⟩
      · cases hs
        exact ⟨_, rfl, hread⟩

theorem overwrites_timing (h : StandsAt now s) {ttl : Option Int}
    {r : Except Exc (Option Int)} (ht : s.timing ttl = (r, u)) :
    u.Overwrites key value ↔ s.Overwrites key value := by
  rcases timing_eq_or ht with rfl | rfl
  · exact Iff.rfl
  · have hnow : s.afterReading.clock.now = s.clock.now :=
      StandsAt.now_eq (h.of_settings (settings_afterReading s)) |>.trans
        h.now_eq.symm
    unfold Overwrites
    rw [hnow]
    exact Iff.rfl

/-- A write that is let in reports the same in both. -/
theorem alike_written (h : Alike ordered now u v) {s' t' : KeyValueStore}
    (hs : Used key u s') (ht : Used key v t') (hexact : Exact s')
    (hexact' : Exact t') (hplace : ordered → (key ∈ u.data ↔ key ∈ v.data))
    (hentry : s'.keyspace key = t'.keyspace key) (value : Bytes) :
    writeFacts t' key value = writeFacts s' key value ∧
      Alike ordered now (reported s') (reported t') := by
  have halike := h.used hs ht hexact hexact' hplace hentry
  have hevicted : t'.evicted = s'.evicted :=
    congrArg Settings.evicted halike.settings
  constructor
  · unfold writeFacts
    rw [hevicted, hexact.expires_lookup_eq, hexact'.expires_lookup_eq, hentry]
  · unfold reported
    exact halike.relabel halike.cursor []

/-- The key a plan writes. -/
def Plan.written : Plan → Option Bytes
  | .set key _ _ => some key
  | .incr key => some key
  | _ => none

/-- Of the selections a plan makes one has a sample that leaves out another
key. -/
def Plan.Overlooks (py : Interpreter) (p : Plan) (s : KeyValueStore) : Prop :=
  ∃ key ∈ p.written,
    LeavesOut key s.reclaimed (victimsOf (factsOf ((p.effect py).run s).1))

/-- The stores are ordered, or the plan makes no such selection in either. -/
def Plan.SeesTheSame (py : Interpreter) (p : Plan) (ordered : Prop)
    (s t : KeyValueStore) : Prop :=
  ordered ∨ (¬ p.Overlooks py s ∧ ¬ p.Overlooks py t)

/-- Where the admission begins something may have been thrown away already. -/
theorem Plan.SeesTheSame.leavesOut {p : Plan}
    (hlook : p.SeesTheSame py ordered s t) (h : Alike ordered now s t)
    (hp : key ∈ p.written) {f g : KeyValueStore → KeyValueStore}
    (hf : Collecting f) (hg : Collecting g) {victims victims' : List Bytes}
    (hs : victimsOf (factsOf ((p.effect py).run s).1) = victims)
    (ht : victimsOf (factsOf ((p.effect py).run t).1) = victims') :
    ordered ∨ (¬ LeavesOut key (f s).reclaimed victims ∧
      ¬ LeavesOut key (g t).reclaimed victims') := by
  refine hlook.imp_right fun hboth => ⟨fun hout => hboth.1 ⟨key, hp, ?_⟩,
    fun hout => hboth.2 ⟨key, hp, ?_⟩⟩
  · rw [hs]
    exact (h.leavesOut_collected hf key victims).mp hout
  · rw [ht]
    exact (h.symm.leavesOut_collected hg key victims').mp hout

theorem collecting_timing {ttl : Option Int} {r : Except Exc (Option Int)}
    (h : s.timing ttl = (r, u)) : ∃ f, Collecting f ∧ f s = u := by
  rcases timing_eq_or h with rfl | rfl
  · exact ⟨id, collecting_id, rfl⟩
  · exact ⟨afterReading, collecting_reading, rfl⟩

/-- **A SET** in two alike stores.  They stay ordered if it finds an entry to
overwrite in both or in neither. -/
theorem alike_set (h : Alike ordered now s t) (hdrained : s.evicted = [])
    (ttl : Option Int)
    (hlook : (Plan.set key value ttl).SeesTheSame py ordered s t) :
    AlikeRuns (ordered ∧ (s.Overwrites key value ↔ t.Overwrites key value)) now
      ((Plan.set key value ttl).effect py) s t := by
  rcases htiming : s.timing ttl with ⟨e | d, u⟩
  · obtain ⟨v, htiming', halike⟩ := Alike.timing h htiming
    obtain ⟨_, _, hsets, hs⟩ := @set_effect_run py s h.exact key value ttl
    obtain ⟨_, _, hsets', ht⟩ := @set_effect_run py t h.exact' key value ttl
    obtain ⟨rfl, rfl⟩ := hsets.eq_of_untimely htiming
    obtain ⟨rfl, rfl⟩ := hsets'.eq_of_untimely htiming'
    exact alikeRuns_of hs ht (halike.weaken And.left)
  · obtain ⟨v, htiming', halike⟩ := Alike.timing h htiming
    have hrefuses : v.Refuses key value ↔ u.Refuses key value :=
      halike.refuses_iff
    by_cases hr : u.Refuses key value
    · obtain ⟨_, _, hsets, hs⟩ := @set_effect_run py s h.exact key value ttl
      obtain ⟨_, _, hsets', ht⟩ := @set_effect_run py t h.exact' key value ttl
      obtain ⟨rfl, rfl⟩ := hsets.eq_of_refuses htiming hr
      obtain ⟨rfl, rfl⟩ := hsets'.eq_of_refuses htiming' (hrefuses.mpr hr)
      exact alikeRuns_of hs ht (halike.weaken And.left)
    · obtain ⟨victims, w, houtcome, hs⟩ :=
        @set_effect_stored py s u key value h.exact ttl d htiming hr
      obtain ⟨victims', w', houtcome', ht⟩ :=
        @set_effect_stored py t v key value h.exact' ttl d htiming'
          fun hr' => hr (hrefuses.mp hr')
      obtain ⟨f, hf, rfl⟩ := collecting_timing htiming
      obtain ⟨g, hg, rfl⟩ := collecting_timing htiming'
      have hselected := Outcome.victimsOf_written houtcome
        ((hf.evicted s).trans hdrained) (used_stored w key value d).evicted value
      have hselected' := Outcome.victimsOf_written houtcome'
        ((hg.evicted t).trans (h.evicted.trans hdrained))
        (used_stored w' key value d).evicted value
      obtain ⟨-, -, hboth⟩ := houtcome.alike houtcome' halike
        (hlook.leavesOut h rfl hf hg (by rw [hs]; exact hselected)
          (by rw [ht]; exact hselected'))
      have hmem : (key ∈ w.data ↔ key ∈ w'.data) ↔
          (s.Overwrites key value ↔ t.Overwrites key value) := by
        rw [houtcome.overwrites_iff, houtcome'.overwrites_iff,
          overwrites_timing h.stands htiming,
          overwrites_timing h.stands' htiming']
      obtain ⟨hfacts, hreported⟩ := alike_written
        (hboth.weaken And.left)
        (used_stored w key value d) (used_stored w' key value d)
        (hboth.exact.stored key value d) (hboth.exact'.stored key value d)
        (fun ho => hmem.mpr ho.2)
        (by simp [keyspace_stored, Fact.apply, Fact.actOn]) value
      rw [hfacts] at ht
      exact alikeRuns_of hs ht hreported

/-- A counter that is there after its admission is alive. -/
theorem Outcome.alive (h : StandsAt now s) {victims : List Bytes}
    (houtcome : Outcome (s.settled key) key value (.ok ()) victims u)
    (hk : key ∈ u.data) : Alive now u key := by
  cases houtcome with
  | fits _ =>
      exact alive_settled h hk
  | evicting _ _ _ hchooses =>
      exact hchooses.allAlive (allAlive_reclaimed
        (h.of_settings (settings_settled s key))) key hk

/-- **An INCR** in two alike stores. -/
theorem alike_incr (h : Alike ordered now s t) (hdrained : s.evicted = [])
    (key : Bytes) (hlook : (Plan.incr key).SeesTheSame py ordered s t) :
    AlikeRuns ordered now ((Plan.incr key).effect py) s t := by
  have hsettled := h.settled key
  have hcounter : (t.settled key).counter py key =
      (s.settled key).counter py key := by
    unfold counter
    rw [h.lookup_settled]
  obtain ⟨_, _, hincrs, hs⟩ := @incr_effect_run py s h.exact key
  obtain ⟨_, _, hincrs', ht⟩ := @incr_effect_run py t h.exact' key
  cases hn : (s.settled key).counter py key with
  | error e =>
      obtain ⟨rfl, rfl⟩ := hincrs.eq_of_unread hn
      obtain ⟨rfl, rfl⟩ := hincrs'.eq_of_unread (hcounter.trans hn)
      exact alikeRuns_of hs ht hsettled
  | ok n =>
      have hn' := hcounter.trans hn
      have hrefuses : (t.settled key).Refuses key (str (n + 1)) ↔
          (s.settled key).Refuses key (str (n + 1)) := hsettled.refuses_iff
      by_cases hover : int64Max < n + 1
      · obtain ⟨rfl, rfl⟩ := hincrs.eq_of_overflow hn hover
        obtain ⟨rfl, rfl⟩ := hincrs'.eq_of_overflow hn' hover
        exact alikeRuns_of hs ht hsettled
      have hfits := not_lt.mp hover
      by_cases hr : (s.settled key).Refuses key (str (n + 1))
      · obtain ⟨rfl, rfl⟩ := hincrs.eq_of_refuses hn hfits hr
        obtain ⟨rfl, rfl⟩ :=
          hincrs'.eq_of_refuses hn' hfits (hrefuses.mpr hr)
        exact alikeRuns_of hs ht hsettled
      obtain ⟨victims, w, houtcome, hs⟩ :=
        incr_effect_stored h.exact hn hfits hr
      obtain ⟨victims', w', houtcome', ht⟩ :=
        incr_effect_stored h.exact' hn' hfits
          fun hr' => hr (hrefuses.mp hr')
      have hcollect := collecting_settled key
      have hselected := Outcome.victimsOf_written houtcome
        ((hcollect.evicted s).trans hdrained)
        (used_rewritten w key (str (n + 1))).evicted (str (n + 1))
      have hselected' := Outcome.victimsOf_written houtcome'
        ((hcollect.evicted t).trans (h.evicted.trans hdrained))
        (used_rewritten w' key (str (n + 1))).evicted (str (n + 1))
      obtain ⟨-, -, hboth⟩ := houtcome.alike houtcome' hsettled
        (hlook.leavesOut h rfl hcollect hcollect
          (by rw [hs]; exact hselected) (by rw [ht]; exact hselected'))
      have hentry := hboth.entry_eq (Outcome.alive h.stands houtcome)
        (Outcome.alive h.stands' houtcome')
      have hmem : key ∈ w.data ↔ key ∈ w'.data := by
        rw [← not_iff_not, ← keyspace_eq_none_iff, ← keyspace_eq_none_iff,
          hentry]
      have hentry' : (w.rewritten key (str (n + 1))).keyspace key =
          (w'.rewritten key (str (n + 1))).keyspace key := by
        rw [keyspace_rewritten, keyspace_rewritten,
          hboth.exact.expires_lookup_eq, hboth.exact'.expires_lookup_eq,
          hentry]
        simp [Fact.apply, Fact.actOn]
      obtain ⟨hfacts, hreported⟩ := alike_written hboth
        (used_rewritten w key _) (used_rewritten w' key _)
        (hboth.exact.rewritten key _) (hboth.exact'.rewritten key _)
        (fun _ => hmem) hentry' (str (n + 1))
      rw [hfacts] at ht
      exact alikeRuns_of hs ht hreported

end Requests

section Looking

/-- A request to look at keys. -/
def Plan.looks : Plan → Bool
  | .ttl _ => true
  | .exists _ => true
  | .dbsize => true
  | _ => false

/-- A SET finds an entry to overwrite in both stores or in neither. -/
def Plan.SamePlace (p : Plan) (s t : KeyValueStore) : Prop :=
  ∀ key value ttl, p = .set key value ttl →
    (s.Overwrites key value ↔ t.Overwrites key value)

/-- **Any other request** in two alike stores. -/
theorem alike_plan (h : Alike ordered now s t) (hdrained : s.evicted = [])
    (p : Plan) (hlooks : p.looks = false)
    (hlook : p.SeesTheSame py ordered s t) :
    AlikeRuns (ordered ∧ p.SamePlace s t) now (p.effect py) s t := by
  cases p with
  | answer reply =>
      exact alikeRuns_of rfl rfl (h.weaken And.left)
  | raise e =>
      cases hreply : errorReply e with
      | none =>
          exact alikeRuns_of (Plan.effect_run_raise rfl hreply)
            (Plan.effect_run_raise rfl hreply) (h.weaken And.left)
      | some reply =>
          exact alikeRuns_of (Plan.effect_run_reply rfl hreply)
            (Plan.effect_run_reply rfl hreply) (h.weaken And.left)
  | set key value ttl =>
      exact (alike_set h hdrained ttl hlook).weaken
        fun ho => ⟨ho.1, ho.2 key value ttl rfl⟩
  | get key =>
      exact (alike_get h key).weaken And.left
  | expire key ttlMs =>
      exact (alike_expire h key ttlMs).weaken And.left
  | ttl key =>
      cases hlooks
  | persist key =>
      exact (alike_persist h key).weaken And.left
  | delete keys =>
      exact (alike_delete h keys).weaken And.left
  | «exists» keys =>
      cases hlooks
  | incr key =>
      exact (alike_incr h hdrained key hlook).weaken And.left
  | dbsize =>
      cases hlooks
  | flushdb =>
      exact (alike_flushdb h).weaken And.left

/-- What only looks at keys: nothing is recorded, and at most expired keys are
thrown away. -/
structure Looks (s : KeyValueStore) (r : Except Exc Effect)
    (t : KeyValueStore) : Prop where
  facts : factsOf r = []
  thins : Thins s t
  evolves : Evolves s [] t
  exact : Exact t

theorem looks_of_collecting {f : KeyValueStore → KeyValueStore}
    (hf : Collecting f) (hs : Exact s) {r : Except Exc Effect}
    (hfacts : factsOf r = []) : Looks s r (f s) :=
  ⟨hfacts, hf.thins s, hf.evolves s, hf.exact hs⟩

theorem looks_plan (hs : Exact s) {name : Bytes} {args : List Bytes}
    (hname : upper name = ascii "EXISTS" ∨ upper name = ascii "TTL" ∨
      upper name = ascii "DBSIZE") :
    ∃ r t, ((plan py (name :: args)).effect py).run s = (r, t) ∧
      Looks s r t := by
  -- every other plan stands for another name
  have hother : ∀ {text : String}, upper name = ascii text →
      ascii text ≠ ascii "EXISTS" ∧ ascii text ≠ ascii "TTL" ∧
        ascii text ≠ ascii "DBSIZE" → False := by
    rintro text htext ⟨h1, h2, h3⟩
    rw [htext] at hname
    rcases hname with h | h | h
    · exact h1 h
    · exact h2 h
    · exact h3 h
  have hplan := planOf_request py name args
  generalize plan py (name :: args) = p at hplan
  cases hplan with
  | answer reply =>
      exact ⟨_, _, rfl, looks_of_collecting collecting_id hs rfl⟩
  | raise e =>
      cases hreply : errorReply e with
      | none =>
          exact ⟨_, _, Plan.effect_run_raise rfl hreply,
            looks_of_collecting collecting_id hs rfl⟩
      | some reply =>
          exact ⟨_, _, Plan.effect_run_reply rfl hreply,
            looks_of_collecting collecting_id hs rfl⟩
  | ttl hname hargs =>
      exact ⟨_, _, Plan.effect_run_ok (effect_ttl_run hs _ []),
        looks_of_collecting (collecting_inspected _) hs rfl⟩
  | «exists» hname =>
      exact ⟨_, _, Plan.effect_run_ok (effect_exists_run hs _),
        looks_of_collecting (collecting_looked _) hs rfl⟩
  | dbsize hname =>
      exact ⟨_, _, Plan.effect_run_ok (effect_dbsize_run hs []),
        looks_of_collecting collecting_reclaimed hs rfl⟩
  | set ttlMs hset hargs =>
      exact (hother hset (by decide)).elim
  | get hget hargs =>
      exact (hother hget (by decide)).elim
  | expire ttlMs hexpire hargs =>
      exact (hother hexpire (by decide)).elim
  | persist hpersist hargs =>
      exact (hother hpersist (by decide)).elim
  | delete hdelete =>
      exact (hother hdelete (by decide)).elim
  | incr hincr hargs =>
      exact (hother hincr (by decide)).elim
  | flushdb hflushdb =>
      exact (hother hflushdb (by decide)).elim

theorem name_of_looks {name : Bytes} {args : List Bytes}
    (h : (plan py (name :: args)).looks = true) :
    upper name = ascii "EXISTS" ∨ upper name = ascii "TTL" ∨
      upper name = ascii "DBSIZE" := by
  have hplan := planOf_request py name args
  generalize plan py (name :: args) = p at h hplan
  cases hplan with
  | ttl hname hargs =>
      exact Or.inr (Or.inl hname)
  | «exists» hname =>
      exact Or.inl hname
  | dbsize hname =>
      exact Or.inr (Or.inr hname)
  | _ =>
      cases h

end Looking

end Commands

namespace Server

open Commands KeyValueStore

variable {J : Type} [Journal J] {py : Interpreter}
variable {s t : KeyValueStore} {j : J} {now : Int} {ordered : Prop}

section TwoRuns

/-- EXISTS, TTL, DBSIZE, or a sweep. -/
def inspects : Event → Bool
  | .request [] => false
  | .request (name :: _) =>
      upper name = ascii "EXISTS" || upper name = ascii "TTL" ||
        upper name = ascii "DBSIZE"
  | .sweep _ => true
  | .fsync => false

/-- What an event leads to: its reply, and the victims it selects. -/
def outcome (py : Interpreter) (state : KeyValueStore × J) (m : Moment) :
    Except Exc (Option Bytes) × List Bytes :=
  ((turn py state m).1, victimsOf (recorded py (atMoment state m) m.event))

/-- What all the other events of a script lead to. -/
def outcomes (py : Interpreter) (state : KeyValueStore × J) :
    List Moment → List (Except Exc (Option Bytes) × List Bytes)
  | [] => []
  | m :: script =>
      if inspects m.event then outcomes py (turn py state m).2 script
      else outcome py state m :: outcomes py (turn py state m).2 script

/-- The script without the events that only look at keys. -/
def withoutInspection (script : List Moment) : List Moment :=
  script.filter fun m => !inspects m.event

/-- The key an event writes. -/
def written (py : Interpreter) : Event → Option Bytes
  | .request parts => (plan py parts).written
  | .sweep _ => none
  | .fsync => none

/-- Of the selections an event makes one has a sample that leaves out another
key. -/
def Overlooks (py : Interpreter) (state : KeyValueStore × J) (event : Event) :
    Prop :=
  ∃ key ∈ written py event,
    LeavesOut key state.1.reclaimed (victimsOf (recorded py state event))

instance (py : Interpreter) (state : KeyValueStore × J) (event : Event) :
    Decidable (Overlooks py state event) :=
  inferInstanceAs (Decidable (∃ _ ∈ _, _))

/-- Some event of the script makes such a selection. -/
def OverlooksDuring (py : Interpreter) (state : KeyValueStore × J) :
    List Moment → Prop
  | [] => False
  | m :: script =>
      Overlooks py (atMoment state m) m.event ∨
        OverlooksDuring py (turn py state m).2 script

instance OverlooksDuring.decidable (py : Interpreter) :
    ∀ (state : KeyValueStore × J) (script : List Moment),
      Decidable (OverlooksDuring py state script)
  | _, [] => inferInstanceAs (Decidable False)
  | state, m :: script =>
      haveI := OverlooksDuring.decidable py (turn py state m).2 script
      inferInstanceAs (Decidable (_ ∨ _))

/-- If the event is a SET, it finds an entry of its key to overwrite in both
stores or in neither. -/
def SamePlace (py : Interpreter) (event : Event) (s t : KeyValueStore) :
    Prop :=
  ∀ parts, event = .request parts → (plan py parts).SamePlace s t

/-- Every SET after which some sample leaves out a key, in the run of the script
or in the run of the script without inspection, finds an entry to overwrite in
both runs or in neither. -/
def SameOverwrites (py : Interpreter) (state state' : KeyValueStore × J)
    (script : List Moment) : Prop :=
  ∀ before m later, script = before ++ m :: later →
    OverlooksDuring py (afterScript py state (before ++ [m])) later ∨
      OverlooksDuring py
        (afterScript py state' (withoutInspection (before ++ [m])))
        (withoutInspection later) →
    SamePlace py m.event (atMoment (afterScript py state before) m).1
      (atMoment (afterScript py state' (withoutInspection before)) m).1

/-- An event that only looks at keys, in one of two alike states. -/
theorem alike_inspection (h : Alike ordered now s t) {event : Event}
    (hinspects : inspects event = true) :
    ((handle py event).run (s, j)).2.2 = j ∧
      Alike ordered now ((handle py event).run (s, j)).2.1 t := by
  cases event with
  | request parts =>
      cases parts with
      | nil =>
          cases hinspects
      | cons name args =>
          have hname : upper name = ascii "EXISTS" ∨
              upper name = ascii "TTL" ∨ upper name = ascii "DBSIZE" := by
            simpa [inspects, or_assoc] using hinspects
          obtain ⟨r, s', hrun, hlooks⟩ :=
            @looks_plan py s h.exact name args hname
          by_cases haway :
              turnedAway py (s, j) (.request (name :: args)) = true
          · rw [handle_request_away haway]
            exact ⟨rfl, h⟩
          · rw [handle_request_run haway hrun]
            refine ⟨?_, h.left hlooks.thins hlooks.evolves hlooks.exact⟩
            have hfacts := hlooks.facts
            cases r with
            | error e =>
                rfl
            | ok effect =>
                simp only [factsOf] at hfacts
                simp only [committed, hfacts]
                rfl
  | sweep limit =>
      obtain ⟨keys, cursor, hkeys, hrun⟩ :=
        @handle_sweep_run J _ py s j h.exact limit
      have hthins : Thins s ((s.afterReading.dropAll keys).moveSweep cursor) :=
        ((tidying_thins.reading s).trans (tidying_thins.dropAll _ keys)).trans
          (thins_of_data rfl rfl rfl rfl rfl)
      rw [hrun]
      exact ⟨rfl, h.left hthins (evolves_swept cursor hkeys)
        ((h.exact.afterReading.dropAll keys).moveSweep cursor)⟩
  | fsync =>
      cases hinspects

theorem overlooks_request {parts : List Bytes}
    (haway : ¬ turnedAway py (s, j) (.request parts) = true) :
    Overlooks py (s, j) (.request parts) ↔ (plan py parts).Overlooks py s := by
  unfold Overlooks recorded
  rw [if_neg haway, asked, execute_eq_plan]
  rfl

/-- **Any other event** in two alike states. -/
theorem alike_event (h : Alike ordered now s t) (hdrained : s.evicted = [])
    {event : Event} (hinspects : inspects event = false)
    (hlook : ordered ∨
      (¬ Overlooks py (s, j) event ∧ ¬ Overlooks py (t, j) event)) :
    ((handle py event).run (t, j)).1 = ((handle py event).run (s, j)).1 ∧
      recorded py (t, j) event = recorded py (s, j) event ∧
      ((handle py event).run (t, j)).2.2 =
        ((handle py event).run (s, j)).2.2 ∧
      Alike (ordered ∧ SamePlace py event s t) now
        ((handle py event).run (s, j)).2.1
        ((handle py event).run (t, j)).2.1 := by
  cases event with
  | request parts =>
      have hlooks : (plan py parts).looks = false := by
        cases parts with
        | nil =>
            rfl
        | cons name args =>
            rw [Bool.eq_false_iff]
            intro hlooks
            have hname := name_of_looks hlooks
            simp [inspects] at hinspects
            rcases hname with hn | hn | hn
            · exact hinspects.1.1 hn
            · exact hinspects.1.2 hn
            · exact hinspects.2 hn
      unfold recorded
      rw [turnedAway_eq py t s j]
      by_cases haway : turnedAway py (s, j) (.request parts) = true
      · have haway' : turnedAway py (t, j) (.request parts) = true := haway
        rw [if_pos haway, if_pos haway, handle_request_away haway,
          handle_request_away haway']
        exact ⟨rfl, rfl, rfl, h.weaken And.left⟩
      · have haway' : ¬ turnedAway py (t, j) (.request parts) = true := haway
        rw [overlooks_request haway, overlooks_request haway'] at hlook
        obtain ⟨hsame, halike⟩ :=
          alike_plan h hdrained (plan py parts) hlooks hlook
        rw [if_neg haway, if_neg haway]
        have hs := handle_request_run (j := j) haway
          (Prod.mk.eta (p := ((plan py parts).effect py).run s)).symm
        have ht := handle_request_run (j := j) haway'
          (Prod.mk.eta (p := ((plan py parts).effect py).run t)).symm
        rw [hs, ht, hsame]
        refine ⟨rfl, ?_, rfl,
          halike.weaken fun ho => ⟨ho.1, ho.2 parts rfl⟩⟩
        simp only [asked, execute_eq_plan, hsame]
  | sweep limit =>
      cases hinspects
  | fsync =>
      rw [handle_fsync_run py s t j]
      have hs := handle_fsync_run py s s j
      refine ⟨rfl, rfl, rfl, ?_⟩
      rw [hs]
      exact h.weaken And.left

/-- Two stores that are alike whenever the next event happens. -/
def AlikeFrom (ordered : Prop) (now : Int) (s t : KeyValueStore) : Prop :=
  ∀ later, now ≤ later → Alike ordered later (s.atClock (.frozen later))
    (t.atClock (.frozen later))

theorem AlikeFrom.of_alike (h : Alike ordered now s t) :
    AlikeFrom ordered now s t :=
  fun _ hle => h.later hle

/-- A store stays at rest. -/
theorem resting_turn (py : Interpreter) {maxmemory : Int} {policy : MaxmemoryPolicy}
    (hs : Resting maxmemory policy s) (j : J) (m : Moment) :
    Resting maxmemory policy (turn py (s, j) m).2.1 := by
  have hrest : Resting maxmemory policy (s.atClock (.frozen m.now)) :=
    ⟨hs.exact.atClock _, hs.drained, hs.maxmemory, hs.policy⟩
  unfold turn
  rw [handle_store]
  split_ifs
  · exact hrest
  · cases m.event with
    | request parts =>
        exact (preserves_resting_execute parts).state_after hrest
    | sweep limit =>
        exact (preserves_resting_sweep limit).state_after hrest
    | fsync =>
        exact hrest

theorem withoutInspection_cons (m : Moment) (script : List Moment) :
    withoutInspection (m :: script) =
      if inspects m.event then withoutInspection script
      else m :: withoutInspection script := by
  unfold withoutInspection
  rw [List.filter_cons]
  cases inspects m.event <;> rfl

theorem outcomes_cons (state : KeyValueStore × J) {m : Moment}
    (script : List Moment) (hm : inspects m.event = false) :
    outcomes py state (m :: script) =
      outcome py state m :: outcomes py (turn py state m).2 script := by
  rw [outcomes, hm]
  rfl

theorem SameOverwrites.tail {state state' : KeyValueStore × J} {m : Moment}
    {script : List Moment} (h : SameOverwrites py state state' (m :: script)) :
    SameOverwrites py (turn py state m).2
      (if inspects m.event then state' else (turn py state' m).2) script := by
  intro before m' later hscript hout
  have hboth := h (m :: before) m' later (by rw [hscript]; rfl)
  rw [List.cons_append, afterScript_cons, afterScript_cons,
    withoutInspection_cons, withoutInspection_cons] at hboth
  cases hm : inspects m.event with
  | true =>
      rw [hm] at hboth hout
      exact hboth hout
  | false =>
      rw [hm] at hboth hout
      exact hboth hout

/-- **Two whole runs**, of a script and of the script without inspection.  The
order matters as long as some sample still leaves out a key. -/
theorem outcomes_of_alike {maxmemory : Int} (script : List Moment) :
    ∀ {ordered : Prop} {now : Int} {s t : KeyValueStore} {j : J},
      AlikeFrom ordered now s t → Resting maxmemory .allkeysLru s →
      (OverlooksDuring py (s, j) script ∨
        OverlooksDuring py (t, j) (withoutInspection script) → ordered) →
      (∀ m ∈ script, now ≤ m.now) → InOrder script →
      SameOverwrites py (s, j) (t, j) script →
      outcomes py (s, j) script =
        outcomes py (t, j) (withoutInspection script) := by
  induction script with
  | nil =>
      intros
      rfl
  | cons m script ih =>
      intro ordered now s t j h hrest hmatters hfrom horder hplaces
      have hm := h m.now (hfrom m List.mem_cons_self)
      have hrest' := resting_turn py hrest j m
      obtain ⟨hafter, horder⟩ := List.pairwise_cons.mp horder
      have htail := hplaces.tail
      rw [withoutInspection_cons] at hmatters ⊢
      cases hinspects : inspects m.event with
      | true =>
          obtain ⟨hj, halike⟩ :=
            @alike_inspection J _ py _ _ j _ _ hm _ hinspects
          have hstate : (turn py (s, j) m).2 = ((turn py (s, j) m).2.1, j) :=
            Prod.ext rfl hj
          -- what was thrown away early is expired at every later time
          have hfrom' : AlikeFrom ordered m.now (turn py (s, j) m).2.1 t :=
            fun later hle => halike.later hle
          rw [hinspects, if_pos rfl, hstate] at htail
          rw [hinspects, if_pos rfl] at hmatters
          simp only [outcomes, hinspects, if_true]
          rw [hstate]
          refine ih hfrom' hrest' (fun hout => hmatters ?_) hafter horder htail
          rw [← hstate] at hout
          exact hout.imp_left Or.inr
      | false =>
          rw [hinspects] at hmatters
          have hlook : ordered ∨
              (¬ Overlooks py (atMoment (s, j) m) m.event ∧
                ¬ Overlooks py (atMoment (t, j) m) m.event) := by
            by_cases ho : ordered
            · exact Or.inl ho
            · exact Or.inr ⟨fun hout => ho (hmatters (Or.inl (Or.inl hout))),
                fun hout => ho (hmatters (Or.inr (Or.inl hout)))⟩
          obtain ⟨hreply, hrecorded, hj, halike⟩ :=
            alike_event hm hrest.drained hinspects hlook
          have hstate : (turn py (t, j) m).2 =
              ((turn py (t, j) m).2.1, (turn py (s, j) m).2.2) :=
            Prod.ext rfl hj
          have houtcome : outcome py (s, j) m = outcome py (t, j) m := by
            refine Prod.ext hreply.symm ?_
            exact congrArg victimsOf hrecorded.symm
          have hmatters' : OverlooksDuring py (turn py (s, j) m).2 script ∨
              OverlooksDuring py (turn py (t, j) m).2
                (withoutInspection script) →
              ordered ∧ SamePlace py m.event (atMoment (s, j) m).1
                (atMoment (t, j) m).1 := by
            intro hout
            refine ⟨hmatters (hout.imp Or.inr Or.inr), ?_⟩
            refine hplaces [] m script rfl ?_
            rw [List.nil_append, withoutInspection_cons, hinspects]
            exact hout
          rw [hstate] at hmatters'
          have hrest := @ih _ m.now (turn py (s, j) m).2.1
            (turn py (t, j) m).2.1 (turn py (s, j) m).2.2
            (AlikeFrom.of_alike halike) hrest' hmatters' hafter horder (by
              rw [hinspects] at htail
              rw [← hstate]
              exact htail)
          calc outcomes py (s, j) (m :: script)
              _ = outcome py (s, j) m ::
                    outcomes py (turn py (s, j) m).2 script :=
                outcomes_cons (s, j) script hinspects
              _ = outcome py (t, j) m ::
                    outcomes py (turn py (t, j) m).2
                      (withoutInspection script) := by
                rw [houtcome, hstate, ← hrest]
              _ = outcomes py (t, j) (m :: withoutInspection script) :=
                (outcomes_cons (t, j) _ hinspects).symm

/-- **Looking at keys steers no eviction.** In two runs from the empty store,
of a script and of the script without its EXISTS, TTL and DBSIZE requests and
its sweeps, every other event gets the same reply and selects the same victims
in the same order, as long as every SET after which a sample leaves out a key
overwrites an entry in both runs or in neither. -/
theorem inspection_steers_nothing (py : Interpreter) (clock : Clock)
    (maxmemory : Int) (j : J) (script : List Moment) (horder : InOrder script)
    (hplaces : SameOverwrites py (init clock maxmemory .allkeysLru, j)
      (init clock maxmemory .allkeysLru, j) script) :
    outcomes py (init clock maxmemory .allkeysLru, j) script =
      outcomes py (init clock maxmemory .allkeysLru, j)
        (withoutInspection script) := by
  cases script with
  | nil =>
      rfl
  | cons m script =>
      have hfrom : ∀ m' ∈ m :: script, m.now ≤ m'.now := by
        intro m' hm'
        rcases List.mem_cons.mp hm' with rfl | hm'
        · exact le_rfl
        · exact (List.pairwise_cons.mp horder).1 m' hm'
      have hrest : Resting maxmemory .allkeysLru
          (init clock maxmemory .allkeysLru) :=
        ⟨exact_init clock maxmemory .allkeysLru, rfl, rfl, rfl⟩
      have hstart : AlikeFrom True m.now (init clock maxmemory .allkeysLru)
          (init clock maxmemory .allkeysLru) :=
        fun later _ => alike_init clock maxmemory later
      exact outcomes_of_alike (m :: script) hstart hrest (fun _ => trivial)
        hfrom horder hplaces

/-- A request at a time. -/
def asking (now : Int) (parts : List String) : Moment :=
  ⟨now, .request (parts.map ascii)⟩

/-- The key first written has expired when it is written again; before that,
it is looked at. -/
def lookAndRefresh : List Moment :=
  [asking 0 ["SET", "g", "1", "PX", "100"], asking 0 ["SET", "a", "1"],
    asking 0 ["SET", "b", "1"], asking 0 ["SET", "c", "1"],
    asking 0 ["SET", "d", "1"], asking 0 ["SET", "e", "1"],
    asking 100 ["EXISTS", "g"], asking 100 ["SET", "g", "1"],
    asking 100 ["SET", "f", "1"]]

/-- Having been looked at, the key is written at the end, and the last write
selects another victim. -/
theorem look_changes_victim :
    InOrder lookAndRefresh ∧
      (outcomes .default (init (.frozen 0) 396 .allkeysLru, NullJournal.mk)
        lookAndRefresh).map Prod.snd =
          [[], [], [], [], [], [], [], [ascii "b"]] ∧
      (outcomes .default (init (.frozen 0) 396 .allkeysLru, NullJournal.mk)
        (withoutInspection lookAndRefresh)).map Prod.snd =
          [[], [], [], [], [], [], [], [ascii "a"]] := by
  refine ⟨?_, ?_, ?_⟩
  · decide +kernel
  · decide +kernel
  · decide +kernel

/-- The same with three keys besides, which a sample holds all. -/
def lookAmongFew : List Moment :=
  [asking 0 ["SET", "g", "1", "PX", "100"], asking 0 ["SET", "a", "1"],
    asking 0 ["SET", "b", "1"], asking 100 ["EXISTS", "g"],
    asking 100 ["SET", "g", "1"], asking 100 ["SET", "f", "1"]]

/-- Having been looked at, the key is written at the end; the last write selects
the same victim. -/
theorem look_steers_nothing :
    outcomes .default (init (.frozen 0) 198 .allkeysLru, NullJournal.mk)
        lookAmongFew =
      outcomes .default (init (.frozen 0) 198 .allkeysLru, NullJournal.mk)
        (withoutInspection lookAmongFew) := by
  refine inspection_steers_nothing .default (.frozen 0) 198 NullJournal.mk
    lookAmongFew (by decide +kernel) ?_
  intro before m later hscript hout
  rcases before with _ | ⟨m₁, _ | ⟨m₂, _ | ⟨m₃, _ | ⟨m₄, _ | ⟨m₅, _ | ⟨m₆,
    before⟩⟩⟩⟩⟩⟩
  iterate 6
    · cases hscript
      exact absurd hout (by decide +kernel)
  · simp [lookAmongFew] at hscript

end TwoRuns

end Server
end PyRedis
