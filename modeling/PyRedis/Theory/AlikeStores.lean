import PyRedis.Theory.Moments

/-!
# Stores that differ in what has expired

Two stores show the same keys, as recent and in the same order, but each may
hold expired keys that the other has already thrown away.  To throw expired
keys away, in one or in both, keeps two stores alike, and so does using the
same key in both as long as it gets the same place.

Alike stores select the same victims: each reclaims before its first selection,
and then the two hold the same keys in the same order.  Once the order differs
they still do so as long as every sample holds all the other keys.
-/

namespace PyRedis

open Foundation

namespace KeyValueStore

variable {s s' t t' u v : KeyValueStore} {now : Int} {key value k : Bytes}
variable {ordered ordered' : Prop}

section Alike

/-- The same live keys with the same entries and recency, and if the stores are
`ordered` in the same order and with the same cursor; expired keys may be there
in one and not in the other. -/
structure Alike (ordered : Prop) (now : Int) (s t : KeyValueStore) :
    Prop where
  exact : Exact s
  exact' : Exact t
  stands : StandsAt now s
  policy : s.policy = .allkeysLru
  settings : t.settings = s.settings
  tick : t.tick = s.tick
  cursor : ordered → t.evictCursor = s.evictCursor
  line : ordered → ∃ line : List Bytes, line.Nodup ∧
    s.data.keys.Sublist line ∧ t.data.keys.Sublist line
  agree : AgreeAt now s.keyspace t.keyspace
  access : ∀ k, Alive now s k → t.accessOf k = s.accessOf k
  counted : ∀ k, Alive now s k → 0 < s.accessOf k

theorem Alike.evicted (h : Alike ordered now s t) : t.evicted = s.evicted :=
  congrArg Settings.evicted h.settings

theorem Alike.stands' (h : Alike ordered now s t) : StandsAt now t :=
  h.stands.of_settings h.settings

theorem Alike.symm (h : Alike ordered now s t) : Alike ordered now t s where
  exact := h.exact'
  exact' := h.exact
  stands := h.stands'
  policy := (congrArg Settings.policy h.settings).trans h.policy
  settings := h.settings.symm
  tick := h.tick.symm
  cursor := fun ho => (h.cursor ho).symm
  line := by
    intro ho
    obtain ⟨line, hnodup, hs, ht⟩ := h.line ho
    exact ⟨line, hnodup, ht, hs⟩
  agree := h.agree.symm
  access := fun k hk => (h.access k (hk.of_agree h.agree.symm)).symm
  counted := by
    intro k hk
    have hk' := hk.of_agree h.agree.symm
    rw [h.access k hk']
    exact h.counted k hk'

/-- The order may be forgotten. -/
theorem Alike.weaken (h : Alike ordered now s t) (himp : ordered' → ordered) :
    Alike ordered' now s t :=
  { h with
    cursor := fun ho => h.cursor (himp ho)
    line := fun ho => h.line (himp ho) }

/-- A store is alike to itself. -/
theorem Alike.self (h : Alike ordered now s t) : Alike ordered' now s s where
  exact := h.exact
  exact' := h.exact
  stands := h.stands
  policy := h.policy
  settings := rfl
  tick := rfl
  cursor := fun _ => rfl
  line := fun _ => ⟨s.data.keys, s.data.keys_nodup, List.Sublist.refl _,
    List.Sublist.refl _⟩
  agree := AgreeAt.refl now _
  access := fun _ _ => rfl
  counted := h.counted

/-- Two empty stores. -/
theorem alike_init (clock : Clock) (maxmemory : Int) (now : Int) :
    Alike ordered now ((init clock maxmemory .allkeysLru).atClock (.frozen now))
      ((init clock maxmemory .allkeysLru).atClock (.frozen now)) where
  exact := (exact_init clock maxmemory .allkeysLru).atClock _
  exact' := (exact_init clock maxmemory .allkeysLru).atClock _
  stands := rfl
  policy := rfl
  settings := rfl
  tick := rfl
  cursor := fun _ => rfl
  line := fun _ =>
    ⟨[], List.nodup_nil, List.Sublist.refl _, List.Sublist.refl _⟩
  agree := AgreeAt.refl now _
  access := fun _ _ => rfl
  counted := by
    rintro k ⟨e, he, -⟩
    cases he

/-- Alike stores stay alike as time goes by. -/
theorem Alike.later (h : Alike ordered now s t) {later : Int}
    (hle : now ≤ later) : Alike ordered later (s.atClock (.frozen later))
      (t.atClock (.frozen later)) where
  exact := h.exact.atClock _
  exact' := h.exact'.atClock _
  stands := rfl
  policy := h.policy
  settings := by
    have hsettings := h.settings
    simp only [KeyValueStore.settings, Settings.mk.injEq] at hsettings
    simp only [KeyValueStore.settings, atClock, Settings.mk.injEq]
    exact ⟨hsettings.1, hsettings.2.1, trivial, hsettings.2.2.2⟩
  tick := h.tick
  cursor := h.cursor
  line := h.line
  agree := by
    rw [agreeAt_iff]
    intro k
    have hk := agreeAt_iff.mp h.agree k
    have hlater := congrArg (liveEntry later) hk
    rwa [liveEntry_idem hle, liveEntry_idem hle] at hlater
  access := fun k hk => h.access k (Alive.earlier hk hle)
  counted := fun k hk => h.counted k (Alive.earlier hk hle)

/-- Keys go from both, and the two still show the same. -/
theorem Alike.thinned (h : Alike ordered now s t) (hs : Thins s s')
    (ht : Thins t t')
    (hexact : Exact s') (hexact' : Exact t')
    (hlive : ∀ k, Alive now s' k → Alive now s k)
    (hagree : AgreeAt now s'.keyspace t'.keyspace) :
    Alike ordered now s' t' where
  exact := hexact
  exact' := hexact'
  stands := h.stands.of_settings hs.settings
  policy := (congrArg Settings.policy hs.settings).trans h.policy
  settings := ht.settings.trans (h.settings.trans hs.settings.symm)
  tick := ht.tick.trans (h.tick.trans hs.tick.symm)
  cursor := fun ho =>
    ht.cursor.trans ((h.cursor ho).trans hs.cursor.symm)
  line := by
    intro ho
    obtain ⟨line, hnodup, hsub, hsub'⟩ := h.line ho
    exact ⟨line, hnodup, hs.keys.trans hsub, ht.keys.trans hsub'⟩
  agree := hagree
  access := by
    intro k hk
    rw [hs.access k hk.mem, ht.access k (hk.of_agree hagree).mem]
    exact h.access k (hlive k hk)
  counted := by
    intro k hk
    rw [hs.access k hk.mem]
    exact h.counted k (hlive k hk)

/-- One of two alike stores throws expired keys away. -/
theorem Alike.left (h : Alike ordered now s t) (hthins : Thins s s')
    (hevolves : Evolves s [] s') (hexact : Exact s') :
    Alike ordered now s' t := by
  have hagree := hevolves.agreeAt (h.stands.of_settings hthins.settings)
  exact h.thinned hthins (tidying_thins.refl t) hexact h.exact'
    (fun k hk => hk.of_agree hagree) (hagree.trans h.agree)

/-- Both do, each its own. -/
theorem Alike.both (h : Alike ordered now s t)
    {f g : KeyValueStore → KeyValueStore} (hf : Collecting f)
    (hg : Collecting g) : Alike ordered now (f s) (g t) := by
  have hleft := h.left (hf.thins s) (hf.evolves s) (hf.exact h.exact)
  exact (hleft.symm.left (hg.thins t) (hg.evolves t)
    (hg.exact h.exact')).symm

/-- A key is removed from both. -/
theorem Alike.drop (h : Alike ordered now s t) (key : Bytes) :
    Alike ordered now (s.drop key) (t.drop key) := by
  refine h.thinned (thins_drop s key) (thins_drop t key) (h.exact.drop key)
    (h.exact'.drop key) ?_ ?_
  · rintro k ⟨e, he, halive⟩
    rw [keyspace_drop] at he
    by_cases hk : k = key
    · simp [Fact.apply, Fact.actOn, hk] at he
    · refine ⟨e, ?_, halive⟩
      simpa [Fact.apply, Fact.actOn, hk] using he
  · rw [keyspace_drop, keyspace_drop]
    exact h.agree.drop [key]

theorem Alike.relabel (h : Alike ordered now s t)
    {cursor cursor' : List Bytes} (hcursor : ordered → cursor' = cursor)
    (evicted : List Bytes) : Alike ordered now (s.relabel cursor evicted)
      (t.relabel cursor' evicted) where
  exact := h.exact.relabel cursor evicted
  exact' := h.exact'.relabel cursor' evicted
  stands := h.stands
  policy := h.policy
  settings := by
    rw [settings_relabel, settings_relabel, h.settings]
  tick := h.tick
  cursor := hcursor
  line := h.line
  agree := h.agree
  access := h.access
  counted := h.counted

/-- The same key is used in both; in ordered stores it gets the same place. -/
theorem Alike.used (h : Alike ordered now s t) (hs : Used key s s')
    (ht : Used key t t') (hexact : Exact s') (hexact' : Exact t')
    (hplace : ordered → (key ∈ s.data ↔ key ∈ t.data))
    (hentry : s'.keyspace key = t'.keyspace key) : Alike ordered now s' t' where
  exact := hexact
  exact' := hexact'
  stands := h.stands.of_settings hs.settings
  policy := (congrArg Settings.policy hs.settings).trans h.policy
  settings := ht.settings.trans (h.settings.trans hs.settings.symm)
  tick := by rw [ht.tick, h.tick, hs.tick]
  cursor := fun ho =>
    ht.cursor.trans ((h.cursor ho).trans hs.cursor.symm)
  line := by
    intro ho
    obtain ⟨line, hnodup, hsub, hsub'⟩ := h.line ho
    by_cases hk : key ∈ s.data
    · refine ⟨line, hnodup, ?_, ?_⟩
      · rwa [hs.keys, if_pos hk]
      · rwa [ht.keys, if_pos ((hplace ho).mp hk)]
    · -- the key goes last in both, wherever it may have stood before
      have hk' : key ∉ t.data := fun hmem => hk ((hplace ho).mpr hmem)
      have hrest : ∀ {keys : List Bytes}, keys.Sublist line → key ∉ keys →
          (keys ++ [key]).Sublist (line.filter (· ≠ key) ++ [key]) := by
        intro keys hkeys hnot
        refine List.Sublist.append ?_ (List.Sublist.refl _)
        have hfilter := hkeys.filter (fun k => decide (k ≠ key))
        rwa [List.filter_eq_self.mpr] at hfilter
        intro k hmem
        rw [decide_eq_true_eq]
        rintro rfl
        exact hnot hmem
      refine ⟨line.filter (· ≠ key) ++ [key], ?_, ?_, ?_⟩
      · refine List.Nodup.append (hnodup.filter _) (List.nodup_singleton key) ?_
        simp
      · rw [hs.keys, if_neg hk]
        exact hrest hsub hk
      · rw [ht.keys, if_neg hk']
        exact hrest hsub' hk'
  agree := by
    rw [agreeAt_iff]
    intro k
    by_cases hk : k = key
    · rw [hk, hentry]
    · rw [hs.others k hk, ht.others k hk]
      exact agreeAt_iff.mp h.agree k
  access := by
    intro k hlive
    rw [hs.access, ht.access, h.tick]
    split_ifs with hk
    · rfl
    · refine h.access k ?_
      obtain ⟨e, he, halive⟩ := hlive
      exact ⟨e, (hs.others k hk).symm.trans he, halive⟩
  counted := by
    intro k hlive
    rw [hs.access]
    split_ifs with hk
    · exact Nat.succ_pos _
    · refine h.counted k ?_
      obtain ⟨e, he, halive⟩ := hlive
      exact ⟨e, (hs.others k hk).symm.trans he, halive⟩

end Alike

section Entries

/-- A settled key has the same entry in both. -/
theorem Alike.entry_settled (h : Alike ordered now s t) (key : Bytes) :
    (s.settled key).keyspace key = (t.settled key).keyspace key := by
  rw [keyspace_settled, keyspace_settled, h.stands.now_eq, h.stands'.now_eq]
  simpa [collect] using agreeAt_iff.mp h.agree key

/-- A key that is not expired in either has the same entry in both. -/
theorem Alike.entry_eq (h : Alike ordered now s t)
    (hs : key ∈ s.data → Alive now s key)
    (ht : key ∈ t.data → Alive now t key) :
    t.keyspace key = s.keyspace key := by
  by_cases hk : key ∈ s.data
  · obtain ⟨e, he, halive⟩ := hs hk
    rw [he, h.agree.eq_of_alive he halive]
  · have hk' : key ∉ t.data :=
      fun hmem => hk ((ht hmem).of_agree h.agree.symm).mem
    rw [keyspace_eq_none_iff.mpr hk, keyspace_eq_none_iff.mpr hk']

theorem Alike.settled (h : Alike ordered now s t) (key : Bytes) :
    Alike ordered now (s.settled key) (t.settled key) :=
  h.both (collecting_settled key) (collecting_settled key)

theorem Alike.lookup_settled (h : Alike ordered now s t) (key : Bytes) :
    (t.settled key).data.lookup key = (s.settled key).data.lookup key := by
  rw [data_lookup_eq, data_lookup_eq, h.entry_settled]

theorem Alike.mem_settled (h : Alike ordered now s t) (key : Bytes) :
    key ∈ (s.settled key).data ↔ key ∈ (t.settled key).data := by
  rw [← OrderedDict.lookup_isSome_iff, ← OrderedDict.lookup_isSome_iff,
    h.lookup_settled]

theorem Alike.deadline_settled (h : Alike ordered now s t) (key : Bytes) :
    (t.settled key).expires.lookup key =
      (s.settled key).expires.lookup key := by
  rw [(h.exact'.settled key).expires_lookup_eq,
    (h.exact.settled key).expires_lookup_eq, h.entry_settled]

end Entries

section Selection

/-- Stores without expired keys hold the same entries. -/
theorem Alike.lookup_eq (h : Alike ordered now s t) (hs : AllAlive now s)
    (ht : AllAlive now t) (k : Bytes) :
    t.data.lookup k = s.data.lookup k := by
  rw [data_lookup_eq, data_lookup_eq, h.entry_eq (hs k) (ht k)]

theorem Alike.mem_iff (h : Alike ordered now s t) (hs : AllAlive now s)
    (ht : AllAlive now t) (k : Bytes) : k ∈ t.data ↔ k ∈ s.data := by
  rw [← OrderedDict.lookup_isSome_iff, ← OrderedDict.lookup_isSome_iff,
    h.lookup_eq hs ht]

/-- If they are ordered, they hold them in the same order. -/
theorem Alike.data_eq (h : Alike ordered now s t) (hs : AllAlive now s)
    (ht : AllAlive now t) (ho : ordered) : t.data = s.data := by
  obtain ⟨line, hnodup, hsub, hsub'⟩ := h.line ho
  refine OrderedDict.ext_lookup ?_ (h.lookup_eq hs ht)
  exact (hnodup.perm_iff_eq_of_sublist hsub' hsub).mp
    ((List.perm_ext_iff_of_nodup t.data.keys_nodup s.data.keys_nodup).mpr
      (h.mem_iff hs ht))

theorem draw_congr (hdata : t.data = s.data) (exclude : Bytes)
    (candidates cursor : List Bytes) :
    draw t exclude candidates cursor = draw s exclude candidates cursor := by
  induction cursor generalizing candidates with
  | nil =>
      rfl
  | cons candidate cursor ih =>
      simp only [draw, hdata, ih]

theorem sample_congr (hdata : t.data = s.data)
    (hcursor : t.evictCursor = s.evictCursor) (exclude : Bytes) :
    sample t exclude = sample s exclude := by
  unfold sample refill
  simp only [draw_congr hdata, hdata, hcursor]

theorem leastBy_congr {rank rank' : Bytes → Nat} {best : Bytes}
    {rest : List Bytes} (h : ∀ key ∈ best :: rest, rank' key = rank key) :
    leastBy rank' best rest = leastBy rank best rest := by
  induction rest generalizing best with
  | nil =>
      rfl
  | cons candidate rest ih =>
      have hbest := h best List.mem_cons_self
      have hcandidate := h candidate (by simp)
      unfold leastBy
      rw [hbest, hcandidate]
      split_ifs
      · exact ih fun key hkey => h key (List.mem_cons_of_mem _ hkey)
      · refine ih fun key hkey => h key ?_
        rcases List.mem_cons.mp hkey with rfl | hkey
        · exact List.mem_cons_self
        · exact List.mem_cons_of_mem _ (List.mem_cons_of_mem _ hkey)

/-- A sample that holds all the other keys. -/
def SamplesAll (s : KeyValueStore) (key : Bytes) : Prop :=
  ∀ k ∈ s.others key, k ∈ (sample s key).1

instance (s : KeyValueStore) (key : Bytes) : Decidable (s.SamplesAll key) :=
  inferInstanceAs (Decidable (∀ _ ∈ _, _))

/-- No two keys have been used last by the same use. -/
theorem Exact.eq_of_accessOf (h : Exact s) {j : Bytes}
    (hpos : 0 < s.accessOf j) (heq : s.accessOf j = s.accessOf k) : j = k := by
  unfold accessOf at hpos heq
  cases hj : s.access.lookup j with
  | none =>
      simp [hj] at hpos
  | some n =>
      cases hk : s.access.lookup k with
      | none =>
          simp only [hj, hk, Option.getD_some, Option.getD_none] at hpos heq
          omega
      | some m =>
          simp only [hj, hk, Option.getD_some] at heq
          exact h.access_inj j k n hj (by rw [hk, heq])

/-- The victim is then the oldest of all the other keys. -/
theorem oldest_of_samplesAll {w : Bytes} (hall : s.SamplesAll key)
    (hw : s.victim key = some w) (hk : s.Eligible key k) :
    s.accessOf w ≤ s.accessOf k := by
  refine (victim_spec hw).2 k ?_
  rw [← sample_eq_inLine]
  exact hall k (mem_others.mpr hk)

/-- In whatever order the keys stand, the oldest is the same. -/
theorem Alike.victim_of_samplesAll (h : Alike ordered now s t)
    (hs : AllAlive now s) (ht : AllAlive now t) (hall : s.SamplesAll key)
    (hall' : t.SamplesAll key) : t.victim key = s.victim key := by
  have hothers : ∀ k, t.Eligible key k ↔ s.Eligible key k :=
    fun k => and_congr_right fun _ => h.mem_iff hs ht k
  cases hv : s.victim key with
  | none =>
      cases hv' : t.victim key with
      | none =>
          rfl
      | some v =>
          have hother := (hothers v).mp
            (eligible_of_mem_inLine (victim_spec hv').1)
          exact absurd (eq_of_victim_none hv hother.2) hother.1
  | some v =>
      have hother := eligible_of_mem_inLine (victim_spec hv).1
      cases hv' : t.victim key with
      | none =>
          have hmem := ((hothers v).mpr hother).2
          exact absurd (eq_of_victim_none hv' hmem) hother.1
      | some v' =>
          have hother' := (hothers v').mp
            (eligible_of_mem_inLine (victim_spec hv').1)
          have hle := oldest_of_samplesAll hall hv hother'
          have hle' := oldest_of_samplesAll hall' hv' ((hothers v).mpr hother)
          have hlive := hs v hother.2
          rw [h.access v hlive, h.access v' (hs v' hother'.2)] at hle'
          rw [h.exact.eq_of_accessOf (h.counted v hlive)
            (le_antisymm hle hle')]

/-- **The same selection** in two alike stores without expired keys, if they
are ordered or the samples hold all the other keys. -/
theorem Alike.selection (h : Alike ordered now s t) (hs : AllAlive now s)
    (ht : AllAlive now t)
    (hlook : ordered ∨ (s.SamplesAll key ∧ t.SamplesAll key)) :
    t.victim key = s.victim key ∧
      (ordered → (sample t key).2 = (sample s key).2) := by
  have hsample : ordered → sample t key = sample s key :=
    fun ho => sample_congr (h.data_eq hs ht ho) (h.cursor ho) key
  refine ⟨?_, fun ho => by rw [hsample ho]⟩
  rcases hlook with ho | ⟨hall, hall'⟩
  · unfold victim
    rw [hsample ho]
    cases hdrawn : (sample s key).1 with
    | nil =>
        rfl
    | cons best rest =>
        refine congrArg some (leastBy_congr fun k hk => ?_)
        rw [← hdrawn] at hk
        exact h.access k (hs k (mem_sample hk).2)
  · exact h.victim_of_samplesAll hs ht hall hall'

theorem Alike.projected_eq (h : Alike ordered now s t) (hs : AllAlive now s)
    (ht : AllAlive now t) (key : Bytes) (c : Int) :
    t.projected key c = s.projected key c := by
  have hmemory : t.memory = s.memory := by
    rw [h.exact'.memory_eq, h.exact.memory_eq]
    exact OrderedDict.weight_congr cost (h.lookup_eq hs ht)
  unfold projected
  rw [hmemory, h.lookup_eq hs ht]

theorem AllAlive.evictOne (h : AllAlive now s) (key v : Bytes) :
    AllAlive now (s.evictOne key v) := by
  intro k hk
  exact h.drop v k hk

theorem Alike.evictOne (h : Alike ordered now s t)
    (hcursor : ordered → (sample t key).2 = (sample s key).2) (v : Bytes) :
    Alike ordered now (s.evictOne key v) (t.evictOne key v) := by
  unfold KeyValueStore.evictOne
  rw [h.evicted]
  exact (h.drop v).relabel hcursor _

/-- Of the selections of these victims one has a sample that leaves out
another key. -/
def LeavesOut (key : Bytes) : KeyValueStore → List Bytes → Prop
  | _, [] => False
  | s, v :: victims =>
      ¬ s.SamplesAll key ∨ LeavesOut key (s.evictOne key v) victims

instance LeavesOut.decidable (key : Bytes) :
    ∀ (s : KeyValueStore) (victims : List Bytes),
      Decidable (LeavesOut key s victims)
  | _, [] => inferInstanceAs (Decidable False)
  | s, v :: victims =>
      haveI := LeavesOut.decidable key (s.evictOne key v) victims
      inferInstanceAs (Decidable (¬ _ ∨ _))

theorem not_leavesOut_cons {w : Bytes} {victims : List Bytes}
    (h : ¬ LeavesOut key s (w :: victims)) :
    s.SamplesAll key ∧ ¬ LeavesOut key (s.evictOne key w) victims := by
  rwa [LeavesOut, not_or, not_not] at h

/-- The keys, their order and the cursor are all that matters. -/
theorem leavesOut_congr (hdata : t.data = s.data)
    (hcursor : t.evictCursor = s.evictCursor) (victims : List Bytes) :
    LeavesOut key t victims ↔ LeavesOut key s victims := by
  induction victims generalizing s t with
  | nil =>
      exact Iff.rfl
  | cons w victims ih =>
      have hsample := sample_congr hdata hcursor key
      have hall : t.SamplesAll key ↔ s.SamplesAll key := by
        unfold SamplesAll others
        rw [hsample, hdata]
      have hrest := @ih (s.evictOne key w) (t.evictOne key w) ?_ ?_
      · exact or_congr (not_congr hall) hrest
      · change (t.drop w).data = (s.drop w).data
        unfold drop
        rw [hdata]
        cases s.data.lookup w with
        | none =>
            exact hdata
        | some value =>
            exact congrArg (·.erase w) hdata
      · exact congrArg Prod.snd hsample

theorem Chooses.allAlive {c : Int} {victims : List Bytes}
    (h : Chooses key c s victims u) (hs : AllAlive now s) :
    AllAlive now u := by
  induction h with
  | fits _ =>
      exact hs
  | evict _ _ _ ih =>
      exact ih (hs.evictOne _ _)

/-- Two chains of selections in alike stores run through the same victims. -/
theorem Chooses.alike {c : Int} {victims victims' : List Bytes}
    (hu : Chooses key c s victims u) (hv : Chooses key c t victims' v)
    (h : Alike ordered now s t) (hs : AllAlive now s) (ht : AllAlive now t)
    (hlook : ordered ∨
      (¬ LeavesOut key s victims ∧ ¬ LeavesOut key t victims')) :
    victims' = victims ∧ Alike ordered now u v := by
  induction hu generalizing t victims' v with
  | @fits s hfits =>
      have hsum := h.projected_eq hs ht key c
      have hmax : t.maxmemory = s.maxmemory :=
        congrArg Settings.maxmemory h.settings
      cases hv with
      | fits _ =>
          exact ⟨rfl, h⟩
      | evict hover _ _ =>
          omega
  | @evict s u w victims hover hw next ih =>
      have hsum := h.projected_eq hs ht key c
      have hmax : t.maxmemory = s.maxmemory :=
        congrArg Settings.maxmemory h.settings
      cases hv with
      | fits hfits =>
          omega
      | @evict _ _ w' victims' hover' hw' next' =>
          have hlook' := hlook.imp_right fun hboth =>
            And.intro (not_leavesOut_cons hboth.1) (not_leavesOut_cons hboth.2)
          obtain ⟨hvictim, hcursor⟩ := h.selection hs ht
            (hlook'.imp_right fun hboth => ⟨hboth.1.1, hboth.2.1⟩)
          rw [hvictim, hw] at hw'
          cases hw'
          obtain ⟨hrest, halike⟩ := ih next' (h.evictOne hcursor w)
            (hs.evictOne key w) (ht.evictOne key w)
            (hlook'.imp_right fun hboth => ⟨hboth.1.2, hboth.2.2⟩)
          exact ⟨by rw [hrest], halike⟩

end Selection

section Admission

theorem projected_drop_le (s : KeyValueStore) (key' key : Bytes) (c : Int) :
    (s.drop key').projected key c ≤ s.projected key c := by
  cases hv : s.data.lookup key' with
  | none =>
      rw [drop_of_not_mem (OrderedDict.lookup_eq_none_iff.mp hv)]
  | some value =>
      have hcost := cost_nonneg key' value
      unfold projected
      rw [memory_drop hv, data_lookup_drop]
      by_cases hk : key = key'
      · subst hk
        simp only [if_true, hv]
        omega
      · simp only [if_neg hk]
        omega

theorem tidying_projected (key : Bytes) (c : Int) :
    Tidying fun s t => t.projected key c ≤ s.projected key c where
  refl _ := le_rfl
  trans h h' := le_trans h' h
  reading _ := le_rfl
  drop s key' := projected_drop_le s key' key c

theorem Alike.refuses_iff (h : Alike ordered now s t) :
    t.Refuses key value ↔ s.Refuses key value := by
  rw [refuses_iff_cost h.exact h.policy,
    refuses_iff_cost h.exact' h.symm.policy,
    show t.maxmemory = s.maxmemory from
      congrArg Settings.maxmemory h.settings]

/-- Only one of two alike stores has to reclaim, and then it has room. -/
theorem Alike.reclaimed_fits (h : Alike ordered now s t) {c : Int}
    (hfits : s.projected key c ≤ s.maxmemory) {victims : List Bytes}
    (hv : Chooses key c t.reclaimed victims v) :
    victims = [] ∧ v = t.reclaimed := by
  have hboth := h.both collecting_reclaimed collecting_reclaimed
  have hsum := hboth.projected_eq (allAlive_reclaimed h.stands)
    (allAlive_reclaimed h.stands') key c
  have hless := (tidying_projected key c).reclaimed s
  have hmax : t.reclaimed.maxmemory = s.maxmemory :=
    (congrArg Settings.maxmemory (settings_reclaimed t)).trans
      (congrArg Settings.maxmemory h.settings)
  cases hv with
  | fits _ =>
      exact ⟨rfl, rfl⟩
  | evict hover _ _ =>
      omega

/-- **The same admission** in two alike stores. -/
theorem Outcome.alike {r r' : Except Exc Unit}
    {victims victims' : List Bytes} (hu : Outcome s key value r victims u)
    (hv : Outcome t key value r' victims' v) (h : Alike ordered now s t)
    (hlook : ordered ∨ (¬ LeavesOut key s.reclaimed victims ∧
      ¬ LeavesOut key t.reclaimed victims')) :
    r' = r ∧ victims' = victims ∧ Alike ordered now u v := by
  have hrefuses : t.Refuses key value ↔ s.Refuses key value := h.refuses_iff
  have hmax : t.maxmemory = s.maxmemory :=
    congrArg Settings.maxmemory h.settings
  cases hu with
  | refused hr =>
      cases hv with
      | refused _ =>
          exact ⟨rfl, rfl, h⟩
      | fits hfits =>
          obtain ⟨hlimit, hover, -⟩ := hrefuses.mpr hr
          rcases hfits with hfree | hfits
          · exact absurd hfree hlimit
          · omega
      | evicting hr' _ _ _ =>
          exact absurd (hrefuses.mpr hr) hr'
  | fits hfits =>
      cases hv with
      | refused hr' =>
          obtain ⟨hlimit, hover, -⟩ := hrefuses.mp hr'
          rcases hfits with hfree | hfits
          · exact absurd hfree hlimit
          · omega
      | fits _ =>
          exact ⟨rfl, rfl, h⟩
      | evicting _ hlimit _ hchooses =>
          have hfits := hfits.resolve_left (by rwa [← hmax])
          obtain ⟨rfl, rfl⟩ := h.reclaimed_fits hfits hchooses
          exact ⟨rfl, rfl, (h.symm.left (tidying_thins.reclaimed t)
            (evolves_reclaimed t) h.exact'.reclaimed).symm⟩
  | evicting hr hlimit hover hchooses =>
      cases hv with
      | refused hr' =>
          exact absurd (hrefuses.mp hr') hr
      | fits hfits =>
          have hfits := hfits.resolve_left (by rwa [hmax])
          obtain ⟨rfl, rfl⟩ := h.symm.reclaimed_fits hfits hchooses
          exact ⟨rfl, rfl, h.left (tidying_thins.reclaimed s)
            (evolves_reclaimed s) h.exact.reclaimed⟩
      | evicting _ _ _ hchooses' =>
          obtain ⟨hvictims, halike⟩ := hchooses.alike hchooses'
            (h.both collecting_reclaimed collecting_reclaimed)
            (allAlive_reclaimed h.stands) (allAlive_reclaimed h.stands') hlook
          exact ⟨rfl, hvictims, halike⟩

/-- What has been thrown away before a reclaim does not matter after it. -/
theorem Alike.leavesOut_collected (h : Alike ordered now s t)
    {f : KeyValueStore → KeyValueStore} (hf : Collecting f) (key : Bytes)
    (victims : List Bytes) :
    LeavesOut key (f s).reclaimed victims ↔
      LeavesOut key s.reclaimed victims := by
  have hself : Alike True now s s := h.self
  have hmore : Alike True now s (f s) := hself.both collecting_id hf
  have hboth := hmore.both collecting_reclaimed collecting_reclaimed
  exact leavesOut_congr (hboth.data_eq (allAlive_reclaimed hmore.stands)
    (allAlive_reclaimed hmore.stands') trivial) (hboth.cursor trivial) victims

/-- A write of the key finds an entry to overwrite: one is stored, and it is
not one that the reclaim of this very write throws away. -/
def Overwrites (s : KeyValueStore) (key value : Bytes) : Prop :=
  key ∈ s.data ∧
    (s.maxmemory = 0 ∨ s.projected key (cost key value) ≤ s.maxmemory ∨
      ¬ s.isExpiredAt s.clock.now key = true)

instance (s : KeyValueStore) (key value : Bytes) :
    Decidable (s.Overwrites key value) :=
  inferInstanceAs (Decidable (_ ∧ (_ ∨ _ ∨ ¬ _)))

theorem Chooses.mem_key {c : Int} {victims : List Bytes}
    (h : Chooses key c s victims u) : key ∈ u.data ↔ key ∈ s.data := by
  induction h with
  | fits _ =>
      exact Iff.rfl
  | @evict s u v victims _ hv _ ih =>
      have hne : v ≠ key := (eligible_of_mem_inLine (victim_spec hv).1).1
      rw [ih]
      change key ∈ (s.drop v).data ↔ _
      rw [mem_data_drop]
      exact and_iff_right hne.symm

theorem Outcome.overwrites_iff {victims : List Bytes}
    (h : Outcome s key value (.ok ()) victims u) :
    key ∈ u.data ↔ s.Overwrites key value := by
  unfold Overwrites
  cases h with
  | fits hfits =>
      constructor
      · exact fun hk => ⟨hk, hfits.imp_right Or.inl⟩
      · exact fun hk => hk.1
  | evicting _ hlimit hover hchooses =>
      have hmem : key ∈ s.reclaimed.data ↔
          ¬ s.isExpiredAt s.clock.now key = true ∧ key ∈ s.data := by
        unfold reclaimed
        rw [mem_data_dropAll, mem_expiredKeys]
        rfl
      rw [hchooses.mem_key, hmem]
      constructor
      · exact fun ⟨hlive, hk⟩ => ⟨hk, Or.inr (Or.inr hlive)⟩
      · rintro ⟨hk, hfree | hfits | hlive⟩
        · exact absurd hfree hlimit
        · omega
        · exact ⟨hlive, hk⟩

end Admission

end KeyValueStore
end PyRedis
