import PyRedis.Theory.StoreEffects

/-!
# Making room for a write

The admission of a write has three outcomes.  It is let in as it is, or it is
refused with the store untouched, or expired keys are reclaimed and victims
are evicted one at a time until it fits.

A selection finds a victim whenever a key other than the one being written
exists: whatever the state of the cursor, the loop refills it from the data
before it gives up.  Since the entry alone is known to fit, the loop of the
eviction therefore ends with the write fitting.
-/

namespace PyRedis
namespace KeyValueStore

open Foundation

variable {s : KeyValueStore}

section Account

/-- The projected total: all other keys, and the entry to be written. -/
theorem projected_eq (h : Exact s) (key : Bytes) (c : Int) :
    s.projected key c = (s.data.erase key).weight cost + c := by
  unfold projected
  rw [OrderedDict.weight_erase, h.memory_eq]
  cases s.data.lookup key with
  | none =>
      simp
  | some value =>
      simp

/-- An entry that would be alone projects to its own cost. -/
theorem projected_of_alone (h : Exact s) {key : Bytes} (c : Int)
    (halone : ∀ j ∈ s.data, j = key) : s.projected key c = c := by
  have hempty : s.data.erase key = .empty := by
    apply OrderedDict.eq_empty_of_not_mem
    intro j hj
    obtain ⟨hne, hmem⟩ := OrderedDict.mem_erase.mp hj
    exact hne (halone j hmem)
  rw [projected_eq h, hempty]
  simp

/-- The total after a write is what was projected. -/
theorem memory_write (s : KeyValueStore) (key value : Bytes) :
    (s.write key value).memory = s.projected key (cost key value) := by
  unfold write projected
  cases s.data.lookup key with
  | none =>
      simp
  | some previous =>
      simp only [cost]
      ring

end Account

section Cursor

/-- A store with another eviction cursor and another report. -/
def relabel (s : KeyValueStore) (cursor evicted : List Bytes) :
    KeyValueStore :=
  { s with evictCursor := cursor, evicted := evicted }

theorem drop_relabel (s : KeyValueStore) (cursor evicted : List Bytes)
    (key : Bytes) :
    (s.relabel cursor evicted).drop key =
      (s.drop key).relabel cursor evicted := by
  unfold drop relabel
  cases s.data.lookup key <;> rfl

theorem Exact.relabel (h : Exact s) (cursor evicted : List Bytes) :
    Exact (s.relabel cursor evicted) :=
  h.frame rfl rfl rfl rfl rfl

/-- Only eligible keys join the candidates. -/
theorem mem_draw {exclude c : Bytes} {candidates cursor : List Bytes}
    (hc : c ∈ (draw s exclude candidates cursor).1) :
    c ∈ candidates ∨ (c ≠ exclude ∧ c ∈ s.data) := by
  induction cursor generalizing candidates with
  | nil =>
      exact Or.inl hc
  | cons candidate cursor ih =>
      unfold draw at hc
      split_ifs at hc with hroom hgood
      · rcases ih hc with hmem | hgood'
        · rcases List.mem_append.mp hmem with hmem | hmem
          · exact Or.inl hmem
          · rw [List.mem_singleton.mp hmem]
            exact Or.inr hgood
        · exact Or.inr hgood'
      · exact ih hc
      · exact Or.inl hc

theorem subset_draw (s : KeyValueStore) (exclude : Bytes)
    (candidates cursor : List Bytes) :
    candidates ⊆ (draw s exclude candidates cursor).1 := by
  induction cursor generalizing candidates with
  | nil =>
      exact fun _ h => h
  | cons candidate cursor ih =>
      unfold draw
      split_ifs with hroom hgood
      · exact fun c hc => ih _ (List.mem_append_left _ hc)
      · exact ih candidates
      · exact fun _ h => h

/-- A sample that is not full has seen every eligible key of the cursor. -/
theorem mem_draw_of_room {exclude c : Bytes}
    {candidates cursor : List Bytes}
    (hroom : (draw s exclude candidates cursor).1.length < maxmemorySamples)
    (hc : c ∈ cursor) (hgood : c ≠ exclude ∧ c ∈ s.data) :
    c ∈ (draw s exclude candidates cursor).1 := by
  induction cursor generalizing candidates with
  | nil =>
      cases hc
  | cons candidate cursor ih =>
      unfold draw at hroom ⊢
      split_ifs at hroom ⊢ with hlen hcandidate
      · rcases List.mem_cons.mp hc with rfl | hc
        · exact subset_draw s exclude _ cursor (by simp)
        · exact ih hroom hc
      · rcases List.mem_cons.mp hc with rfl | hc
        · exact absurd hgood hcandidate
        · exact ih hroom hc
      · exact absurd hroom hlen

theorem mem_sample {exclude c : Bytes}
    (hc : c ∈ (sample s exclude).1) : c ≠ exclude ∧ c ∈ s.data := by
  unfold sample at hc
  simp only at hc
  split_ifs at hc with hroom
  · rcases mem_draw hc with hc | hgood
    · rcases mem_draw hc with hc | hgood
      · cases hc
      · exact hgood
    · exact hgood
  · rcases mem_draw hc with hc | hgood
    · cases hc
    · exact hgood

/-- Only when no other key exists is the sample empty. -/
theorem eq_of_sample_nil {exclude j : Bytes}
    (hnil : (sample s exclude).1 = []) (hj : j ∈ s.data) : j = exclude := by
  by_contra hne
  have hrefill : j ∈ refill s exclude := by
    unfold refill
    rw [List.mem_reverse, List.mem_filter]
    exact ⟨hj, by simpa using hne⟩
  unfold sample at hnil
  simp only at hnil
  split_ifs at hnil with hroom
  · have hmem := mem_draw_of_room (by rw [hnil]; decide) hrefill ⟨hne, hj⟩
    rw [hnil] at hmem
    cases hmem
  · rw [hnil] at hroom
    exact hroom (by decide)

theorem leastBy_mem (rank : Bytes → Nat) (best : Bytes) (rest : List Bytes) :
    leastBy rank best rest ∈ best :: rest := by
  induction rest generalizing best with
  | nil =>
      exact List.mem_singleton.mpr rfl
  | cons candidate rest ih =>
      unfold leastBy
      split_ifs
      · exact List.mem_cons_of_mem _ (ih candidate)
      · rcases List.mem_cons.mp (ih best) with hbest | hrest
        · rw [hbest]
          exact List.mem_cons_self
        · exact List.mem_cons_of_mem _ (List.mem_cons_of_mem _ hrest)

/-- A selection finds a victim unless no key but the excluded one exists. -/
theorem selectVictim_run (s : KeyValueStore) (exclude : Bytes) :
    ∃ cursor,
      ((selectVictim exclude).run s =
          (.ok none, s.relabel cursor s.evicted) ∧
        ∀ j ∈ s.data, j = exclude) ∨
      ∃ victim, victim ≠ exclude ∧ victim ∈ s.data ∧
        (selectVictim exclude).run s =
          (.ok (some victim), s.relabel cursor s.evicted) := by
  refine ⟨(sample s exclude).2, ?_⟩
  cases hdrawn : (sample s exclude).1 with
  | nil =>
      left
      refine ⟨?_, fun j hj => eq_of_sample_nil hdrawn hj⟩
      simp only [Fallible.run, selectVictim, hdrawn]
      rfl
  | cons best rest =>
      right
      have hmem := leastBy_mem s.accessOf best rest
      rw [← hdrawn] at hmem
      obtain ⟨hne, hdata⟩ := mem_sample hmem
      refine ⟨leastBy s.accessOf best rest, hne, hdata, ?_⟩
      simp only [Fallible.run, selectVictim, hdrawn]
      rfl

end Cursor

section Eviction

/-- The victims go one after the other, each while the projected total is
still over the limit, and then the write fits. -/
inductive Evicts (key : Bytes) (c : Int) :
    KeyValueStore → List Bytes → Prop
  | fits {s : KeyValueStore} (h : s.projected key c ≤ s.maxmemory) :
      Evicts key c s []
  | evict {s : KeyValueStore} {victim : Bytes} {victims : List Bytes}
      (hover : s.maxmemory < s.projected key c)
      (hne : victim ≠ key) (hmem : victim ∈ s.data)
      (next : Evicts key c (s.drop victim) victims) :
      Evicts key c s (victim :: victims)

variable {key : Bytes} {c : Int} {victims : List Bytes}

theorem Evicts.ne (h : Evicts key c s victims) :
    ∀ v ∈ victims, v ≠ key := by
  induction h with
  | fits _ =>
      simp
  | evict _ hne _ _ ih =>
      intro v hv
      rcases List.mem_cons.mp hv with rfl | hv
      · exact hne
      · exact ih v hv

theorem Evicts.mem (h : Evicts key c s victims) :
    ∀ v ∈ victims, v ∈ s.data := by
  induction h with
  | fits _ =>
      simp
  | evict _ _ hmem _ ih =>
      intro v hv
      rcases List.mem_cons.mp hv with rfl | hv
      · exact hmem
      · exact (mem_data_drop.mp (ih v hv)).2

theorem Evicts.nodup (h : Evicts key c s victims) : victims.Nodup := by
  induction h with
  | fits _ =>
      exact List.nodup_nil
  | evict _ _ _ next ih =>
      refine List.nodup_cons.mpr ⟨?_, ih⟩
      intro hv
      exact (mem_data_drop.mp (next.mem _ hv)).1 rfl

/-- Every victim went while the total was over the limit. -/
theorem Evicts.over (h : Evicts key c s victims) :
    ∀ earlier victim later, victims = earlier ++ victim :: later →
      s.maxmemory < (s.dropAll earlier).projected key c := by
  induction h with
  | fits _ =>
      intro earlier victim later heq
      simp at heq
  | @evict s v vs hover hne hmem next ih =>
      intro earlier victim later heq
      cases earlier with
      | nil =>
          exact hover
      | cons first earlier =>
          rw [List.cons_append] at heq
          injection heq with hfirst hrest
          subst hfirst
          have := ih earlier victim later hrest
          rwa [(sameSettings_drop s v).maxmemory] at this

theorem Evicts.fits_after (h : Evicts key c s victims) :
    (s.dropAll victims).projected key c ≤ s.maxmemory := by
  induction h with
  | fits h =>
      exact h
  | @evict s v vs _ _ _ _ ih =>
      rwa [(sameSettings_drop s v).maxmemory] at ih

/-- The loop of the eviction ends, and with the write fitting. -/
theorem evictUntilFits_run :
    ∀ (passes : Nat) (s : KeyValueStore) (cursor evicted : List Bytes),
      Exact s → c ≤ s.maxmemory → s.data.size < passes →
      ∃ victims cursor', Evicts key c s victims ∧
        (evictUntilFits key c passes).run (s.relabel cursor evicted) =
          (.ok (), (s.dropAll victims).relabel cursor' (evicted ++ victims))
  | 0, s, _, _, _, _, hpasses => absurd hpasses (Nat.not_lt_zero _)
  | passes + 1, s, cursor, evicted, h, hc, hpasses => by
      by_cases hover : s.maxmemory < s.projected key c
      · have hover' : (s.relabel cursor evicted).maxmemory <
            (s.relabel cursor evicted).projected key c := hover
        obtain ⟨cursor₁, hnone | ⟨victim, hne, hmem, hrun⟩⟩ :=
          selectVictim_run (s.relabel cursor evicted) key
        · -- Without another key the write would fit by itself.
          have halone := projected_of_alone h c hnone.2
          omega
        · have hmem' : victim ∈ s.data := hmem
          have hdrop := sameSettings_drop s victim
          obtain ⟨victims, cursor₂, hevicts, hrest⟩ :=
            evictUntilFits_run passes (s.drop victim) cursor₁
              (evicted ++ [victim]) (h.drop victim)
              (by rw [hdrop.maxmemory]; exact hc)
              (by have := size_drop_lt hmem'; omega)
          refine ⟨victim :: victims, cursor₂,
            Evicts.evict hover hne hmem' hevicts, ?_⟩
          have hremove := remove_run
            (s := (s.relabel cursor evicted).relabel cursor₁ evicted) hmem'
          have hlist : evicted ++ victim :: victims =
              evicted ++ [victim] ++ victims := by
            simp
          have hrun' : (selectVictim key).run (s.relabel cursor evicted) =
              (.ok (some victim), s.relabel cursor₁ evicted) := hrun
          have hremove' : (remove victim).run (s.relabel cursor₁ evicted) =
              (.ok (), (s.drop victim).relabel cursor₁ evicted) := by
            rw [← drop_relabel]
            exact hremove
          simp only [evictUntilFits, Fallible.run_bind, Fallible.run_get,
            if_pos hover', hrun', hremove', Fallible.run_modify]
          rw [dropAll_cons, hlist]
          exact hrest
      · refine ⟨[], cursor, Evicts.fits (not_lt.mp hover), ?_⟩
        have hover' : ¬ (s.relabel cursor evicted).maxmemory <
            (s.relabel cursor evicted).projected key c := hover
        simp only [evictUntilFits, Fallible.run_bind, Fallible.run_get,
          if_neg hover', Fallible.run_pure, dropAll_nil, List.append_nil]

end Eviction

section Admission

/-- The write is turned away. -/
def Refuses (s : KeyValueStore) (key value : Bytes) : Prop :=
  s.maxmemory ≠ 0 ∧ s.maxmemory < s.projected key (cost key value) ∧
    (s.policy = .noeviction ∨ s.maxmemory < cost key value)

instance (s : KeyValueStore) (key value : Bytes) :
    Decidable (s.Refuses key value) :=
  inferInstanceAs (Decidable (_ ∧ _ ∧ (_ ∨ _)))

/-- The write is let in after the victims are gone, in the state given. -/
inductive Admits (s : KeyValueStore) (key value : Bytes) :
    List Bytes → KeyValueStore → Prop
  | asIs (h : s.maxmemory = 0 ∨
        s.projected key (cost key value) ≤ s.maxmemory) :
      Admits s key value [] s
  | evicting {victims : List Bytes} (cursor : List Bytes)
      (hover : s.maxmemory < s.projected key (cost key value))
      (h : Evicts key (cost key value) s.reclaimed victims) :
      Admits s key value victims
        ((s.reclaimed.dropAll victims).relabel cursor
          (s.evicted ++ victims))

variable {key value : Bytes}

theorem sameSettings_reclaimed (s : KeyValueStore) :
    SameSettings s.afterReading s.reclaimed :=
  sameSettings_dropAll s.afterReading _

theorem admit_run_of_refuses (hr : s.Refuses key value) :
    (admitWrite key value).run s = (.error (.store .outOfMemory), s) := by
  obtain ⟨hlimit, hover, hwhy⟩ := hr
  unfold admitWrite
  simp only [Fallible.run_bind, Fallible.run_get, if_neg hlimit,
    if_neg (not_le.mpr hover)]
  rcases hwhy with hpolicy | hcost
  · simp [hpolicy]
  · by_cases hpolicy : s.policy = .noeviction
    · simp [hpolicy]
    · simp [hpolicy, hcost]

/-- Without a limit, or within it, a write is admitted as it is. -/
theorem admit_run_of_fits (hfits : s.maxmemory = 0 ∨
      s.projected key (cost key value) ≤ s.maxmemory) :
    (admitWrite key value).run s = (.ok (), s) := by
  unfold admitWrite
  by_cases hlimit : s.maxmemory = 0
  · simp [hlimit]
  · simp [hlimit, hfits.resolve_left hlimit]

/-- What is not refused is let in. -/
theorem admit_run_of_not_refuses (h : Exact s)
    (hr : ¬ s.Refuses key value) :
    ∃ victims s', Admits s key value victims s' ∧
      (admitWrite key value).run s = (.ok (), s') := by
  by_cases hlimit : s.maxmemory = 0
  · exact ⟨[], s, Admits.asIs (Or.inl hlimit),
      admit_run_of_fits (Or.inl hlimit)⟩
  by_cases hfits : s.projected key (cost key value) ≤ s.maxmemory
  · exact ⟨[], s, Admits.asIs (Or.inr hfits),
      admit_run_of_fits (Or.inr hfits)⟩
  unfold admitWrite
  have hover := not_le.mp hfits
  have hpolicy : s.policy ≠ .noeviction :=
    fun hp => hr ⟨hlimit, hover, Or.inl hp⟩
  have hcost : ¬ s.maxmemory < cost key value :=
    fun hc => hr ⟨hlimit, hover, Or.inr hc⟩
  have hsettings := sameSettings_reclaimed s
  have hmax : s.reclaimed.maxmemory = s.maxmemory := hsettings.maxmemory
  obtain ⟨victims, cursor, hevicts, hrun⟩ :=
    @evictUntilFits_run key (cost key value)
      (s.reclaimed.data.size + 1) s.reclaimed s.reclaimed.evictCursor
      s.evicted h.reclaimed (by rw [hmax]; omega) (Nat.lt_succ_self _)
  refine ⟨victims, _, Admits.evicting cursor hover hevicts, ?_⟩
  have hself : s.reclaimed.relabel s.reclaimed.evictCursor s.evicted =
      s.reclaimed := by
    unfold relabel
    rw [← show s.reclaimed.evicted = s.evicted from hsettings.evicted]
  rw [hself] at hrun
  simp only [Fallible.run_bind, Fallible.run_get, if_neg hlimit,
    if_neg hfits, if_neg hpolicy, if_neg hcost, dropExpired_run h]
  exact hrun

theorem Admits.exact (h : Exact s) {victims : List Bytes}
    {s' : KeyValueStore} (ha : Admits s key value victims s') :
    Exact s' := by
  cases ha with
  | asIs _ =>
      exact h
  | evicting cursor _ _ =>
      exact (h.reclaimed.dropAll victims).relabel cursor _

end Admission

end KeyValueStore
end PyRedis
