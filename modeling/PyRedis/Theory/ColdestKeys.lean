import PyRedis.Theory.EvictionRuns
import PyRedis.Theory.Garbage

/-!
# The coldest key is found

A key that is older than all others is the victim as soon as it is drawn.  As
long as it is not drawn, every selection takes five keys or more off the
cursor, or refills the cursor with that key in it, and then it is drawn before
the cursor can run out again.  Meanwhile nothing but its own use can make it
younger, and every other key that is used or comes back gets younger than it.
-/

namespace PyRedis

open Foundation

namespace KeyValueStore

variable {s t u : KeyValueStore} {g key v : Bytes} {c m n : Nat}

section Sparing

/-- What happens as long as a key is not used: it is there only if it was, as
old as it was, and the cursor has not moved; another key that was not there, or
is not as old as it was, has been used since. -/
structure Spares (g : Bytes) (s t : KeyValueStore) : Prop where
  tick : s.tick ≤ t.tick
  key : g ∈ t.data → g ∈ s.data ∧ t.accessOf g = s.accessOf g ∧
    t.evictCursor = s.evictCursor
  others : ∀ k ∈ t.data, k ≠ g →
    (k ∈ s.data ∧ t.accessOf k = s.accessOf k) ∨ s.tick < t.accessOf k

theorem spares_of_data (hdata : t.data = s.data) (haccess : t.access = s.access)
    (htick : t.tick = s.tick) (hcursor : t.evictCursor = s.evictCursor) :
    Spares g s t where
  tick := htick.ge
  key := by
    rw [hdata, accessOf, haccess]
    exact fun h => ⟨h, rfl, hcursor⟩
  others := by
    intro k hk _
    rw [hdata] at hk
    rw [accessOf, haccess]
    exact Or.inl ⟨hk, rfl⟩

theorem Spares.trans (h : Spares g s t) (h' : Spares g t u) :
    Spares g s u where
  tick := le_trans h.tick h'.tick
  key := by
    intro hu
    obtain ⟨ht, haccess', hcursor'⟩ := h'.key hu
    obtain ⟨hs, haccess, hcursor⟩ := h.key ht
    exact ⟨hs, haccess'.trans haccess, hcursor'.trans hcursor⟩
  others := by
    intro k hk hne
    rcases h'.others k hk hne with ⟨ht, haccess⟩ | hyounger
    · rw [haccess]
      exact h.others k ht hne
    · exact Or.inr (lt_of_le_of_lt h.tick hyounger)

theorem spares_drop (g : Bytes) (s : KeyValueStore) (key : Bytes) :
    Spares g s (s.drop key) where
  tick := (sameSettings_drop s key).tick.ge
  key := by
    intro hg
    obtain ⟨hne, hmem⟩ := mem_data_drop.mp hg
    exact ⟨hmem, accessOf_drop_of_ne hne,
      (sameSettings_drop s key).evictCursor⟩
  others := by
    intro k hk _
    obtain ⟨hne, hmem⟩ := mem_data_drop.mp hk
    exact Or.inl ⟨hmem, accessOf_drop_of_ne hne⟩

theorem tidying_spares (g : Bytes) : Tidying (Spares g) where
  refl _ := spares_of_data rfl rfl rfl rfl
  trans := Spares.trans
  reading _ := spares_of_data rfl rfl rfl rfl
  drop := spares_drop g

/-- The use of another key. -/
theorem spares_of_use (hne : key ≠ g)
    (hdata : ∀ k, k ∈ t.data → k = key ∨ k ∈ s.data)
    (haccess : ∀ k,
      t.accessOf k = if k = key then s.tick + 1 else s.accessOf k)
    (htick : t.tick = s.tick + 1) (hcursor : t.evictCursor = s.evictCursor) :
    Spares g s t where
  tick := by omega
  key := by
    intro hg
    have hs := (hdata g hg).resolve_left hne.symm
    exact ⟨hs, by rw [haccess, if_neg hne.symm], hcursor⟩
  others := by
    intro k hk _
    rw [haccess]
    split_ifs with heq
    · exact Or.inr (Nat.lt_succ_self _)
    · exact Or.inl ⟨(hdata k hk).resolve_left heq, rfl⟩

theorem spares_touch (hne : key ≠ g) (s : KeyValueStore) :
    Spares g s (s.touch key) :=
  spares_of_use hne (fun _ hk => Or.inr hk) (accessOf_touch s key) rfl rfl

theorem spares_rewritten (hne : key ≠ g) (s : KeyValueStore)
    (value : Bytes) : Spares g s (s.rewritten key value) :=
  spares_of_use hne (fun _ hk => OrderedDict.mem_set.mp hk)
    (accessOf_touch (s.write key value) key) rfl rfl

theorem spares_stored (hne : key ≠ g) (s : KeyValueStore) (value : Bytes)
    (d : Option Int) : Spares g s (s.stored key value d) := by
  have hassign : ∀ (r : KeyValueStore), (r.assignExpires key d).data = r.data ∧
      (r.assignExpires key d).access = r.access ∧
      (r.assignExpires key d).tick = r.tick ∧
      (r.assignExpires key d).evictCursor = r.evictCursor := by
    intro r
    cases d <;> exact ⟨rfl, rfl, rfl, rfl⟩
  obtain ⟨hdata, haccess, htick, hcursor⟩ := hassign (s.write key value)
  refine spares_of_use hne ?_ ?_ ?_ ?_
  · intro k hk
    change k ∈ ((s.write key value).assignExpires key d).data at hk
    rw [hdata] at hk
    exact OrderedDict.mem_set.mp hk
  · intro k
    rw [stored, accessOf_touch, htick, accessOf, haccess]
    rfl
  · exact congrArg (· + 1) htick
  · exact hcursor

theorem spares_gotten (hne : key ≠ g) (s : KeyValueStore) :
    Spares g s (s.gotten key) := by
  have hsettled := (tidying_spares g).settled s key
  unfold gotten
  split_ifs
  · exact hsettled.trans (spares_touch hne _)
  · exact hsettled

/-- A flush leaves no key to be found. -/
theorem spares_cleared (g : Bytes) (s : KeyValueStore) :
    Spares g s s.cleared where
  tick := le_rfl
  key := fun h => absurd h (OrderedDict.not_mem_empty g)
  others := fun k hk => absurd hk (OrderedDict.not_mem_empty k)

end Sparing

section Coldest

/-- The key is there, and every other key is younger. -/
structure Coldest (g : Bytes) (s : KeyValueStore) : Prop where
  mem : g ∈ s.data
  colder : ∀ k ∈ s.data, k ≠ g → s.accessOf g < s.accessOf k

/-- The coldest key stays the coldest while it is not used. -/
theorem Coldest.spared (h : Coldest g s) (hexact : Exact s)
    (hs : Spares g s t) (hmem : g ∈ t.data) : Coldest g t where
  mem := hmem
  colder := by
    intro k hk hne
    have hg := (hs.key hmem).2.1
    rcases hs.others k hk hne with ⟨hs, haccess⟩ | hyounger
    · rw [hg, haccess]
      exact h.colder k hs hne
    · rw [hg]
      exact lt_of_le_of_lt (hexact.accessOf_le g) hyounger

/-- The coldest key is the victim once it is in line. -/
theorem Coldest.victim_eq (h : Coldest g s) (hv : s.victim key = some v)
    (hline : g ∈ s.inLine key) : v = g := by
  obtain ⟨hmem, hleast⟩ := victim_spec hv
  by_contra hne
  have hless := h.colder v (eligible_of_mem_inLine hmem).2 hne
  have hle := hleast g hline
  omega

/-- A selection draws five keys or more off the cursor, or all of it and some
off a full one. -/
theorem sample_spec (s : KeyValueStore) (exclude : Bytes) :
    (∃ popped, s.evictCursor = popped ++ (sample s exclude).2 ∧
      maxmemorySamples ≤ popped.length ∧
      ∀ k ∈ popped, s.Eligible exclude k → k ∈ s.inLine exclude) ∨
    ((∀ k ∈ s.evictCursor, s.Eligible exclude k → k ∈ s.inLine exclude) ∧
      ∃ popped, (s.others exclude).reverse = popped ++ (sample s exclude).2 ∧
        ∀ k ∈ popped, s.Eligible exclude k → k ∈ s.inLine exclude) := by
  obtain ⟨first, hcursor, hdrawn, hlen, hend⟩ :=
    draw_spec s exclude [] s.evictCursor (Nat.zero_le _)
  rw [List.nil_append] at hdrawn
  rw [← sample_eq_inLine]
  unfold sample
  simp only
  split_ifs with hroom
  · obtain ⟨second, hrefill, hdrawn', -, -⟩ := draw_spec s exclude
      (draw s exclude [] s.evictCursor).1 (refill s exclude) hroom.le
    rw [hend hroom, List.append_nil] at hcursor
    rw [hdrawn']
    refine Or.inr ⟨fun k hk hgood => ?_, second, hrefill,
      fun k hk hgood => ?_⟩
    · rw [hcursor] at hk
      refine List.mem_append_left _ ?_
      rw [hdrawn]
      exact List.mem_filter.mpr ⟨hk, decide_eq_true hgood⟩
    · exact List.mem_append_right _
        (List.mem_filter.mpr ⟨hk, decide_eq_true hgood⟩)
  · refine Or.inl ⟨first, hcursor, ?_, fun k hk hgood => ?_⟩
    · have hfilter := List.length_filter_le (s.Eligible exclude ·) first
      rw [← hdrawn] at hfilter
      omega
    · rw [hdrawn]
      exact List.mem_filter.mpr ⟨hk, decide_eq_true hgood⟩

end Coldest

section Search

/-- How far the search for a key has come after some selections, the cursor
having held `c` keys at first: it still goes through these, or it goes through
a cursor that was filled with the key in it. -/
inductive Searching (g : Bytes) (c m : Nat) (n : Nat) (s : KeyValueStore) :
    Prop where
  | before (h : 5 * n + s.evictCursor.length ≤ c)
  | within (later : Nat) (hn : n ≤ c / 5 + 1 + later)
      (hmem : g ∈ s.evictCursor)
      (h : 5 * later + s.evictCursor.length ≤ m)

/-- The search is over before so many selections are made. -/
theorem Searching.bound (h : Searching g c m n s) :
    n < c / 5 + 1 + (m + 4) / 5 := by
  cases h with
  | before h =>
      omega
  | within later hn hmem h =>
      have hpos := List.length_pos_of_mem hmem
      omega

/-- **One selection** that is survived takes the search further. -/
theorem Searching.select (h : Searching g c m n s) (hcold : Coldest g s)
    (hne : key ≠ g) (hsize : (s.others key).length ≤ m)
    (hv : s.victim key = some v) (hvg : v ≠ g) :
    Searching g c m (n + 1) (s.evictOne key v) := by
  have hgood : s.Eligible key g := ⟨hne.symm, hcold.mem⟩
  have hline : g ∉ s.inLine key := fun hg => hvg (hcold.victim_eq hv hg)
  have hcursor : (s.evictOne key v).evictCursor = (sample s key).2 := rfl
  rcases sample_spec s key with
    ⟨popped, hpopped, hfive, hdrawn⟩ | ⟨hall, popped, hpopped, hdrawn⟩
  · have hlen := congrArg List.length hpopped
    rw [List.length_append] at hlen
    have hfive' : 5 ≤ popped.length := hfive
    cases h with
    | before h =>
        refine Searching.before ?_
        rw [hcursor]
        omega
    | within later hn hmem h =>
        refine Searching.within (later + 1) (by omega) ?_ ?_
        · rw [hcursor]
          rw [hpopped] at hmem
          rcases List.mem_append.mp hmem with hmem | hmem
          · exact absurd (hdrawn g hmem hgood) hline
          · exact hmem
        · rw [hcursor]
          omega
  · have hlen := congrArg List.length hpopped
    rw [List.length_append, List.length_reverse] at hlen
    have hrefilled : g ∈ (sample s key).2 := by
      have hg : g ∈ (s.others key).reverse :=
        List.mem_reverse.mpr (mem_others.mpr hgood)
      rw [hpopped] at hg
      rcases List.mem_append.mp hg with hg | hg
      · exact absurd (hdrawn g hg hgood) hline
      · exact hg
    cases h with
    | before h =>
        refine Searching.within 0 (by omega) ?_ ?_
        · rw [hcursor]
          exact hrefilled
        · rw [hcursor]
          omega
    | within later hn hmem h =>
        exact absurd (hall g hmem hgood) hline

/-- What a stretch with these victims does to the search for a key: while the
key is there the search goes on, and the key is no victim once it is over. -/
structure Pursues (g : Bytes) (c m : Nat) (s : KeyValueStore)
    (victims : List Bytes) (t : KeyValueStore) : Prop where
  kept : g ∈ t.data → g ∈ s.data
  search : g ∈ t.data → ∀ n, Coldest g s → Searching g c m n s →
    Coldest g t ∧ Searching g c m (n + victims.length) t
  found : ∀ earlier later, victims = earlier ++ g :: later →
    g ∈ s.data ∧ ∀ n, Coldest g s → Searching g c m n s →
      n + earlier.length < c / 5 + 1 + (m + 4) / 5

theorem Pursues.trans {victims victims' : List Bytes}
    (h : Pursues g c m s victims t) (h' : Pursues g c m t victims' u) :
    Pursues g c m s (victims ++ victims') u where
  kept := fun hu => h.kept (h'.kept hu)
  search := by
    intro hu n hcold hsearch
    obtain ⟨hcold', hsearch'⟩ := h.search (h'.kept hu) n hcold hsearch
    have hend := h'.search hu _ hcold' hsearch'
    rwa [List.length_append, ← Nat.add_assoc]
  found := by
    have hlater : ∀ earlier later, victims' = earlier ++ g :: later →
        g ∈ s.data ∧ ∀ n, Coldest g s → Searching g c m n s →
          n + (victims ++ earlier).length < c / 5 + 1 + (m + 4) / 5 := by
      intro earlier later hvictims
      obtain ⟨ht, hfound⟩ := h'.found earlier later hvictims
      refine ⟨h.kept ht, fun n hcold hsearch => ?_⟩
      obtain ⟨hcold', hsearch'⟩ := h.search ht n hcold hsearch
      have hless := hfound _ hcold' hsearch'
      rwa [List.length_append, ← Nat.add_assoc]
    intro earlier later hall
    rcases List.append_eq_append_iff.mp hall with
      ⟨rest, rfl, hrest⟩ | ⟨rest, hfirst, hrest⟩
    · exact hlater rest later hrest
    · cases rest with
      | nil =>
          have hvictims : victims = earlier := by simpa using hfirst
          have := hlater [] later hrest.symm
          rwa [List.append_nil, hvictims] at this
      | cons k rest =>
          obtain ⟨rfl, -⟩ := List.cons_eq_cons.mp hrest
          exact h.found earlier rest hfirst

theorem Spares.pursues (hexact : Exact s) (h : Spares g s t) :
    Pursues g c m s [] t where
  kept := fun ht => (h.key ht).1
  search := by
    intro ht n hcold hsearch
    have hcursor := (h.key ht).2.2
    refine ⟨hcold.spared hexact h ht, ?_⟩
    cases hsearch with
    | before h =>
        refine Searching.before ?_
        rwa [hcursor]
    | within later hn hmem h =>
        refine Searching.within later hn ?_ ?_
        · rwa [hcursor]
        · rwa [hcursor]
  found := by
    intro earlier later hnone
    simp at hnone

theorem length_others_le (s : KeyValueStore) (key : Bytes) :
    (s.others key).length ≤ s.data.size := by
  rw [← OrderedDict.length_keys]
  exact List.length_filter_le _ _

/-- A chain of selections for the write of another key. -/
theorem Chooses.pursues {cost' : Int} {victims : List Bytes}
    (h : Chooses key cost' s victims t) (hne : key ≠ g)
    (hsize : s.data.size ≤ m) : Pursues g c m s victims t := by
  induction h with
  | fits _ =>
      refine ⟨id, fun _ n hcold hsearch => ⟨hcold, hsearch⟩, ?_⟩
      intro earlier later hnone
      simp at hnone
  | @evict s t v victims hover hv next ih =>
      have hrest := ih (le_trans (size_drop_lt (mem_of_victim hv)).le hsize)
      have hdrop : ∀ k ∈ (s.evictOne key v).data, k ≠ v ∧ k ∈ s.data :=
        fun k hk => mem_data_drop.mp hk
      have hothers := le_trans (length_others_le s key) hsize
      -- a selection that the key survives
      have hstep : g ∈ (s.evictOne key v).data → ∀ n, Coldest g s →
          Searching g c m n s → Coldest g (s.evictOne key v) ∧
            Searching g c m (n + 1) (s.evictOne key v) := by
        intro hmem n hcold hsearch
        obtain ⟨hvg, hs⟩ := hdrop g hmem
        refine ⟨⟨hmem, fun k hk hkg => ?_⟩,
          hsearch.select hcold hne hothers hv hvg.symm⟩
        obtain ⟨hkv, hks⟩ := hdrop k hk
        have hless := hcold.colder k hks hkg
        rwa [← accessOf_drop_of_ne hvg, ← accessOf_drop_of_ne hkv] at hless
      refine ⟨fun ht => (hdrop g (hrest.kept ht)).2, ?_, ?_⟩
      · intro ht n hcold hsearch
        obtain ⟨hcold', hsearch'⟩ := hstep (hrest.kept ht) n hcold hsearch
        have hend := hrest.search ht _ hcold' hsearch'
        rwa [List.length_cons, Nat.add_comm victims.length, ← Nat.add_assoc]
      · intro earlier later hvictims
        cases earlier with
        | nil =>
            obtain ⟨rfl, -⟩ := List.cons_eq_cons.mp hvictims
            exact ⟨mem_of_victim hv, fun n _ hsearch => hsearch.bound⟩
        | cons k earlier =>
            have htail := (List.cons_eq_cons.mp hvictims).2
            obtain ⟨hmem, hfound⟩ := hrest.found earlier later htail
            refine ⟨(hdrop g hmem).2, fun n hcold hsearch => ?_⟩
            obtain ⟨hcold', hsearch'⟩ := hstep hmem n hcold hsearch
            have hless := hfound _ hcold' hsearch'
            rw [List.length_cons]
            omega

theorem tidying_size : Tidying fun s t => t.data.size ≤ s.data.size where
  refl _ := le_rfl
  trans h h' := le_trans h' h
  reading _ := le_rfl
  drop s key := by
    by_cases hk : key ∈ s.data
    · exact (size_drop_lt hk).le
    · rw [drop_of_not_mem hk]

/-- An admission for the write of another key. -/
theorem Outcome.pursues {value : Bytes} {r : Except Exc Unit}
    {victims : List Bytes} (hexact : Exact s)
    (h : Outcome s key value r victims t) (hne : key ≠ g)
    (hsize : s.data.size ≤ m) : Pursues g c m s victims t := by
  have hself : Pursues g c m s [] s :=
    ((tidying_spares g).refl s).pursues hexact
  cases h with
  | refused hr =>
      exact hself
  | fits h =>
      exact hself
  | evicting hr hlimit hover h =>
      have hreclaimed : Pursues g c m s [] s.reclaimed :=
        ((tidying_spares g).reclaimed s).pursues hexact
      exact hreclaimed.trans
        (h.pursues hne (le_trans (tidying_size.reclaimed s) hsize))

end Search

end KeyValueStore

namespace Commands

open KeyValueStore

variable {py : Interpreter} {s : KeyValueStore} {g : Bytes} {c m : Nat}

section Requests

theorem spares_reported (g : Bytes) (s : KeyValueStore) :
    Spares g s (reported s) :=
  spares_of_data rfl rfl rfl rfl

/-- A write that has been let in. -/
theorem pursues_written {key value : Bytes} {victims : List Bytes}
    {t u w : KeyValueStore} (ht : Exact t)
    (hdrained : t.evicted = []) (hspares : Spares g s t) (hs : Exact s)
    (houtcome : Outcome t key value (.ok ()) victims u)
    (hw : Spares g u w) (hevicted : w.evicted = u.evicted)
    (hne : key ≠ g) (hsize : t.data.size ≤ m) :
    Pursues g c m s (victimsOf (writeFacts w key value)) (reported w) := by
  have hvictims : victimsOf (writeFacts w key value) = [] ++ (victims ++ []) := by
    rw [Outcome.victimsOf_written houtcome hdrained hevicted value]
    simp
  rw [hvictims]
  have hu := houtcome.exact ht
  exact (hspares.pursues hs).trans ((houtcome.pursues ht hne hsize).trans
    ((hw.trans (spares_reported g w)).pursues hu))

/-- What evicts nothing and uses another key. -/
theorem Plan.pursues_of_run (hs : Exact s) {p : Plan}
    {r : Except Exc Effect} {t : KeyValueStore}
    (hrun : (p.effect py).run s = (r, t))
    (hfacts : victimsOf (factsOf r) = []) (hspares : Spares g s t) :
    Pursues g c m s (victimsOf (factsOf ((p.effect py).run s).1))
      ((p.effect py).run s).2 := by
  rw [hrun]
  dsimp only
  rw [hfacts]
  exact hspares.pursues hs

theorem Plan.pursues_set {maxmemory : Int} {policy : MaxmemoryPolicy}
    (hs : Resting maxmemory policy s) (key value : Bytes)
    (ttl : Option Int)
    (hwrite : ∀ value' d, Fact.put g value' d ∉
      factsOf (((Plan.set key value ttl).effect py).run s).1)
    (hsize : s.data.size ≤ m) :
    Pursues g c m s
      (victimsOf (factsOf (((Plan.set key value ttl).effect py).run s).1))
      (((Plan.set key value ttl).effect py).run s).2 := by
  obtain ⟨e, t, hsets, hrun⟩ := set_effect_run hs.exact key value ttl
  cases hsets with
  | untimely ht =>
      exact Plan.pursues_of_run hs.exact hrun rfl
        ((tidying_spares g).timing ht)
  | refused ht hr =>
      exact Plan.pursues_of_run hs.exact hrun rfl
        ((tidying_spares g).timing ht)
  | @stored d t u victims ht hr ha =>
      obtain ⟨victims, u, houtcome, hrun⟩ :=
        set_effect_stored hs.exact ht hr
      rw [hrun] at hwrite ⊢
      have hne : key ≠ g := by
        rintro rfl
        exact hwrite value _ (List.mem_append_right _ (List.mem_singleton_self _))
      have hsame : t.evicted = s.evicted ∧ t.data = s.data := by
        rcases timing_eq_or ht with rfl | rfl <;> exact ⟨rfl, rfl⟩
      have hevicted := (used_stored u key value d).evicted
      exact pursues_written (hs.exact.timed ht)
        (hsame.1.trans hs.drained) ((tidying_spares g).timing ht) hs.exact
        houtcome (spares_stored hne u value d) hevicted hne
        (by rwa [hsame.2])

theorem Plan.pursues_incr {maxmemory : Int} {policy : MaxmemoryPolicy}
    (hs : Resting maxmemory policy s) (key : Bytes)
    (hwrite : ∀ value d,
      Fact.put g value d ∉ factsOf (((Plan.incr key).effect py).run s).1)
    (hsize : s.data.size ≤ m) :
    Pursues g c m s
      (victimsOf (factsOf (((Plan.incr key).effect py).run s).1))
      (((Plan.incr key).effect py).run s).2 := by
  have hsettled := (tidying_spares g).settled s key
  obtain ⟨r, t, hincrs, hrun⟩ := incr_effect_run hs.exact key
  cases hincrs with
  | unread hcounter =>
      exact Plan.pursues_of_run hs.exact hrun rfl hsettled
  | malformed hcounter =>
      exact Plan.pursues_of_run hs.exact hrun rfl hsettled
  | overflow hcounter hover =>
      exact Plan.pursues_of_run hs.exact hrun rfl hsettled
  | refused hcounter hfits hr =>
      exact Plan.pursues_of_run hs.exact hrun rfl hsettled
  | stored hcounter hfits hr ha =>
      obtain ⟨victims, u, houtcome, hrun⟩ :=
        incr_effect_stored hs.exact hcounter hfits hr
      rw [hrun] at hwrite ⊢
      have hne : key ≠ g := by
        rintro rfl
        exact hwrite _ _ (List.mem_append_right _ (List.mem_singleton_self _))
      have hdrained : (s.settled key).evicted = [] :=
        ((collecting_settled key).evicted s).trans hs.drained
      exact pursues_written (hs.exact.settled key) hdrained hsettled hs.exact
        houtcome (spares_rewritten hne u _) rfl hne
        (le_trans (tidying_size.settled s key) hsize)

/-- **What a request does to the search** for a key that it neither reads nor
writes. -/
theorem Plan.pursues {maxmemory : Int} {policy : MaxmemoryPolicy}
    (hs : Resting maxmemory policy s) (p : Plan) (hread : p ≠ .get g)
    (hwrite : ∀ value d,
      Fact.put g value d ∉ factsOf ((p.effect py).run s).1)
    (hsize : s.data.size ≤ m) :
    Pursues g c m s (victimsOf (factsOf ((p.effect py).run s).1))
      ((p.effect py).run s).2 := by
  have h := hs.exact
  have htidy := tidying_spares g
  cases p with
  | answer reply =>
      exact Plan.pursues_of_run h rfl rfl (htidy.refl s)
  | raise e =>
      cases hreply : errorReply e with
      | none =>
          exact Plan.pursues_of_run h (Plan.effect_run_raise rfl hreply) rfl
            (htidy.refl s)
      | some reply =>
          exact Plan.pursues_of_run h (Plan.effect_run_reply rfl hreply) rfl
            (htidy.refl s)
  | set key value ttl =>
      exact Plan.pursues_set hs key value ttl hwrite hsize
  | incr key =>
      exact Plan.pursues_incr hs key hwrite hsize
  | get key =>
      have hne : key ≠ g := by
        rintro rfl
        exact hread rfl
      exact Plan.pursues_of_run h (Plan.effect_run_ok (effect_get_run h key []))
        rfl (spares_gotten hne s)
  | ttl key =>
      exact Plan.pursues_of_run h (Plan.effect_run_ok (effect_ttl_run h key []))
        rfl (htidy.inspected s key)
  | delete keys =>
      refine Plan.pursues_of_run h
        (Plan.effect_run_ok (effect_delete_run h keys)) ?_
        (htidy.deleted s keys)
      simp only [factsOf]
      split_ifs
      · exact victimsOf_singleton _
      · rfl
  | «exists» keys =>
      exact Plan.pursues_of_run h
        (Plan.effect_run_ok (effect_exists_run h keys)) rfl
        (htidy.looked s keys)
  | dbsize =>
      exact Plan.pursues_of_run h (Plan.effect_run_ok (effect_dbsize_run h []))
        rfl (htidy.reclaimed s)
  | flushdb =>
      exact Plan.pursues_of_run h (Plan.effect_run_ok rfl) rfl
        (spares_cleared g s)
  | persist key =>
      have hrun := effect_persist_run h key []
      have hsettled := htidy.settled s key
      split_ifs at hrun
      · exact Plan.pursues_of_run h (Plan.effect_run_ok hrun) rfl
          (hsettled.trans (spares_of_data rfl rfl rfl rfl))
      · exact Plan.pursues_of_run h (Plan.effect_run_ok hrun) rfl hsettled
  | expire key ttlMs =>
      have hrun := @expire_effect_run py s h key ttlMs
      have hsettled := htidy.settled s key
      split_ifs at hrun
      · exact Plan.pursues_of_run h hrun rfl
          (hsettled.trans (htidy.drop _ key))
      · exact Plan.pursues_of_run h hrun rfl
          (hsettled.trans (htidy.reading _))
      · exact Plan.pursues_of_run h hrun rfl
          (hsettled.trans (spares_of_data rfl rfl rfl rfl))
      · exact Plan.pursues_of_run h hrun rfl hsettled

end Requests

end Commands

namespace Server

open Commands KeyValueStore

variable {J : Type} [Journal J]

section Runs

/-- The event reads the key with GET, or writes it with SET or INCR. -/
def Uses (py : Interpreter) (g : Bytes) (state : KeyValueStore × J)
    (event : Event) : Prop :=
  (∃ parts, event = .request parts ∧ plan py parts = .get g) ∨
    ∃ value d, Fact.put g value d ∈ recorded py state event

variable {py : Interpreter} {maxmemory : Int} {policy : MaxmemoryPolicy}
variable {g : Bytes} {c m : Nat} {s : KeyValueStore} {j : J}

theorem afterEvents_concat (state : KeyValueStore × J) (events : List Event)
    (event : Event) :
    Server.afterEvents py state (events ++ [event]) =
      ((handle py event).run (Server.afterEvents py state events)).2 := by
  simp [Server.afterEvents]

theorem victimsDuring_concat (state : KeyValueStore × J)
    (events : List Event) (event : Event) :
    victimsDuring py state (events ++ [event]) =
      victimsDuring py state events ++
        victimsOf (recorded py (Server.afterEvents py state events) event) := by
  induction events generalizing state with
  | nil =>
      simp [victimsDuring, afterEvents_nil]
  | cons first events ih =>
      simp only [List.cons_append, victimsDuring, ih, afterEvents_cons,
        List.append_assoc]

/-- **One event** that does not use the key. -/
theorem pursues_event (hs : AtRest py maxmemory policy s) (event : Event)
    (hunused : ¬ Uses py g (s, j) event) (hsize : s.data.size ≤ m) :
    Pursues g c m s (victimsOf (recorded py (s, j) event))
      ((handle py event).run (s, j)).2.1 := by
  have hrest := hs.resting
  have htidy := tidying_spares g
  have hself : Pursues g c m s [] s := (htidy.refl s).pursues hrest.exact
  rw [handle_store]
  unfold recorded
  split_ifs with haway
  · exact hself
  · cases event with
    | request parts =>
        have hwrite : ∀ value d, Fact.put g value d ∉
            factsOf (((plan py parts).effect py).run s).1 := by
          intro value d hfact
          refine hunused (Or.inr ⟨value, d, ?_⟩)
          rw [← execute_eq_plan] at hfact
          unfold recorded
          rw [if_neg haway]
          exact hfact
        have hpursues := (plan py parts).pursues (c := c) hrest
          (fun hread => hunused (Or.inl ⟨parts, rfl, hread⟩)) hwrite hsize
        rw [← execute_eq_plan] at hpursues
        exact hpursues
    | sweep limit =>
        obtain ⟨keys, cursor, -, -, hrun⟩ := sweepExpired_run hrest.exact limit
        have hswept : Spares g s
            ((s.afterReading.dropAll keys).moveSweep cursor) :=
          ((htidy.reading s).trans (htidy.dropAll _ keys)).trans
            (spares_of_data rfl rfl rfl rfl)
        simp only [onward, hrun]
        exact hswept.pursues hrest.exact
    | fsync =>
        exact hself

/-- **A whole run** in which the key is not used. -/
theorem pursues_run (hs : AtRest py maxmemory policy s) (events : List Event)
    (hunused : ∀ before event after, events = before ++ event :: after →
      ¬ Uses py g (Server.afterEvents py (s, j) before) event)
    (hsize : ∀ before after, events = before ++ after →
      (Server.afterEvents py (s, j) before).1.data.size ≤ m) :
    Pursues g c m s (victimsDuring py (s, j) events)
      (Server.afterEvents py (s, j) events).1 := by
  induction events using List.reverseRecOn with
  | nil =>
      exact ((tidying_spares g).refl s).pursues hs.resting.exact
  | append_singleton events event ih =>
      have hbefore := ih
        (fun before e after h => hunused before e (after ++ [event])
          (by rw [h]; simp))
        (fun before after h => hsize before (after ++ [event])
          (by rw [h]; simp))
      rw [afterEvents_concat, victimsDuring_concat]
      exact hbefore.trans (pursues_event (hs.afterEvents j events) event
        (hunused events event [] rfl) (hsize events [event] rfl))

/-- **The coldest key cannot hide.** In a run in which the coldest key is
neither read nor written, `m` being the largest number of keys there are on the
way, it is gone once so many victims have been selected: it is not there
afterwards, and no later victim. -/
theorem coldest_key_is_found (hs : AtRest py maxmemory .allkeysLru s) (j : J)
    (g : Bytes) (hmem : g ∈ s.data)
    (hcold : ∀ k ∈ s.data, k ≠ g → s.accessOf g < s.accessOf k)
    (events : List Event)
    (hunused : ∀ before event after, events = before ++ event :: after →
      ¬ Uses py g (Server.afterEvents py (s, j) before) event)
    (m : Nat)
    (hsize : ∀ before after, events = before ++ after →
      (Server.afterEvents py (s, j) before).1.data.size ≤ m) :
    (s.evictCursor.length / 5 + 1 + (m + 4) / 5 ≤
        (victimsDuring py (s, j) events).length →
      g ∉ (Server.afterEvents py (s, j) events).1.data) ∧
    g ∉ (victimsDuring py (s, j) events).drop
      (s.evictCursor.length / 5 + 1 + (m + 4) / 5) := by
  have hpursues : Pursues g s.evictCursor.length m s _ _ :=
    pursues_run hs events hunused hsize
  have hstart : Searching g s.evictCursor.length m 0 s :=
    Searching.before (by omega)
  constructor
  · intro hmany hg
    have hsearch := (hpursues.search hg 0 ⟨hmem, hcold⟩ hstart).2
    have hbound := hsearch.bound
    omega
  · intro hg
    obtain ⟨earlier, later, hsplit⟩ := List.append_of_mem hg
    have hall := List.take_append_drop
      (s.evictCursor.length / 5 + 1 + (m + 4) / 5)
      (victimsDuring py (s, j) events)
    rw [hsplit, ← List.append_assoc] at hall
    have hless := (hpursues.found _ _ hall.symm).2 0 ⟨hmem, hcold⟩ hstart
    have hlen := congrArg List.length hall
    simp only [List.length_append, List.length_take, List.length_cons] at hless hlen
    omega

/-- A server with room for two entries, and two of them written. -/
def twoEntries : KeyValueStore × NullJournal :=
  Server.afterEvents .default (init (.frozen 0) 132 .allkeysLru, .mk)
    [.request [ascii "SET", ascii "a", ascii "1"],
      .request [ascii "SET", ascii "b", ascii "2"]]

def twoMoreWrites : List Event :=
  [.request [ascii "SET", ascii "c", ascii "3"],
    .request [ascii "SET", ascii "d", ascii "4"]]

theorem unused_of_set {state : KeyValueStore × J} {parts : List Bytes}
    {key value : Bytes} (ttl d : Option Int) (victims : List Bytes)
    (hplan : plan py parts = .set key value ttl)
    (hrecorded : recorded py state (.request parts) =
      victims.map (fun k => .drop [k]) ++ [.put key value d])
    (hne : key ≠ g) : ¬ Uses py g state (.request parts) := by
  rintro (⟨parts', hparts, hread⟩ | ⟨value', d', hfact⟩)
  · cases hparts
    rw [hplan] at hread
    cases hread
  · rw [hrecorded] at hfact
    simp [hne.symm] at hfact

/-- After two selections the key written first is gone. -/
theorem first_key_is_found :
    ascii "a" ∉
      (Server.afterEvents .default twoEntries twoMoreWrites).1.data := by
  have hs : AtRest .default 132 .allkeysLru twoEntries.1 :=
    (AtRest.empty (.frozen 0)).afterEvents (⟨⟩ : NullJournal) _
  refine (coldest_key_is_found hs twoEntries.2 (ascii "a")
    (by decide +kernel) (by decide +kernel) twoMoreWrites ?_ 2 ?_).1
    (by decide +kernel)
  · intro before event after h
    rcases before with _ | ⟨first, _ | ⟨second, before⟩⟩
    · cases h
      exact unused_of_set none none [ascii "a"] rfl
        (by decide +kernel) (show ascii "c" ≠ ascii "a" by decide)
    · cases h
      exact unused_of_set none none [ascii "b"] rfl
        (by decide +kernel) (show ascii "d" ≠ ascii "a" by decide)
    · simp [twoMoreWrites] at h
  · intro before after h
    rcases before with _ | ⟨first, _ | ⟨second, _ | ⟨third, before⟩⟩⟩
    · decide +kernel
    · cases h
      decide +kernel
    · cases h
      decide +kernel
    · simp [twoMoreWrites] at h

end Runs

end Server

end PyRedis
