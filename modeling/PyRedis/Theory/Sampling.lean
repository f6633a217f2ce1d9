import PyRedis.Theory.CounterDeadlines
import PyRedis.Theory.Garbage

/-!
# What a selection looks at

A selection draws the first five eligible keys in line: what is left of the
cursor, and then, if that runs out, the dictionary from its end.  The victim is
the least recently used of these.  A key left in the cursor that has been put
back at the end of the dictionary stands in line twice, so the five may be
fewer than five keys, and then an older key can be left out.
-/

namespace PyRedis
namespace KeyValueStore

open Foundation

variable {s t : KeyValueStore} {exclude v : Bytes}

section Draws

/-- A key that may be drawn. -/
def Eligible (s : KeyValueStore) (exclude key : Bytes) : Prop :=
  key ≠ exclude ∧ key ∈ s.data

instance (s : KeyValueStore) (exclude key : Bytes) :
    Decidable (s.Eligible exclude key) :=
  inferInstanceAs (Decidable (_ ∧ _))

/-- A draw pops until the sample is full or the cursor is empty, and keeps the
eligible keys. -/
theorem draw_spec (s : KeyValueStore) (exclude : Bytes)
    (candidates cursor : List Bytes)
    (h : candidates.length ≤ maxmemorySamples) :
    ∃ popped, cursor = popped ++ (draw s exclude candidates cursor).2 ∧
      (draw s exclude candidates cursor).1 =
        candidates ++ popped.filter (s.Eligible exclude ·) ∧
      (draw s exclude candidates cursor).1.length ≤ maxmemorySamples ∧
      ((draw s exclude candidates cursor).1.length < maxmemorySamples →
        (draw s exclude candidates cursor).2 = []) := by
  induction cursor generalizing candidates with
  | nil =>
      exact ⟨[], rfl, by simp [draw], h, fun _ => rfl⟩
  | cons candidate cursor ih =>
      unfold draw
      split_ifs with hroom hgood
      · have hfits : (candidates ++ [candidate]).length ≤
            maxmemorySamples := by
          simpa using hroom
        obtain ⟨popped, hcursor, hdrawn, hlen, hend⟩ := ih _ hfits
        refine ⟨candidate :: popped, ?_, ?_, hlen, hend⟩
        · rw [List.cons_append, ← hcursor]
        · have hpopped : (candidate :: popped).filter
              (s.Eligible exclude ·) =
                candidate :: popped.filter (s.Eligible exclude ·) :=
            List.filter_cons_of_pos (decide_eq_true hgood)
          rw [hdrawn, hpopped, List.append_assoc, List.singleton_append]
      · obtain ⟨popped, hcursor, hdrawn, hlen, hend⟩ := ih _ h
        refine ⟨candidate :: popped, ?_, ?_, hlen, hend⟩
        · rw [List.cons_append, ← hcursor]
        · have hpopped : (candidate :: popped).filter
              (s.Eligible exclude ·) =
                popped.filter (s.Eligible exclude ·) :=
            List.filter_cons_of_neg (by rwa [decide_eq_true_eq])
          rw [hdrawn, hpopped]
      · exact ⟨[], rfl, by simp, h, fun hlt => absurd hlt hroom⟩

/-- The keys of the store besides the one being written. -/
def others (s : KeyValueStore) (exclude : Bytes) : List Bytes :=
  s.data.keys.filter (fun key => key ≠ exclude)

theorem mem_others {key : Bytes} :
    key ∈ s.others exclude ↔ s.Eligible exclude key := by
  unfold others Eligible
  rw [List.mem_filter]
  constructor
  · rintro ⟨hmem, hne⟩
    exact ⟨by simpa using hne, hmem⟩
  · rintro ⟨hne, hmem⟩
    exact ⟨hmem, by simpa using hne⟩

theorem others_nodup (s : KeyValueStore) (exclude : Bytes) :
    (s.others exclude).Nodup :=
  s.data.keys_nodup.filter _

theorem refill_eq (s : KeyValueStore) (exclude : Bytes) :
    refill s exclude = (s.others exclude).reverse := by
  rfl

theorem filter_refill (s : KeyValueStore) (exclude : Bytes) :
    (refill s exclude).filter (s.Eligible exclude ·) = refill s exclude := by
  refine List.filter_eq_self.mpr fun key hkey => ?_
  rw [refill_eq, List.mem_reverse] at hkey
  exact decide_eq_true (mem_others.mp hkey)

/-- The five keys next in line: what can be drawn from the cursor, and then
the dictionary from its end. -/
def inLine (s : KeyValueStore) (exclude : Bytes) : List Bytes :=
  (s.evictCursor.filter (s.Eligible exclude ·) ++
    (s.others exclude).reverse).take maxmemorySamples

/-- What is drawn. -/
theorem draw_fst (s : KeyValueStore) (exclude : Bytes)
    (candidates cursor : List Bytes)
    (h : candidates.length ≤ maxmemorySamples) :
    (draw s exclude candidates cursor).1 =
      (candidates ++ cursor.filter (s.Eligible exclude ·)).take
        maxmemorySamples := by
  obtain ⟨popped, hcursor, hdrawn, hlen, hend⟩ :=
    draw_spec s exclude candidates cursor h
  generalize (draw s exclude candidates cursor).1 = drawn at *
  generalize (draw s exclude candidates cursor).2 = rest at *
  subst hcursor
  rw [List.filter_append, ← List.append_assoc, ← hdrawn]
  by_cases hroom : drawn.length < maxmemorySamples
  · rw [hend hroom, List.filter_nil, List.append_nil,
      List.take_of_length_le hlen]
  · have hfull : drawn.length = maxmemorySamples :=
      Nat.le_antisymm hlen (not_lt.mp hroom)
    rw [← hfull, List.take_left]

theorem sample_eq_inLine (s : KeyValueStore) (exclude : Bytes) :
    (sample s exclude).1 = s.inLine exclude := by
  have hfirst := draw_fst s exclude [] s.evictCursor (Nat.zero_le _)
  rw [List.nil_append] at hfirst
  unfold sample inLine
  simp only
  split_ifs with hroom
  · have hall : (draw s exclude [] s.evictCursor).1 =
        s.evictCursor.filter (s.Eligible exclude ·) := by
      rw [hfirst] at hroom ⊢
      refine List.take_of_length_le ?_
      rw [List.length_take] at hroom
      omega
    rw [draw_fst s exclude _ _ hroom.le, hall, filter_refill, refill_eq]
  · rw [hfirst] at hroom ⊢
    rw [List.length_take] at hroom
    rw [List.take_append_of_le_length (by omega)]

end Draws

section Victims

theorem leastBy_le (rank : Bytes → Nat) (best : Bytes) (rest : List Bytes) :
    ∀ key ∈ best :: rest, rank (leastBy rank best rest) ≤ rank key := by
  induction rest generalizing best with
  | nil =>
      intro key hkey
      rw [List.mem_singleton.mp hkey]
      exact le_rfl
  | cons candidate rest ih =>
      intro key hkey
      unfold leastBy
      split_ifs with hless
      · have hbest := ih candidate candidate List.mem_cons_self
        rcases List.mem_cons.mp hkey with rfl | hkey
        · omega
        · exact ih candidate key hkey
      · have hbest := ih best best List.mem_cons_self
        rcases List.mem_cons.mp hkey with rfl | hkey
        · exact hbest
        · rcases List.mem_cons.mp hkey with rfl | hkey
          · omega
          · exact ih best key (List.mem_cons_of_mem _ hkey)

/-- The key a selection settles on. -/
def victim (s : KeyValueStore) (exclude : Bytes) : Option Bytes :=
  match (sample s exclude).1 with
  | [] => none
  | best :: rest => some (leastBy s.accessOf best rest)

theorem selectVictim_eq (s : KeyValueStore) (exclude : Bytes) :
    (selectVictim exclude).run s =
      (.ok (s.victim exclude),
        s.relabel (sample s exclude).2 s.evicted) := by
  cases hdrawn : (sample s exclude).1 with
  | nil =>
      simp only [Fallible.run, selectVictim, victim, hdrawn]
      rfl
  | cons best rest =>
      simp only [Fallible.run, selectVictim, victim, hdrawn]
      rfl

/-- A victim is in line, and no key in line is older. -/
theorem victim_spec (h : s.victim exclude = some v) :
    v ∈ s.inLine exclude ∧
      ∀ key ∈ s.inLine exclude, s.accessOf v ≤ s.accessOf key := by
  unfold victim at h
  rw [sample_eq_inLine] at h
  cases hline : s.inLine exclude with
  | nil =>
      rw [hline] at h
      cases h
  | cons best rest =>
      rw [hline] at h
      cases h
      exact ⟨leastBy_mem _ _ _, leastBy_le _ _ _⟩

theorem eligible_of_mem_inLine {key : Bytes} (h : key ∈ s.inLine exclude) :
    s.Eligible exclude key := by
  rcases List.mem_append.mp (List.mem_of_mem_take h) with h | h
  · exact of_decide_eq_true (List.mem_filter.mp h).2
  · exact mem_others.mp (List.mem_reverse.mp h)

end Victims

section Coldest

/-- The victim is the least recently used of five keys, or of all there are. -/
def LeastOfSample (s : KeyValueStore) (exclude v : Bytes) : Prop :=
  ∃ rest : List Bytes, rest.Nodup ∧
    min maxmemorySamples (s.others exclude).length - 1 ≤ rest.length ∧
    ∀ key ∈ rest, key ∈ s.data ∧ key ≠ exclude ∧ key ≠ v ∧
      s.accessOf v ≤ s.accessOf key

/-- Of the five next in line at least five are distinct, or all there are. -/
def EnoughInLine (s : KeyValueStore) (exclude : Bytes) : Prop :=
  min maxmemorySamples (s.others exclude).length ≤
    (s.inLine exclude).toFinset.card

instance (s : KeyValueStore) (exclude : Bytes) :
    Decidable (s.EnoughInLine exclude) :=
  inferInstanceAs (Decidable (_ ≤ _))

/-- The keys that are not older than the victim. -/
def younger (s : KeyValueStore) (exclude v : Bytes) : List Bytes :=
  (s.others exclude).filter (fun key => ¬ s.accessOf key < s.accessOf v)

theorem mem_younger {key : Bytes} :
    key ∈ s.younger exclude v ↔
      s.Eligible exclude key ∧ s.accessOf v ≤ s.accessOf key := by
  unfold younger
  rw [List.mem_filter, mem_others, decide_eq_true_eq, not_lt]

theorem younger_nodup (s : KeyValueStore) (exclude v : Bytes) :
    (s.younger exclude v).Nodup :=
  (s.others_nodup exclude).filter _

/-- The victim has as many keys above it as are not older, less itself. -/
theorem leastOfSample_iff (h : s.victim exclude = some v) :
    LeastOfSample s exclude v ↔
      min maxmemorySamples (s.others exclude).length ≤
        (s.younger exclude v).length := by
  have hself : v ∈ s.younger exclude v :=
    mem_younger.mpr ⟨eligible_of_mem_inLine (victim_spec h).1, le_rfl⟩
  have hpos := List.length_pos_of_mem hself
  have herase := List.length_erase_of_mem hself
  constructor
  · rintro ⟨rest, hnodup, hlen, hrest⟩
    have hsub : rest ⊆ (s.younger exclude v).erase v := by
      intro key hkey
      obtain ⟨hdata, hne, hv, hle⟩ := hrest key hkey
      exact (List.mem_erase_of_ne hv).mpr (mem_younger.mpr ⟨⟨hne, hdata⟩, hle⟩)
    have hle := (List.subperm_of_subset hnodup hsub).length_le
    omega
  · intro hlen
    refine ⟨(s.younger exclude v).erase v, (s.younger_nodup exclude v).erase v,
      by omega, fun key hkey => ?_⟩
    obtain ⟨hv, hkey⟩ := ((s.younger_nodup exclude v).mem_erase_iff).mp hkey
    obtain ⟨⟨hne, hdata⟩, hle⟩ := mem_younger.mp hkey
    exact ⟨hdata, hne, hv, hle⟩

theorem length_inLine (s : KeyValueStore) (exclude : Bytes) :
    min maxmemorySamples (s.others exclude).length ≤
      (s.inLine exclude).length := by
  unfold inLine
  rw [List.length_take, List.length_append, List.length_reverse]
  omega

/-- Five keys in line of which none stands there twice. -/
theorem enoughInLine_of_nodup (h : (s.inLine exclude).Nodup) :
    s.EnoughInLine exclude := by
  unfold EnoughInLine
  rw [List.toFinset_card_of_nodup h]
  exact s.length_inLine exclude

/-- All that are in line are not older than the victim. -/
theorem card_inLine_le (h : s.victim exclude = some v) :
    (s.inLine exclude).toFinset.card ≤ (s.younger exclude v).length := by
  have hleast := (victim_spec h).2
  have hsub : (s.inLine exclude).toFinset ⊆
      (s.younger exclude v).toFinset := by
    intro key hkey
    have hline := List.mem_toFinset.mp hkey
    exact List.mem_toFinset.mpr
      (mem_younger.mpr ⟨eligible_of_mem_inLine hline, hleast key hline⟩)
  calc (s.inLine exclude).toFinset.card
      _ ≤ (s.younger exclude v).toFinset.card := Finset.card_le_card hsub
      _ = (s.younger exclude v).length :=
        List.toFinset_card_of_nodup (s.younger_nodup exclude v)

/-- No reading of the clock reaches the deadline of the key. -/
def Outlives (s : KeyValueStore) (key : Bytes) : Prop :=
  ∀ d, s.expires.lookup key = some d → ∀ i, s.clock.readings i < d

/-- Nothing but reading some keys has happened: these are used later than all
that were used before. -/
structure Recalls (keys : List Bytes) (s t : KeyValueStore) : Prop where
  data : t.data = s.data
  cursor : t.evictCursor = s.evictCursor
  expires : t.expires = s.expires
  readings : t.clock.readings = s.clock.readings
  tick : s.tick ≤ t.tick
  used : ∀ k ∈ keys, s.tick < t.accessOf k
  others : ∀ k, k ∉ keys → t.accessOf k = s.accessOf k

/-- A key is used, whether or not a reading was taken before. -/
theorem recalls_touch (key : Bytes) (h : t = s ∨ t = s.afterReading) :
    Recalls [key] s (t.touch key) := by
  have htick : t.tick = s.tick := by rcases h with rfl | rfl <;> rfl
  have haccess : t.access = s.access := by rcases h with rfl | rfl <;> rfl
  have hcount : ∀ k, (t.touch key).accessOf k =
      if k = key then s.tick + 1 else s.accessOf k := by
    intro k
    rw [accessOf_touch, htick, accessOf, haccess]
    rfl
  have hused : ∀ k ∈ [key], s.tick < (t.touch key).accessOf k := by
    intro k hk
    rw [hcount, if_pos (List.mem_singleton.mp hk)]
    exact Nat.lt_succ_self _
  have hothers : ∀ k, k ∉ [key] →
      (t.touch key).accessOf k = s.accessOf k := by
    intro k hk
    rw [hcount, if_neg fun heq => hk (List.mem_singleton.mpr heq)]
  rcases h with rfl | rfl
  · exact ⟨rfl, rfl, rfl, rfl, Nat.le_succ _, hused, hothers⟩
  · exact ⟨rfl, rfl, rfl, rfl, Nat.le_succ _, hused, hothers⟩

/-- A key that outlives its reading is read. -/
theorem recalls_get (py : Interpreter) (hs : Exact s) {key : Bytes}
    (hmem : key ∈ s.data) (hkey : s.Outlives key) :
    Recalls [key] s (((Operation.get key).effect py).run s).2 := by
  have hsettled : s.settled key = s ∨ s.settled key = s.afterReading := by
    cases hd : s.expires.lookup key with
    | none =>
        refine Or.inl ?_
        simp only [settled, hd]
    | some d =>
        exact Or.inr (settled_of_live hd (hkey d hd _))
  have hget : (((Operation.get key).effect py).run s).2 = s.gotten key := by
    simp only [Operation.effect, forEffect, Fallible.run_bind, get_run hs,
      Fallible.run_pure]
  have hstill : key ∈ (s.settled key).data := by
    rcases hsettled with h | h <;> rw [h] <;> exact hmem
  rw [hget, gotten, if_pos hstill]
  exact recalls_touch key hsettled

theorem Recalls.cons {u : KeyValueStore} {key : Bytes} {keys : List Bytes}
    (h : Recalls [key] s t) (h' : Recalls keys t u) :
    Recalls (key :: keys) s u where
  data := h'.data.trans h.data
  cursor := h'.cursor.trans h.cursor
  expires := h'.expires.trans h.expires
  readings := h'.readings.trans h.readings
  tick := le_trans h.tick h'.tick
  used := by
    intro k hk
    by_cases hlater : k ∈ keys
    · exact lt_of_le_of_lt h.tick (h'.used k hlater)
    · have hkey : k ∈ [key] := by
        simpa [hlater] using hk
      rw [h'.others k hlater]
      exact h.used k hkey
  others := by
    intro k hk
    rw [List.mem_cons, not_or] at hk
    rw [h'.others k hk.2, h.others k (by simpa using hk.1)]

/-- **Some keys are read**, one after the other. -/
theorem recalls_gets (py : Interpreter) (keys : List Bytes) :
    ∀ {s : KeyValueStore}, Exact s → (∀ k ∈ keys, k ∈ s.data) →
      (∀ k ∈ keys, s.Outlives k) →
      Recalls keys s (afterOperations py s (keys.map .get)) := by
  induction keys with
  | nil =>
      intro s _ _ _
      exact ⟨rfl, rfl, rfl, rfl, le_rfl, by simp, fun _ _ => rfl⟩
  | cons key keys ih =>
      intro s hs hmem hlive
      obtain ⟨hkey, hkeys⟩ := List.forall_mem_cons.mp hmem
      obtain ⟨hout, houts⟩ := List.forall_mem_cons.mp hlive
      have hfirst := recalls_get py hs hkey hout
      refine hfirst.cons (ih ((Operation.get key).exact_after hs py) ?_ ?_)
      · intro k hk
        rw [hfirst.data]
        exact hkeys k hk
      · intro k hk d hd i
        rw [hfirst.expires] at hd
        rw [hfirst.readings]
        exact houts k hk d hd i

/-- Who stands in line does not depend on when keys were used. -/
theorem Recalls.inLine_eq {keys : List Bytes} (h : Recalls keys s t)
    (exclude : Bytes) : t.inLine exclude = s.inLine exclude := by
  have heligible : ∀ key,
      decide (t.Eligible exclude key) = decide (s.Eligible exclude key) := by
    intro key
    rw [decide_eq_decide, Eligible, Eligible, h.data]
  have hothers : t.others exclude = s.others exclude := by
    simp only [KeyValueStore.others, h.data]
  simp only [inLine, heligible, hothers, h.cursor]

/-- When those in line have just been used, only they are not older than the
victim. -/
theorem Recalls.length_younger (h : Recalls (s.inLine exclude) s t)
    (hs : Exact s) (hv : t.victim exclude = some v) :
    (t.younger exclude v).length = (s.inLine exclude).toFinset.card := by
  have hline : v ∈ s.inLine exclude := by
    rw [← h.inLine_eq exclude]
    exact (victim_spec hv).1
  rw [← List.toFinset_card_of_nodup (t.younger_nodup exclude v)]
  congr 1
  ext key
  rw [List.mem_toFinset, List.mem_toFinset, mem_younger]
  constructor
  · rintro ⟨-, hle⟩
    by_contra hnot
    rw [h.others key hnot] at hle
    have hused := h.used v hline
    have hbefore := hs.accessOf_le key
    omega
  · intro hkey
    rw [← h.inLine_eq exclude] at hkey hline
    have hle := (victim_spec hv).2 key hkey
    exact ⟨eligible_of_mem_inLine hkey, hle⟩

/-- With a key in line there is a victim. -/
theorem exists_victim {key : Bytes} (h : key ∈ s.inLine exclude) :
    ∃ v, s.victim exclude = some v := by
  unfold victim
  rw [sample_eq_inLine]
  cases hline : s.inLine exclude with
  | nil =>
      rw [hline] at h
      cases h
  | cons best rest =>
      exact ⟨_, rfl⟩

/-- **When a victim is the least recently used of five.**  It is so when five
distinct keys are next in line, or all there are; and then with at most five
other keys it is the oldest of all.  Where no key stands in line twice, enough
are distinct.  Where fewer are, it is not so any more once the keys in line
have been read. -/
theorem victim_least_of_enough (py : Interpreter) (maxmemory : Int)
    (recovers : Bool)
    (h : (selectVictim exclude).run s = (.ok (some v), t)) :
    (s.EnoughInLine exclude → LeastOfSample s exclude v ∧
      ((s.others exclude).length ≤ maxmemorySamples →
        ∀ key ∈ s.data, key ≠ exclude → s.accessOf v ≤ s.accessOf key)) ∧
    ((s.inLine exclude).Nodup → s.EnoughInLine exclude) ∧
    (¬ s.EnoughInLine exclude →
      Reachable py maxmemory .allkeysLru recovers s →
      (∀ key ∈ s.inLine exclude, s.Outlives key) →
      Reachable py maxmemory .allkeysLru recovers
          (afterOperations py s ((s.inLine exclude).map .get)) ∧
        ∃ v', ((selectVictim exclude).run
            (afterOperations py s ((s.inLine exclude).map .get))).1 =
              .ok (some v') ∧
          ¬ LeastOfSample
            (afterOperations py s ((s.inLine exclude).map .get))
            exclude v') := by
  have hv : s.victim exclude = some v := by
    rw [selectVictim_eq] at h
    injection h with hrun
    injection hrun
  refine ⟨?_, enoughInLine_of_nodup, ?_⟩
  · intro henough
    have hcard : min maxmemorySamples (s.others exclude).length ≤
        (s.younger exclude v).length := le_trans henough (card_inLine_le hv)
    refine ⟨(leastOfSample_iff hv).mpr hcard, fun hfive key hkey hne => ?_⟩
    rw [min_eq_right hfive] at hcard
    have hall : s.younger exclude v = s.others exclude :=
      List.filter_sublist.eq_of_length_le hcard
    have hmem : key ∈ s.younger exclude v := by
      rw [hall]
      exact mem_others.mpr ⟨hne, hkey⟩
    exact (mem_younger.mp hmem).2
  · intro hfew hs hlive
    have hrecalls := recalls_gets py (s.inLine exclude) hs.exact
      (fun k hk => (eligible_of_mem_inLine hk).2) hlive
    refine ⟨hs.afterOperations _ (by simp [Operation.isRecovery]), ?_⟩
    generalize afterOperations py s ((s.inLine exclude).map .get) = u
      at hrecalls ⊢
    have hline : v ∈ u.inLine exclude := by
      rw [hrecalls.inLine_eq exclude]
      exact (victim_spec hv).1
    obtain ⟨v', hv'⟩ := exists_victim hline
    refine ⟨v', ?_, ?_⟩
    · rw [selectVictim_eq, hv']
    · rw [leastOfSample_iff hv', hrecalls.length_younger hs.exact hv']
      have hothers : u.others exclude = s.others exclude := by
        simp only [KeyValueStore.others, hrecalls.data]
      rw [hothers]
      exact hfew

/-- Seven keys written into a store with room for six, one of the two that were
never looked at put back at the end, and another deleted. -/
def standsTwice : KeyValueStore :=
  afterOperations .default (init (.frozen 0) 396 .allkeysLru)
    [.set (ascii "a") (ascii "1") none, .set (ascii "b") (ascii "1") none,
      .set (ascii "c") (ascii "1") none, .set (ascii "d") (ascii "1") none,
      .set (ascii "e") (ascii "1") none, .set (ascii "f") (ascii "1") none,
      .set (ascii "g") (ascii "1") none, .delete [ascii "a"],
      .set (ascii "a") (ascii "1") none, .delete [ascii "c"]]

/-- With five other keys, one of which stands in line twice, the key that is
not in line is older than the victim. -/
theorem older_key_is_overlooked :
    Reachable .default 396 .allkeysLru false standsTwice ∧
      ((selectVictim (ascii "z")).run standsTwice).1 =
        .ok (some (ascii "e")) ∧
      standsTwice.others (ascii "z") =
        [ascii "d", ascii "e", ascii "f", ascii "g", ascii "a"] ∧
      standsTwice.accessOf (ascii "d") < standsTwice.accessOf (ascii "e") ∧
      ¬ LeastOfSample standsTwice (ascii "z") (ascii "e") := by
  have hreachable : Reachable .default 396 .allkeysLru false standsTwice :=
    (Reachable.empty (.frozen 0)).afterOperations _
      (by simp [Operation.isRecovery])
  have hvictim : standsTwice.victim (ascii "z") = some (ascii "e") := by
    decide +kernel
  refine ⟨hreachable, by decide +kernel, by decide +kernel,
    by decide +kernel, ?_⟩
  rw [leastOfSample_iff hvictim]
  decide +kernel

/-- Of two keys the one written first is the victim, and it is the older. -/
theorem victim_of_two :
    LeastOfSample twoKeys (ascii "c") (ascii "a") := by
  have hvictim : ((selectVictim (ascii "c")).run twoKeys).1 =
      .ok (some (ascii "a")) := by
    decide +kernel
  exact ((victim_least_of_enough .default 198 false
    (Prod.ext hvictim rfl)).1 (by decide +kernel)).1

end Coldest

end KeyValueStore
end PyRedis
