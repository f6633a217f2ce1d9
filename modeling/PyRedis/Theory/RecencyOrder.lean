import PyRedis.Theory.Garbage
import PyRedis.Theory.Moments

/-!
# The counters are the order of last use

Beside a run of the server a history is kept that the server does not have:
when each key was last used, forgotten as soon as the key is gone.  A GET that
finds its key uses it, and so does a SET or an INCR that the store carries
out; nothing else does.

One event does one of two things to the counters.  If it uses a key, that key
gets a counter higher than any given out before; and every other key that is
still there afterwards was there before, with the counter it has.  So along
every run the counters are in the order of the history.
-/

namespace PyRedis

open Foundation

namespace KeyValueStore

variable {s t u : KeyValueStore} {key value : Bytes}

section Counters

/-- Keys may have gone; those that stay have the counters they had. -/
structure Keeps (s t : KeyValueStore) : Prop where
  key : ∀ k ∈ t.data, k ∈ s.data ∧ t.accessOf k = s.accessOf k
  tick : t.tick = s.tick

theorem Keeps.trans (h : Keeps s t) (h' : Keeps t u) : Keeps s u where
  key := by
    intro k hk
    obtain ⟨ht, hu⟩ := h'.key k hk
    obtain ⟨hs, htk⟩ := h.key k ht
    exact ⟨hs, hu.trans htk⟩
  tick := h'.tick.trans h.tick

theorem Thins.keeps (h : Thins s t) : Keeps s t where
  key := fun k hk => ⟨h.keys.subset hk, h.access k hk⟩
  tick := h.tick

theorem keeps_of_data (hdata : t.data = s.data)
    (haccess : t.access = s.access) (htick : t.tick = s.tick) :
    Keeps s t where
  key := by
    intro k hk
    rw [hdata] at hk
    exact ⟨hk, by rw [accessOf, haccess]; rfl⟩
  tick := htick

theorem tidying_keeps : Tidying Keeps where
  refl _ := keeps_of_data rfl rfl rfl
  trans := Keeps.trans
  reading _ := keeps_of_data rfl rfl rfl
  drop s key := (thins_drop s key).keeps

theorem Admits.keeps {victims : List Bytes}
    (h : Admits s key value victims t) : Keeps s t := by
  cases h with
  | asIs _ =>
      exact tidying_keeps.refl s
  | evicting cursor _ _ =>
      exact ((tidying_keeps.reclaimed s).trans
        (tidying_keeps.dropAll _ victims)).trans (keeps_of_data rfl rfl rfl)

/-- One key at most has been used, and the others keep their counters. -/
structure Counts (used : Option Bytes) (s t : KeyValueStore) : Prop where
  others : ∀ k ∈ t.data, used ≠ some k →
    k ∈ s.data ∧ t.accessOf k = s.accessOf k
  newest : ∀ k, used = some k → k ∈ t.data ∧ s.tick < t.accessOf k

theorem Keeps.counts (h : Keeps s t) : Counts none s t where
  others := fun k hk _ => h.key k hk
  newest := by
    intro k hk
    cases hk

/-- Some keys go, and then one key is used. -/
theorem Keeps.counts_used (h : Keeps s t) (hu : Used key t u) :
    Counts (some key) s u where
  others := by
    intro k hk hne
    have hkey : k ≠ key := fun heq => hne (congrArg some heq.symm)
    have ht : k ∈ t.data := by
      have hmem : k ∈ u.data.keys := hk
      rw [hu.keys] at hmem
      split_ifs at hmem
      · exact hmem
      · exact (List.mem_append.mp hmem).resolve_right
          fun hlast => hkey (List.mem_singleton.mp hlast)
    rw [hu.access, if_neg hkey]
    exact h.key k ht
  newest := by
    rintro k ⟨⟩
    constructor
    · change key ∈ u.data.keys
      rw [hu.keys]
      split_ifs with hmem
      · exact hmem
      · simp
    · rw [hu.access, if_pos rfl, h.tick]
      exact Nat.lt_succ_self _

theorem Counts.frame {used : Option Bytes} (h : Counts used s t)
    (hdata : u.data = t.data) (haccess : u.access = t.access) :
    Counts used s u where
  others := by
    intro k hk hne
    rw [hdata] at hk
    rw [accessOf, haccess]
    exact h.others k hk hne
  newest := by
    intro k hk
    rw [hdata, accessOf, haccess]
    exact h.newest k hk

/-- A flush leaves no key. -/
theorem counts_cleared (s : KeyValueStore) : Counts none s s.cleared where
  others := fun k hk _ => absurd hk (OrderedDict.not_mem_empty k)
  newest := by
    intro k hk
    cases hk

end Counters

end KeyValueStore

namespace Commands

open KeyValueStore

variable {py : Interpreter} {s t : KeyValueStore}

section Uses

/-- The key that a plan uses when it is carried out: that of a GET which finds
it, and that of a SET or an INCR which the store does not refuse. -/
def Plan.uses (py : Interpreter) (s : KeyValueStore) : Plan → Option Bytes
  | .get key =>
      match ((KeyValueStore.get key).run s).1 with
      | .ok (some _) => some key
      | _ => none
  | .set key value ttlMs =>
      match ((KeyValueStore.set key value ttlMs).run s).1 with
      | .ok _ => some key
      | .error _ => none
  | .incr key =>
      match ((KeyValueStore.incr py key).run s).1 with
      | .ok _ => some key
      | .error _ => none
  | _ => none

/-- An exception that is answered leaves the store where it was raised. -/
theorem Plan.effect_state_of_error {p : Plan} {e : Exc}
    (h : (p.attempt py).run s = (.error e, t)) :
    ((p.effect py).run s).2 = t := by
  cases hreply : errorReply e with
  | none =>
      rw [Plan.effect_run_raise h hreply]
  | some reply =>
      rw [Plan.effect_run_reply h hreply]

/-- A plan that uses no key, whatever it is, and only throws keys away. -/
theorem Plan.counts_of_run {p : Plan} {r : Except Exc Effect}
    (hrun : (p.effect py).run s = (r, t)) (huses : p.uses py s = none)
    (h : Keeps s t) : Counts (p.uses py s) s ((p.effect py).run s).2 := by
  rw [hrun, huses]
  exact h.counts

theorem Plan.counts_set (hs : Exact s) (key value : Bytes)
    (ttlMs : Option Int) :
    Counts ((Plan.set key value ttlMs).uses py s) s
      (((Plan.set key value ttlMs).effect py).run s).2 := by
  obtain ⟨r, t, hsets, hrun⟩ := set_run hs key value ttlMs
  have huses : ∀ e, r = .error e →
      (Plan.set key value ttlMs).uses py s = none := by
    rintro e rfl
    simp only [Plan.uses, hrun]
  cases hsets with
  | untimely ht =>
      exact Plan.counts_of_run
        (Plan.effect_run_ok (Effects.rescue_run_invalid hrun))
        (huses _ rfl) (tidying_keeps.timing ht)
  | refused ht hr =>
      exact Plan.counts_of_run (Plan.effect_run_reply
        (Effects.rescue_run_error hrun (by simp)) rfl)
        (huses _ rfl) (tidying_keeps.timing ht)
  | @stored d t u victims ht hr ha =>
      have hwritten : ((Plan.set key value ttlMs).effect py).run s =
          (.ok ⟨writeFacts (u.stored key value d) key value, Resp.ok⟩,
            reported (u.stored key value d)) := by
        refine Plan.effect_run_ok ?_
        simp only [Plan.attempt]
        rw [Effects.rescue_run_ok hrun, written_run]
      simp only [Plan.uses, hrun, hwritten]
      exact (((tidying_keeps.timing ht).trans ha.keeps).counts_used
        (used_stored u key value d)).frame rfl rfl

theorem Plan.counts_incr (hs : Exact s) (key : Bytes) :
    Counts ((Plan.incr key).uses py s) s
      (((Plan.incr key).effect py).run s).2 := by
  have hsettled := tidying_keeps.settled s key
  obtain ⟨r, t, hincrs, hrun⟩ := incr_run hs py key
  have hattempt : ∀ {e}, r = .error e →
      ((Plan.incr key).attempt py).run s = (.error e, t) := by
    rintro e rfl
    simp only [Plan.attempt, Effects.incr, Fallible.run_bind, hrun]
  have hfailed : ∀ e, r = .error e → Keeps s t →
      Counts ((Plan.incr key).uses py s) s
        (((Plan.incr key).effect py).run s).2 := by
    intro e he hkeeps
    rw [Plan.effect_state_of_error (hattempt he)]
    simp only [Plan.uses, hrun, he]
    exact hkeeps.counts
  cases hincrs with
  | malformed hcounter =>
      exact hfailed _ rfl hsettled
  | overflow hcounter hover =>
      exact hfailed _ rfl hsettled
  | refused hcounter hfits hr =>
      exact hfailed _ rfl hsettled
  | @stored n u victims hcounter hfits hr ha =>
      have hwritten : ((Plan.incr key).effect py).run s =
          (.ok ⟨writeFacts (u.rewritten key (str (n + 1))) key (str (n + 1)),
              Resp.encodeInteger (n + 1)⟩,
            reported (u.rewritten key (str (n + 1)))) := by
        refine Plan.effect_run_ok ?_
        simp only [Plan.attempt, Effects.incr, Fallible.run_bind, hrun,
          written_run]
      simp only [Plan.uses, hrun, hwritten]
      exact ((hsettled.trans ha.keeps).counts_used
        (used_rewritten u key _)).frame rfl rfl

theorem Plan.counts_get (hs : Exact s) (key : Bytes) :
    Counts ((Plan.get key).uses py s) s
      (((Plan.get key).effect py).run s).2 := by
  have hsettled := tidying_keeps.settled s key
  have hrun : ((Plan.get key).effect py).run s = (_, s.gotten key) :=
    Plan.effect_run_ok (effect_get_run hs key [])
  rw [hrun]
  simp only [Plan.uses, get_run hs key, gotten]
  cases hv : (s.settled key).data.lookup key with
  | none =>
      rw [if_neg (OrderedDict.lookup_eq_none_iff.mp hv)]
      exact hsettled.counts
  | some value =>
      have hmem := OrderedDict.mem_of_lookup hv
      rw [if_pos hmem]
      exact hsettled.counts_used (used_touch hmem)

/-- **What a request does to the counters.** -/
theorem Plan.counts (hs : Exact s) (p : Plan) :
    Counts (p.uses py s) s ((p.effect py).run s).2 := by
  have htidy := tidying_keeps
  cases p with
  | answer reply =>
      exact (htidy.refl s).counts
  | raise e =>
      rw [Plan.effect_state_of_error rfl]
      exact (htidy.refl s).counts
  | set key value ttlMs =>
      exact Plan.counts_set hs key value ttlMs
  | get key =>
      exact Plan.counts_get hs key
  | expire key ttlMs =>
      have hsettled := htidy.settled s key
      have hrun := @expire_effect_run py s hs key ttlMs
      split_ifs at hrun
      · exact Plan.counts_of_run hrun rfl (hsettled.trans (htidy.drop _ key))
      · exact Plan.counts_of_run hrun rfl
          (hsettled.trans (htidy.reading _))
      · exact Plan.counts_of_run hrun rfl
          ((hsettled.trans (htidy.reading _)).trans
            (keeps_of_data rfl rfl rfl))
      · exact Plan.counts_of_run hrun rfl hsettled
  | ttl key =>
      exact Plan.counts_of_run
        (Plan.effect_run_ok (effect_ttl_run hs key [])) rfl
        (htidy.inspected s key)
  | persist key =>
      have hsettled := htidy.settled s key
      have hrun := effect_persist_run hs key []
      split_ifs at hrun
      · exact Plan.counts_of_run (Plan.effect_run_ok hrun) rfl
          (hsettled.trans (keeps_of_data rfl rfl rfl))
      · exact Plan.counts_of_run (Plan.effect_run_ok hrun) rfl hsettled
  | delete keys =>
      exact Plan.counts_of_run
        (Plan.effect_run_ok (effect_delete_run hs keys)) rfl
        (htidy.deleted s keys)
  | «exists» keys =>
      exact Plan.counts_of_run
        (Plan.effect_run_ok (effect_exists_run hs keys)) rfl
        (htidy.looked s keys)
  | incr key =>
      exact Plan.counts_incr hs key
  | dbsize =>
      exact Plan.counts_of_run
        (Plan.effect_run_ok (effect_dbsize_run hs [])) rfl
        (htidy.reclaimed s)
  | flushdb =>
      exact counts_cleared s

end Uses

end Commands

namespace Server

open Commands KeyValueStore Aof
open Fallible (Preserves)

variable {py : Interpreter} {s : KeyValueStore} {J : Type}
variable {maxmemory : Int} {policy : MaxmemoryPolicy}

section Starts

/-- The stores a server starts with: an empty one, or one recovered from a
log. -/
inductive Started (py : Interpreter) (maxmemory : Int)
    (policy : MaxmemoryPolicy) : KeyValueStore → Prop
  | empty (clock : Clock) :
      Started py maxmemory policy (init clock maxmemory policy)
  | recovered {clock : Clock} {fsync : FsyncPolicy}
      {outcomes : Nat → IoOutcome} {log : LogFile} {s : KeyValueStore}
      {journal : AppendOnlyFile}
      (h : recover py fsync outcomes (init clock maxmemory policy) log =
        .ok (s, journal)) :
      Started py maxmemory policy s

/-- Nothing has been used so far. -/
structure Unused (s : KeyValueStore) : Prop where
  exact : Exact s
  access : s.access = .empty

theorem unused_init (clock : Clock) :
    Unused (init clock maxmemory policy) :=
  ⟨exact_init clock maxmemory policy, rfl⟩

/-- Where nothing has a counter, nothing gets one by removals. -/
theorem tidying_access : Tidying fun s t =>
    s.access = .empty → t.access = .empty where
  refl _ h := h
  trans h h' hs := h' (h hs)
  reading _ h := h
  drop s key h := by
    unfold drop
    cases s.data.lookup key with
    | none =>
        exact h
    | some value =>
        simp only [without, h]
        rfl

/-- Loading a log uses no key. -/
theorem preserves_unused_load {op : Operation} (hop : op.isLoading = true) :
    Preserves Unused (op.effect py) := by
  refine Preserves.of_state_after fun s hs => ⟨op.exact_after hs.exact py, ?_⟩
  cases op with
  | flushdb =>
      rfl
  | dropExpired =>
      simp only [Operation.effect, forEffect, Fallible.run_bind,
        dropExpired_run hs.exact]
      exact tidying_access.reclaimed s hs.access
  | dbsize =>
      simp only [Operation.effect, forEffect, Fallible.run_bind,
        dbsize_run hs.exact]
      exact tidying_access.reclaimed s hs.access
  | restore key value d =>
      cases d <;> exact hs.access
  | setDeadline key d =>
      simp only [Operation.effect, setDeadline_run]
      split_ifs <;> exact hs.access
  | clearDeadline key =>
      exact hs.access
  | discard keys =>
      simp only [Operation.effect, discard_run]
      exact tidying_access.dropAll s keys hs.access
  | _ =>
      cases hop

/-- A load that succeeds is a recovery, when the log can be opened. -/
theorem started_of_load {clock : Clock} {log log' : LogFile}
    {result : LoadResult} (h : (load py).run
      (init clock maxmemory policy, log) = (.ok result, (s, log')))
    (hopen : log'.openFails = false) : Started py maxmemory policy s := by
  have hrecover : recover py .no (fun _ => ⟨0, false⟩)
      (init clock maxmemory policy) log =
        .ok (s, newJournal .no log' (fun _ => ⟨0, false⟩)) :=
    recover_of_load h hopen
  exact .recovered hrecover

theorem Started.unused (h : Started py maxmemory policy s) : Unused s := by
  cases h with
  | empty clock =>
      exact unused_init clock
  | @recovered clock fsync outcomes log s journal h =>
      obtain ⟨result, log', hload, -⟩ := load_of_recover h
      have hunused : Unused
          ((load py).run (init clock maxmemory policy, log)).2.1 :=
        (preserves_load fun _ => preserves_unused_load).state_after
          (s := (init clock maxmemory policy, log)) (unused_init clock)
      rw [hload] at hunused
      exact hunused

end Starts

section Histories

/-- A server, how many events it has seen, and which of them was the last to
use each key since the key came into existence. -/
structure History (J : Type) where
  state : KeyValueStore × J
  count : Nat
  lastUse : Bytes → Option Nat

/-- The second key has been used, and after the first if that has been. -/
def UsedLater (x y : Option Nat) : Prop :=
  ∃ n, y = some n ∧ ∀ m, x = some m → m < n

/-- The counters are in the order of the history. -/
structure History.Ordered (h : History J) : Prop where
  exact : Exact h.state.1
  past : ∀ k n, h.lastUse k = some n → n < h.count
  unused : ∀ k ∈ h.state.1.data, h.lastUse k = none →
    h.state.1.accessOf k = 0
  used : ∀ k ∈ h.state.1.data, ∀ n, h.lastUse k = some n →
    0 < h.state.1.accessOf k
  order : ∀ a ∈ h.state.1.data, ∀ b ∈ h.state.1.data, ∀ m n,
    h.lastUse a = some m → h.lastUse b = some n →
      (h.state.1.accessOf a < h.state.1.accessOf b ↔ m < n)

theorem Unused.ordered (hs : Unused s) (j : J) :
    History.Ordered ⟨(s, j), 0, fun _ => none⟩ where
  exact := hs.exact
  past := by
    intro k n hn
    cases hn
  unused := by
    intro k _ _
    change s.accessOf k = 0
    rw [accessOf, hs.access]
    rfl
  used := by
    intro k _ n hn
    cases hn
  order := by
    intro a _ b _ m n hm
    cases hm

/-- Ordered counters compare as the last uses do. -/
theorem History.Ordered.lt_iff {h : History J} (ho : h.Ordered)
    {a b : Bytes} (ha : a ∈ h.state.1.data) (hb : b ∈ h.state.1.data) :
    h.state.1.accessOf a < h.state.1.accessOf b ↔
      UsedLater (h.lastUse a) (h.lastUse b) := by
  cases hlb : h.lastUse b with
  | none =>
      refine iff_of_false ?_ ?_
      · rw [ho.unused b hb hlb]
        exact Nat.not_lt_zero _
      · rintro ⟨n, hn, -⟩
        cases hn
  | some n =>
      cases hla : h.lastUse a with
      | none =>
          refine iff_of_true ?_ ⟨n, rfl, ?_⟩
          · rw [ho.unused a ha hla]
            exact ho.used b hb n hlb
          · intro m hm
            cases hm
      | some m =>
          rw [ho.order a ha b hb m n hla hlb]
          constructor
          · intro hlt
            refine ⟨n, rfl, ?_⟩
            rintro m' ⟨⟩
            exact hlt
          · rintro ⟨n', ⟨⟩, hall⟩
            exact hall m rfl

end Histories

variable [Journal J]

section Runs

/-- The key that an event uses. -/
def usedKey (py : Interpreter) (state : KeyValueStore × J) :
    Event → Option Bytes
  | .request parts =>
      if turnedAway py state (.request parts) then none
      else (plan py parts).uses py state.1
  | _ => none

/-- The history after one more event. -/
def History.extend (py : Interpreter) (h : History J) (event : Event) :
    History J :=
  let next := ((handle py event).run h.state).2
  { state := next
    count := h.count + 1
    lastUse := fun key =>
      if key ∉ next.1.data then none
      else if usedKey py h.state event = some key then some h.count
      else h.lastUse key }

/-- The history of a run. -/
def history (py : Interpreter) (state : KeyValueStore × J)
    (events : List Event) : History J :=
  events.foldl (History.extend py) ⟨state, 0, fun _ => none⟩

/-- Only GET, SET and INCR use keys. -/
theorem usedKey_of_other (state : KeyValueStore × J) {name : Bytes}
    (args : List Bytes)
    (hname : upper name ∉ [ascii "GET", ascii "SET", ascii "INCR"]) :
    usedKey py state (.request (name :: args)) = none := by
  simp only [List.mem_cons, List.not_mem_nil, or_false, not_or] at hname
  obtain ⟨hget, hset, hincr⟩ := hname
  have hplan := planOf_request py name args
  rw [usedKey]
  split_ifs
  · rfl
  · generalize plan py (name :: args) = p at hplan
    cases hplan with
    | set _ h _ =>
        exact absurd h hset
    | get h _ =>
        exact absurd h hget
    | incr h _ =>
        exact absurd h hincr
    | _ =>
        rfl

/-- **What an event does to the counters.** -/
theorem counts_event (hs : Exact s) (j : J) (event : Event) :
    Counts (usedKey py (s, j) event) s
      ((handle py event).run (s, j)).2.1 := by
  have hself := (tidying_keeps.refl s).counts
  cases event with
  | request parts =>
      rw [handle_store, usedKey]
      split_ifs
      · exact hself
      · rw [onward, execute_eq_plan]
        exact Plan.counts hs (plan py parts)
  | sweep limit =>
      obtain ⟨keys, cursor, -, hrun⟩ := @handle_sweep_run J _ py s j hs limit
      have hswept : Keeps s
          ((s.afterReading.dropAll keys).moveSweep cursor) :=
        ((tidying_keeps.reading s).trans
          (tidying_keeps.dropAll _ keys)).trans (keeps_of_data rfl rfl rfl)
      rw [hrun]
      exact hswept.counts
  | fsync =>
      rw [handle_fsync_run py s s j]
      exact hself

/-- One more event keeps them in that order. -/
theorem History.Ordered.extend {h : History J} (ho : h.Ordered)
    (event : Event) : (h.extend py event).Ordered := by
  obtain ⟨⟨s, j⟩, count, lastUse⟩ := h
  have hcounts := @counts_event py s J _ ho.exact j event
  have hexact : Exact ((handle py event).run (s, j)).2.1 :=
    (@preserves_handle py Exact J _ (fun op _ => Preserves.of_state_after
      fun _ ht => op.exact_after ht py) event).state_after
        (s := (s, j)) ho.exact
  have hpast : ∀ k, s.accessOf k ≤ s.tick := ho.exact.accessOf_le
  -- what the extended history says of a key that is there
  have hlast : ∀ k ∈ ((handle py event).run (s, j)).2.1.data,
      (History.extend py ⟨(s, j), count, lastUse⟩ event).lastUse k =
        if usedKey py (s, j) event = some k then some count
        else lastUse k := by
    intro k hk
    simp only [History.extend, not_not.mpr hk, if_false]
  refine ⟨hexact, ?_, ?_, ?_, ?_⟩
  · intro k n hn
    simp only [History.extend] at hn ⊢
    split_ifs at hn
    · cases hn
      exact Nat.lt_succ_self count
    · exact Nat.lt_succ_of_lt (ho.past k n hn)
  · intro k hk hnone
    rw [hlast k hk] at hnone
    split_ifs at hnone with hused
    obtain ⟨hmem, haccess⟩ := hcounts.others k hk hused
    exact haccess.trans (ho.unused k hmem hnone)
  · intro k hk n hn
    rw [hlast k hk] at hn
    split_ifs at hn with hused
    · exact lt_of_le_of_lt (Nat.zero_le _) (hcounts.newest k hused).2
    · obtain ⟨hmem, haccess⟩ := hcounts.others k hk hused
      have hpos := ho.used k hmem n hn
      exact lt_of_lt_of_eq hpos haccess.symm
  · intro a ha b hb m n hm hn
    rw [hlast a ha] at hm
    rw [hlast b hb] at hn
    simp only [History.extend]
    split_ifs at hm hn with haused hbused hbused
    · -- the same key
      rw [haused] at hbused
      cases hbused
      cases hm
      cases hn
      exact iff_of_false (lt_irrefl _) (lt_irrefl _)
    · have hnew := (hcounts.newest a haused).2
      obtain ⟨hmem, haccess⟩ := hcounts.others b hb hbused
      have hbold := hpast b
      have hnold := ho.past b n hn
      cases hm
      rw [haccess]
      exact iff_of_false (by omega) (by simp only at hnold; omega)
    · have hnew := (hcounts.newest b hbused).2
      obtain ⟨hmem, haccess⟩ := hcounts.others a ha haused
      have haold := hpast a
      have hmold := ho.past a m hm
      cases hn
      rw [haccess]
      exact iff_of_true (by omega) hmold
    · obtain ⟨hamem, haaccess⟩ := hcounts.others a ha haused
      obtain ⟨hbmem, hbaccess⟩ := hcounts.others b hb hbused
      rw [haaccess, hbaccess]
      exact ho.order a hamem b hbmem m n hm hn

theorem History.Ordered.run {h : History J} (ho : h.Ordered)
    (events : List Event) :
    (events.foldl (History.extend py) h).Ordered := by
  induction events generalizing h with
  | nil =>
      exact ho
  | cons event events ih =>
      exact ih (ho.extend event)

theorem foldl_extend_state (h : History J) (events : List Event) :
    (events.foldl (History.extend py) h).state =
      afterEvents py h.state events := by
  induction events generalizing h with
  | nil =>
      rfl
  | cons event events ih =>
      exact ih (h.extend py event)

theorem history_state (state : KeyValueStore × J) (events : List Event) :
    (history py state events).state = afterEvents py state events :=
  foldl_extend_state _ events

/-- **The access counters are the recency order.**  Whatever a server has gone
through since it started empty or recovered its log: of two keys that are
there, one has the smaller counter exactly when the last use of the other came
later, a key without any use counting as 0.  An event that uses neither of two
keys that are there afterwards leaves them in the order they had, and no
request but a GET, a SET or an INCR uses any. -/
theorem counters_are_recency_order (hs : Started py maxmemory policy s)
    (j : J) (events : List Event) :
    (∀ a ∈ (afterEvents py (s, j) events).1.data,
      ∀ b ∈ (afterEvents py (s, j) events).1.data,
      ((afterEvents py (s, j) events).1.accessOf a <
          (afterEvents py (s, j) events).1.accessOf b ↔
        UsedLater ((history py (s, j) events).lastUse a)
          ((history py (s, j) events).lastUse b))) ∧
    (∀ a ∈ (afterEvents py (s, j) events).1.data,
      (history py (s, j) events).lastUse a = none →
        (afterEvents py (s, j) events).1.accessOf a = 0) ∧
    (∀ event next,
      ((handle py event).run (afterEvents py (s, j) events)).2 = next →
      ∀ a ∈ next.1.data, ∀ b ∈ next.1.data,
      usedKey py (afterEvents py (s, j) events) event ≠ some a →
      usedKey py (afterEvents py (s, j) events) event ≠ some b →
      (next.1.accessOf a < next.1.accessOf b ↔
        (afterEvents py (s, j) events).1.accessOf a <
          (afterEvents py (s, j) events).1.accessOf b)) ∧
    ∀ name args, upper name ∉ [ascii "GET", ascii "SET", ascii "INCR"] →
      usedKey py (afterEvents py (s, j) events)
        (.request (name :: args)) = none := by
  have ho : (history py (s, j) events).Ordered :=
    (hs.unused.ordered j).run events
  have hstate := @history_state py J _ (s, j) events
  rw [← hstate]
  refine ⟨fun a ha b hb => ho.lt_iff ha hb, ho.unused, ?_,
    fun name args hname => usedKey_of_other _ args hname⟩
  rintro event next rfl a ha b hb hna hnb
  have hcounts := @counts_event py _ J _ ho.exact
    (history py (s, j) events).state.2 event
  rw [(hcounts.others a ha hna).2, (hcounts.others b hb hnb).2]

/-- A log that sets one key. -/
def oneKeyLog : LogFile :=
  LogFile.intact (encodeRecord [ascii "SET", ascii "c", ascii "3"])

/-- The store recovered from it. -/
def oneKeyStore : KeyValueStore :=
  ((load .default).run (init (.frozen 0) 0 .noeviction, oneKeyLog)).2.1

/-- Two keys are set; the first is read, and the second only looked at. -/
def setReadAndLook : List Event :=
  [.request [ascii "SET", ascii "a", ascii "1"],
    .request [ascii "SET", ascii "b", ascii "2"],
    .request [ascii "GET", ascii "a"],
    .request [ascii "EXISTS", ascii "b"]]

/-- The recovered key is the oldest, and the key that was read the newest. -/
theorem read_key_is_newest :
    (afterEvents .default (oneKeyStore, NullJournal.mk)
        setReadAndLook).1.accessOf (ascii "c") <
      (afterEvents .default (oneKeyStore, NullJournal.mk)
        setReadAndLook).1.accessOf (ascii "b") ∧
    (afterEvents .default (oneKeyStore, NullJournal.mk)
        setReadAndLook).1.accessOf (ascii "b") <
      (afterEvents .default (oneKeyStore, NullJournal.mk)
        setReadAndLook).1.accessOf (ascii "a") := by
  have hresult : ((load .default).run
      (init (.frozen 0) 0 .noeviction, oneKeyLog)).1 = .ok ⟨1, 1, 0, 0⟩ := by
    decide +kernel
  have hload : (load .default).run
      (init (.frozen 0) 0 .noeviction, oneKeyLog) =
        (.ok ⟨1, 1, 0, 0⟩, (oneKeyStore, ((load .default).run
          (init (.frozen 0) 0 .noeviction, oneKeyLog)).2.2)) :=
    Prod.ext hresult rfl
  have hstarted : Started .default 0 .noeviction oneKeyStore :=
    started_of_load hload (by decide +kernel)
  have horder := (counters_are_recency_order hstarted NullJournal.mk
    setReadAndLook).1
  constructor
  · refine (horder _ (by decide +kernel) _ (by decide +kernel)).mpr
      ⟨1, by decide +kernel, ?_⟩
    intro m hm
    have hnone : (history .default (oneKeyStore, NullJournal.mk)
        setReadAndLook).lastUse (ascii "c") = none := by
      decide +kernel
    rw [hnone] at hm
    cases hm
  · refine (horder _ (by decide +kernel) _ (by decide +kernel)).mpr
      ⟨2, by decide +kernel, ?_⟩
    intro m hm
    have hone : (history .default (oneKeyStore, NullJournal.mk)
        setReadAndLook).lastUse (ascii "b") = some 1 := by
      decide +kernel
    rw [hone] at hm
    cases hm
    decide

end Runs

end Server
end PyRedis
