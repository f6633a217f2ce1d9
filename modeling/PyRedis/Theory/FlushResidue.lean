import PyRedis.Foundation.Equivariance
import PyRedis.Theory.AlikeStores

/-!
# A flushed store and a new one

A flush empties everything but the access counter, which goes on from where it
was.  So a flushed store is a new store whose counters are all higher by the
same amount, and as long as every key has a counter no operation notices: the
counters are only compared with each other.

`Equivariant` says so of the operations one after the other, and with them of
every request and every sweep, to the last key that an eviction selects.
-/

namespace PyRedis

open Foundation
open Fallible (Equivariant)

namespace KeyValueStore

variable {s : KeyValueStore} {d : Nat}

section Shifting

/-- The same store with every access counter higher by `d`. -/
def shifted (d : Nat) (s : KeyValueStore) : KeyValueStore :=
  { s with
    access := s.access.mapValues (· + d)
    tick := s.tick + d }

/-- Every key has been used. -/
def Counted (s : KeyValueStore) : Prop :=
  ∀ key ∈ s.data, key ∈ s.access

/-- The operation does not notice that the counters are higher. -/
abbrev Unnoticed {α : Type} (d : Nat) (x : StoreM α) : Prop :=
  Equivariant (shifted d) Counted x

theorem counted_init (clock : Clock) (maxmemory : Int)
    (policy : MaxmemoryPolicy) : Counted (init clock maxmemory policy) :=
  fun key hkey => absurd hkey (OrderedDict.not_mem_empty key)

theorem Counted.frame {t : KeyValueStore} (h : Counted s)
    (hdata : t.data = s.data) (haccess : t.access = s.access) :
    Counted t := by
  unfold Counted
  rw [hdata, haccess]
  exact h

theorem Counted.without (h : Counted s) (key value : Bytes) :
    Counted (s.without key value) := by
  intro k hk
  obtain ⟨hne, hmem⟩ := OrderedDict.mem_erase.mp hk
  exact OrderedDict.mem_erase.mpr ⟨hne, h k hmem⟩

theorem Counted.touch (h : Counted s) (key : Bytes) :
    Counted (s.touch key) :=
  fun k hk => OrderedDict.mem_set.mpr (Or.inr (h k hk))

/-- A key that is put there and used. -/
theorem Counted.rewritten (h : Counted s) (key value : Bytes) :
    Counted (s.rewritten key value) := by
  intro k hk
  rcases OrderedDict.mem_set.mp hk with rfl | hmem
  · exact OrderedDict.mem_set.mpr (Or.inl rfl)
  · exact OrderedDict.mem_set.mpr (Or.inr (h k hmem))

theorem Counted.stored (h : Counted s) (key value : Bytes)
    (deadline : Option Int) : Counted (s.stored key value deadline) := by
  have hrewritten := h.rewritten key value
  cases deadline <;> exact hrewritten

theorem shifted_without (d : Nat) (s : KeyValueStore) (key value : Bytes) :
    (s.shifted d).without key value = (s.without key value).shifted d := by
  simp only [shifted, without, OrderedDict.mapValues_erase]

theorem shifted_touch (d : Nat) (s : KeyValueStore) (key : Bytes) :
    (s.shifted d).touch key = (s.touch key).shifted d := by
  simp only [shifted, touch, ← OrderedDict.mapValues_set, Nat.add_right_comm]

theorem shifted_rewritten (d : Nat) (s : KeyValueStore)
    (key value : Bytes) :
    (s.shifted d).rewritten key value = (s.rewritten key value).shifted d :=
  shifted_touch d (s.write key value) key

theorem shifted_stored (d : Nat) (s : KeyValueStore) (key value : Bytes)
    (deadline : Option Int) :
    (s.shifted d).stored key value deadline =
      (s.stored key value deadline).shifted d := by
  cases deadline with
  | none =>
      exact shifted_touch d ((s.write key value).popExpires key) key
  | some t =>
      exact shifted_touch d ((s.write key value).setExpires key t) key

theorem Counted.accessOf_shifted (h : Counted s) {key : Bytes}
    (hkey : key ∈ s.data) :
    (s.shifted d).accessOf key = s.accessOf key + d := by
  obtain ⟨n, hn⟩ := OrderedDict.exists_lookup_of_mem (h key hkey)
  simp only [accessOf, shifted, OrderedDict.lookup_mapValues, hn,
    Option.map_some, Option.getD_some]

end Shifting

section Helpers

theorem unnoticed_readClock (d : Nat) : Unnoticed d readClock :=
  Equivariant.of_run (fun _ => rfl) (fun _ => rfl) (fun _ => rfl)
    fun _ h => h.frame rfl rfl

theorem unnoticed_remove (d : Nat) (key : Bytes) :
    Unnoticed d (remove key) := by
  intro s hs
  have hdata : (s.shifted d).data.lookup key = s.data.lookup key := rfl
  simp only [Fallible.run, remove, hdata]
  cases s.data.lookup key with
  | none =>
      exact ⟨hs, rfl⟩
  | some value =>
      exact ⟨hs.without key value,
        congrArg (Prod.mk _) (shifted_without d s key value)⟩

theorem unnoticed_dropIfExpired (d : Nat) (key : Bytes)
    (now : Option Int) : Unnoticed d (dropIfExpired key now) := by
  refine Equivariant.get_bind (fun _ => rfl) fun s => ?_
  cases s.expires.lookup key with
  | none =>
      exact Equivariant.pure ()
  | some deadline =>
      have hdrop : ∀ t : Int,
          Unnoticed d (if deadline ≤ t then remove key else pure ()) := by
        intro t
        split_ifs
        · exact unnoticed_remove d key
        · exact Equivariant.pure ()
      cases now with
      | none =>
          exact (unnoticed_readClock d).bind hdrop
      | some t =>
          exact (Equivariant.pure t).bind hdrop

theorem unnoticed_deadline (d : Nat) (ttlMs : Int) :
    Unnoticed d (deadline ttlMs) := by
  unfold deadline
  split_ifs
  · exact Equivariant.raise _
  · refine (unnoticed_readClock d).bind fun now => ?_
    split_ifs
    · exact Equivariant.raise _
    · exact Equivariant.pure _

theorem unnoticed_dropExpired (d : Nat) : Unnoticed d dropExpired := by
  refine (unnoticed_readClock d).bind fun now => ?_
  refine Equivariant.get_bind (fun _ => rfl) fun s => ?_
  refine Equivariant.foldlM (fun removed key => ?_) _ 0
  refine Equivariant.get_bind (fun _ => rfl) fun t => ?_
  cases t.expires.lookup key with
  | none =>
      exact Equivariant.raise _
  | some deadline =>
      simp only
      split_ifs
      · exact (unnoticed_remove d key).bind fun _ => Equivariant.pure _
      · exact Equivariant.pure _

end Helpers

section Selection

/-- Only the order of the ranks matters to a selection. -/
theorem leastBy_of_lt_iff {rank rank' : Bytes → Nat} {best : Bytes}
    {rest : List Bytes}
    (h : ∀ j ∈ best :: rest, ∀ k ∈ best :: rest,
      rank' j < rank' k ↔ rank j < rank k) :
    leastBy rank' best rest = leastBy rank best rest := by
  induction rest generalizing best with
  | nil =>
      rfl
  | cons candidate rest ih =>
      have hsub : ∀ chosen ∈ best :: candidate :: rest,
          ∀ j ∈ chosen :: rest, j ∈ best :: candidate :: rest := by
        intro chosen hchosen j hj
        rcases List.mem_cons.mp hj with rfl | hj
        · exact hchosen
        · exact List.mem_cons_of_mem _ (List.mem_cons_of_mem _ hj)
      have hcandidate : candidate ∈ best :: candidate :: rest := by simp
      have hbest : best ∈ best :: candidate :: rest := List.mem_cons_self
      simp only [leastBy, h candidate hcandidate best hbest]
      split_ifs
      · exact ih fun j hj k hk =>
          h j (hsub candidate hcandidate j hj) k (hsub candidate hcandidate k hk)
      · exact ih fun j hj k hk =>
          h j (hsub best hbest j hj) k (hsub best hbest k hk)

/-- Counters that are higher by the same amount select the same victim. -/
theorem unnoticed_selectVictim (d : Nat) (exclude : Bytes) :
    Unnoticed d (selectVictim exclude) := by
  intro s hs
  have hdata : (s.shifted d).data = s.data := rfl
  have hsample : sample (s.shifted d) exclude = sample s exclude :=
    sample_congr hdata rfl exclude
  simp only [Fallible.run, selectVictim, hsample]
  cases hdrawn : (sample s exclude).1 with
  | nil =>
      exact ⟨hs.frame rfl rfl, rfl⟩
  | cons best rest =>
      have hleast : leastBy (s.shifted d).accessOf best rest =
          leastBy s.accessOf best rest := by
        refine leastBy_of_lt_iff fun j hj k hk => ?_
        rw [← hdrawn] at hj hk
        rw [hs.accessOf_shifted (mem_sample hj).2,
          hs.accessOf_shifted (mem_sample hk).2]
        omega
      simp only [hleast]
      exact ⟨hs.frame rfl rfl, rfl⟩

theorem unnoticed_evictUntilFits (d : Nat) (key : Bytes) (cost' : Int) :
    ∀ passes, Unnoticed d (evictUntilFits key cost' passes)
  | 0 => Equivariant.raise _
  | passes + 1 => by
      refine Equivariant.get_bind (fun _ => rfl) fun s => ?_
      split_ifs
      · refine (unnoticed_selectVictim d key).bind fun chosen => ?_
        cases chosen with
        | none =>
            exact Equivariant.raise _
        | some victim =>
            have hreport : Unnoticed d (Fallible.modify (fun s =>
                { s with evicted := s.evicted ++ [victim] })) :=
              Equivariant.modify (fun _ => rfl)
                fun _ h => Counted.frame h rfl rfl
            refine (unnoticed_remove d victim).bind fun _ => ?_
            exact hreport.bind
              fun _ => unnoticed_evictUntilFits d key cost' passes
      · exact Equivariant.pure ()

theorem unnoticed_admitWrite (d : Nat) (key value : Bytes) :
    Unnoticed d (admitWrite key value) := by
  refine Equivariant.get_bind (fun _ => rfl) fun s => ?_
  split_ifs
  · exact Equivariant.pure ()
  · exact Equivariant.pure ()
  · exact Equivariant.raise _
  · exact Equivariant.raise _
  · refine (unnoticed_dropExpired d).bind fun _ => ?_
    refine Equivariant.get_bind (fun _ => rfl) fun t => ?_
    exact unnoticed_evictUntilFits d key _ _

end Selection

section Operations

/-- The writes that follow an admission. -/
theorem unnoticed_set (d : Nat) (key value : Bytes) (ttlMs : Option Int) :
    Unnoticed d (set key value ttlMs) := by
  have hstore : ∀ deadline : Option Int, Unnoticed d (do
      Fallible.modify (fun s => s.write key value)
      Fallible.modify (fun s => s.assignExpires key deadline)
      Fallible.modify (fun s => s.touch key)) := by
    intro deadline
    refine @Equivariant.of_run _ _ _ (shifted d) Counted _
      (fun _ => .ok ()) (fun s => s.stored key value deadline)
      (fun _ => rfl) (fun _ => rfl) ?_ ?_
    · exact fun s => shifted_stored d s key value deadline
    · exact fun s hs => Counted.stored hs key value deadline
  cases ttlMs with
  | none =>
      exact (Equivariant.pure none).bind fun deadline =>
        (unnoticed_admitWrite d key value).bind fun _ => hstore deadline
  | some ttl =>
      refine Equivariant.bind ?_ fun deadline =>
        (unnoticed_admitWrite d key value).bind fun _ => hstore deadline
      exact (unnoticed_deadline d ttl).bind fun _ => Equivariant.pure _

theorem unnoticed_touch (d : Nat) (key : Bytes) :
    Unnoticed d (Fallible.modify (fun s => s.touch key)) :=
  Equivariant.modify (fun s => shifted_touch d s key)
    fun _ h => Counted.touch h key

theorem unnoticed_get (d : Nat) (key : Bytes) : Unnoticed d (get key) := by
  refine (unnoticed_dropIfExpired d key none).bind fun _ => ?_
  refine Equivariant.get_bind (fun _ => rfl) fun s => ?_
  cases s.data.lookup key with
  | none =>
      exact Equivariant.pure none
  | some value =>
      exact (unnoticed_touch d key).bind fun _ => Equivariant.pure _

theorem unnoticed_delete (d : Nat) (keys : List Bytes) :
    Unnoticed d (delete keys) := by
  refine Equivariant.foldlM (fun removed key => ?_) keys 0
  refine (unnoticed_dropIfExpired d key none).bind fun _ => ?_
  refine Equivariant.get_bind (fun _ => rfl) fun s => ?_
  split_ifs
  · exact (unnoticed_remove d key).bind fun _ => Equivariant.pure _
  · exact Equivariant.pure _

theorem unnoticed_exists (d : Nat) (keys : List Bytes) :
    Unnoticed d («exists» keys) := by
  refine Equivariant.foldlM (fun present key => ?_) keys 0
  refine (unnoticed_dropIfExpired d key none).bind fun _ => ?_
  refine Equivariant.get_bind (fun _ => rfl) fun s => ?_
  split_ifs
  · exact Equivariant.pure _
  · exact Equivariant.pure _

theorem unnoticed_incr (d : Nat) (py : Interpreter) (key : Bytes) :
    Unnoticed d (incr py key) := by
  have hstore : ∀ value : Int, Unnoticed d (do
      Fallible.modify (fun s => s.write key (str value))
      Fallible.modify (fun s => s.touch key)
      pure value) := by
    intro value
    refine @Equivariant.of_run _ _ _ (shifted d) Counted _
      (fun _ => .ok value) (fun s => s.rewritten key (str value))
      (fun _ => rfl) (fun _ => rfl) ?_ ?_
    · exact fun s => shifted_rewritten d s key (str value)
    · exact fun s hs => Counted.rewritten hs key (str value)
  have hadd : ∀ current : Int, Unnoticed d
      (if int64Max < current + 1 then
        Fallible.raise (.store .integerOverflow)
      else do
        admitWrite key (str (current + 1))
        Fallible.modify (fun s => s.write key (str (current + 1)))
        Fallible.modify (fun s => s.touch key)
        pure (current + 1)) := by
    intro current
    split_ifs
    · exact Equivariant.raise _
    · exact (unnoticed_admitWrite d key _).bind fun _ => hstore (current + 1)
  refine (unnoticed_dropIfExpired d key none).bind fun _ => ?_
  refine Equivariant.get_bind (fun _ => rfl) fun s => ?_
  cases s.data.lookup key with
  | none =>
      exact (Equivariant.pure 0).bind hadd
  | some raw =>
      exact (Equivariant.ofExcept (parseInt py raw)).bind hadd

theorem unnoticed_expire (d : Nat) (key : Bytes) (ttlMs : Int) :
    Unnoticed d (expire key ttlMs) := by
  refine (unnoticed_dropIfExpired d key none).bind fun _ => ?_
  refine Equivariant.get_bind (fun _ => rfl) fun s => ?_
  split_ifs
  · exact (unnoticed_remove d key).bind fun _ => Equivariant.pure _
  · refine (unnoticed_deadline d ttlMs).bind fun t => ?_
    have hset : Unnoticed d
        (Fallible.modify (fun s => s.setExpires key t)) :=
      Equivariant.modify (fun _ => rfl) fun _ h => Counted.frame h rfl rfl
    exact hset.bind fun _ => Equivariant.pure _
  · exact Equivariant.pure _

theorem unnoticed_ttl (d : Nat) (key : Bytes) : Unnoticed d (ttl key) := by
  refine (unnoticed_readClock d).bind fun now => ?_
  refine (unnoticed_dropIfExpired d key (some now)).bind fun _ => ?_
  refine Equivariant.get_bind (fun _ => rfl) fun s => ?_
  split_ifs
  · cases s.expires.lookup key <;> exact Equivariant.pure _
  · exact Equivariant.pure _

theorem unnoticed_persist (d : Nat) (key : Bytes) :
    Unnoticed d (persist key) := by
  have hpop : Unnoticed d (Fallible.modify (fun s => s.popExpires key)) :=
    Equivariant.modify (fun _ => rfl) fun _ h => Counted.frame h rfl rfl
  refine (unnoticed_dropIfExpired d key none).bind fun _ => ?_
  refine Equivariant.get_bind (fun _ => rfl) fun s => ?_
  split_ifs
  · exact hpop.bind fun _ => Equivariant.pure _
  · exact Equivariant.pure _

theorem unnoticed_deadlineMs (d : Nat) (key : Bytes) :
    Unnoticed d (deadlineMs key) :=
  Equivariant.get_bind (fun _ => rfl) fun _ => Equivariant.pure _

theorem unnoticed_dbsize (d : Nat) : Unnoticed d dbsize :=
  (unnoticed_dropExpired d).bind fun _ =>
    Equivariant.get_bind (fun _ => rfl) fun _ => Equivariant.pure _

theorem unnoticed_flushdb (d : Nat) : Unnoticed d flushdb :=
  Equivariant.modify (fun _ => rfl)
    fun _ _ key hkey => absurd hkey (OrderedDict.not_mem_empty key)

theorem unnoticed_takeEvicted (d : Nat) : Unnoticed d takeEvicted :=
  Equivariant.of_run (fun _ => rfl) (fun _ => rfl) (fun _ => rfl)
    fun _ h => Counted.frame h rfl rfl

theorem unnoticed_sweepLoop (d : Nat) (now : Int) :
    ∀ passes refilled removed,
      Unnoticed d (sweepLoop now passes refilled removed)
  | 0, _, removed => Equivariant.pure removed
  | passes + 1, refilled, removed => by
      have hrest := unnoticed_sweepLoop d now passes
      refine Equivariant.get_bind (fun _ => rfl) fun s => ?_
      by_cases hdone : s.sweepCursor = [] ∧
          (refilled = true ∨ s.expires.keys = [])
      · rw [if_pos hdone]
        exact Equivariant.pure removed
      · rw [if_neg hdone]
        simp only
        generalize (if s.sweepCursor = [] then s.expires.keys.reverse
          else s.sweepCursor) = cursor
        cases cursor with
        | nil =>
            exact Equivariant.raise _
        | cons key cursor =>
            have hmove : Unnoticed d (Fallible.modify (fun s =>
                { s with sweepCursor := cursor })) :=
              Equivariant.modify (fun _ => rfl)
                fun _ h => Counted.frame h rfl rfl
            refine hmove.bind fun _ => ?_
            cases s.expires.lookup key with
            | none =>
                exact hrest _ _
            | some deadline =>
                simp only
                split_ifs
                · exact (unnoticed_remove d key).bind fun _ => hrest _ _
                · exact hrest _ _

theorem unnoticed_sweepExpired (d : Nat) (limit : Nat) :
    Unnoticed d (sweepExpired limit) :=
  (unnoticed_readClock d).bind
    fun now => unnoticed_sweepLoop d now limit false 0

end Operations

end KeyValueStore

namespace Commands

open KeyValueStore

variable {d : Nat} {py : Interpreter}

section Requests

theorem unnoticed_rescue {α : Type} {name : String} {x : StoreM α}
    {k : α → StoreM Effect} (hx : Unnoticed d x)
    (hk : ∀ a, Unnoticed d (k a)) :
    Unnoticed d (Effects.rescueInvalidExpire name x k) := by
  intro s hs
  obtain ⟨ht, hrun⟩ := hx s hs
  rcases hxs : x.run s with ⟨e | a, t⟩
  · rw [hxs] at ht hrun
    by_cases he : e = .store .invalidExpire
    · subst he
      rw [Effects.rescue_run_invalid hxs, Effects.rescue_run_invalid hrun]
      exact ⟨ht, rfl⟩
    · rw [Effects.rescue_run_error hxs he, Effects.rescue_run_error hrun he]
      exact ⟨ht, rfl⟩
  · rw [hxs] at ht hrun
    rw [Effects.rescue_run_ok hxs, Effects.rescue_run_ok hrun]
    exact hk a t ht

theorem unnoticed_written (key value reply : Bytes) :
    Unnoticed d (Effects.written key value reply) :=
  (unnoticed_takeEvicted d).bind fun _ =>
    (unnoticed_deadlineMs d key).bind fun _ => Equivariant.pure _

theorem unnoticed_attempt (p : Plan) : Unnoticed d (p.attempt py) := by
  cases p with
  | answer reply =>
      exact Equivariant.pure _
  | raise e =>
      exact Equivariant.raise e
  | set key value ttlMs =>
      exact unnoticed_rescue (unnoticed_set d key value ttlMs)
        fun _ => unnoticed_written key value _
  | get key =>
      exact (unnoticed_get d key).bind fun _ => Equivariant.pure _
  | expire key ttlMs =>
      refine unnoticed_rescue (unnoticed_expire d key ttlMs)
        fun applied => ?_
      split_ifs
      · exact (unnoticed_deadlineMs d key).bind fun _ => Equivariant.pure _
      · exact Equivariant.pure _
  | ttl key =>
      exact (unnoticed_ttl d key).bind fun _ => Equivariant.pure _
  | persist key =>
      exact (unnoticed_persist d key).bind fun _ => Equivariant.pure _
  | delete keys =>
      exact (unnoticed_delete d keys).bind fun _ => Equivariant.pure _
  | «exists» keys =>
      exact (unnoticed_exists d keys).bind fun _ => Equivariant.pure _
  | incr key =>
      exact (unnoticed_incr d py key).bind
        fun _ => unnoticed_written key _ _
  | dbsize =>
      exact (unnoticed_dbsize d).bind fun _ => Equivariant.pure _
  | flushdb =>
      exact (unnoticed_flushdb d).bind fun _ => Equivariant.pure _

theorem unnoticed_execute (parts : List Bytes) :
    Unnoticed d (execute py parts) := by
  rw [execute_eq_plan]
  refine (unnoticed_attempt (plan py parts)).catching fun e => ?_
  cases errorReply e with
  | none =>
      exact Equivariant.raise e
  | some reply =>
      exact Equivariant.pure _

end Requests

end Commands

namespace Server

open Commands KeyValueStore

variable {J : Type} [Journal J] {py : Interpreter} {s : KeyValueStore}
variable {d : Nat}

section Events

theorem equivariant_handle (event : Event) :
    Equivariant (Prod.map (shifted d) id)
      (fun p : KeyValueStore × J => Counted p.1) (handle py event) := by
  cases event with
  | request parts =>
      rintro ⟨s, j⟩ hs
      obtain ⟨ht, hrun⟩ := @unnoticed_execute d py parts s hs
      rw [execute_eq_plan] at ht hrun
      by_cases haway : turnedAway py (s, j) (.request parts) = true
      · have haway' : turnedAway py (s.shifted d, j) (.request parts) =
            true := haway
        rw [Prod.map_apply, handle_request_away haway, id,
          handle_request_away haway']
        exact ⟨hs, rfl⟩
      · have haway' : ¬ turnedAway py (s.shifted d, j) (.request parts) =
            true := haway
        rw [Prod.map_apply, handle_request_run haway rfl, id,
          handle_request_run haway' hrun]
        exact ⟨ht, rfl⟩
  | sweep limit =>
      exact (unnoticed_sweepExpired d limit).onFst.bind
        fun _ => Equivariant.pure none
  | fsync =>
      refine Equivariant.bind ?_ fun _ => Equivariant.pure none
      refine (Equivariant.onSnd _).catching fun e => ?_
      cases e with
      | persistence reason =>
          exact Equivariant.pure ()
      | _ =>
          exact Equivariant.raise _

end Events

section Observations

/-- Everything there is to see of an event: the reply, how many keys a sweep
has removed, which keys were evicted, what was recorded, and the journal
afterwards. -/
structure Observation (J : Type) where
  reply : Except Exc (Option Bytes)
  swept : Option (Except Exc Nat)
  evicted : List Bytes
  facts : List Write
  journal : J

/-- What `sweep_expired` returns. -/
def sweptBy (s : KeyValueStore) : Event → Option (Except Exc Nat)
  | .sweep limit => some ((sweepExpired limit).run s).1
  | _ => none

def observe (py : Interpreter) (state : KeyValueStore × J) (event : Event) :
    Observation J where
  reply := ((handle py event).run state).1
  swept := sweptBy state.1 event
  evicted := victimsOf (recorded py state event)
  facts := recorded py state event
  journal := ((handle py event).run state).2.2

/-- What there is to see of one event after the other. -/
def observations (py : Interpreter) (state : KeyValueStore × J) :
    List Event → List (Observation J)
  | [] => []
  | event :: events =>
      observe py state event ::
        observations py ((handle py event).run state).2 events

theorem recorded_shifted (hs : Counted s) (j : J) (event : Event) :
    recorded py (s.shifted d, j) event = recorded py (s, j) event := by
  have haway : turnedAway py (s.shifted d, j) event =
      turnedAway py (s, j) event := rfl
  have hasked : asked py (s.shifted d) event = asked py s event := by
    cases event with
    | request parts =>
        simp only [asked, (unnoticed_execute parts).run_eq hs]
    | _ =>
        rfl
  simp only [recorded, haway, hasked]

/-- Nothing to see of an event shows that the counters are higher. -/
theorem observe_shifted (hs : Counted s) (j : J) (event : Event) :
    observe py (s.shifted d, j) event = observe py (s, j) event := by
  have hswept : sweptBy (s.shifted d) event = sweptBy s event := by
    cases event with
    | sweep limit =>
        simp only [sweptBy, (unnoticed_sweepExpired d limit).run_eq hs]
    | _ =>
        rfl
  have hrun := (@equivariant_handle J _ py d event).run_eq
    (s := (s, j)) hs
  rw [Prod.map_apply, id] at hrun
  simp only [observe, hrun, hswept, recorded_shifted hs, Prod.map_snd, id]

/-- Nor does any run. -/
theorem observations_shifted (hs : Counted s) (j : J)
    (events : List Event) :
    observations py (s.shifted d, j) events =
      observations py (s, j) events := by
  induction events generalizing s j with
  | nil =>
      rfl
  | cons event events ih =>
      obtain ⟨hnext, hrun⟩ := @equivariant_handle J _ py d event (s, j) hs
      rw [Prod.map_apply, id] at hrun
      simp only [observations, observe_shifted hs, hrun]
      exact congrArg _ (ih hnext _)

end Observations

section Flushes

variable {maxmemory : Int} {policy : MaxmemoryPolicy}

/-- A flushed store is a new one with higher counters. -/
theorem cleared_eq_shifted (hs : Resting maxmemory policy s)
    (clock : Clock) :
    s.cleared.atClock clock = (init clock maxmemory policy).shifted s.tick := by
  simp only [cleared, atClock, shifted, init, hs.drained, hs.maxmemory,
    hs.policy, Nat.zero_add]
  rfl

theorem plan_flushdb {name : Bytes} (hname : upper name = ascii "FLUSHDB") :
    plan py [name] = .flushdb := by
  simp only [plan, hname]
  rfl

/-- **FLUSHDB leaves no residue.**  A server at rest carries out a FLUSHDB.
Whatever happens from then on, under whatever clock and journal, shows what it
would have shown of a new store with the same limits, clock and journal: the
same replies, the same counts of swept keys, the same evicted keys in the same
order, the same records. -/
theorem flushdb_leaves_no_residue {J' : Type} [Journal J']
    (hs : AtRest py maxmemory policy s) {name : Bytes}
    (hname : upper name = ascii "FLUSHDB") {j : J}
    (hcarried : turnedAway py (s, j) (.request [name]) = false)
    (clock : Clock) (j' : J') (events : List Event) :
    observations py
        (((handle py (.request [name])).run (s, j)).2.1.atClock clock, j')
        events =
      observations py (init clock maxmemory policy, j') events := by
  have hflush : ((plan py [name]).effect py).run s =
      (.ok ⟨[.dropAll], Resp.ok⟩, s.cleared) := by
    rw [plan_flushdb hname]
    rfl
  have hworks : ¬ turnedAway py (s, j) (.request [name]) = true := by
    rw [hcarried]
    exact Bool.false_ne_true
  rw [handle_request_run hworks hflush, cleared_eq_shifted hs.resting clock]
  exact observations_shifted (counted_init clock maxmemory policy) j' events

/-- A server with room for two entries, one of them used twice. -/
def warmStore : KeyValueStore :=
  (afterEvents .default (init (.frozen 0) 132 .allkeysLru, NullJournal.mk)
    [.request [ascii "SET", ascii "a", ascii "1"],
      .request [ascii "SET", ascii "b", ascii "2"],
      .request [ascii "GET", ascii "a"]]).1

/-- Three writes, the last of which needs the room of another. -/
def writesAfterFlush : List Event :=
  [.request [ascii "SET", ascii "a", ascii "1"],
    .request [ascii "SET", ascii "b", ascii "2"],
    .request [ascii "SET", ascii "c", ascii "3"]]

/-- After a flush they evict what they evict in a new store. -/
theorem flushed_store_evicts_as_new :
    observations .default
        (((handle .default (.request [ascii "flushdb"])).run
          (warmStore, NullJournal.mk)).2.1.atClock (.frozen 7), NullJournal.mk)
        writesAfterFlush =
      observations .default
        (init (.frozen 7) 132 .allkeysLru, NullJournal.mk) writesAfterFlush ∧
    (observations .default
        (init (.frozen 7) 132 .allkeysLru, NullJournal.mk)
        writesAfterFlush).map Observation.evicted = [[], [], [ascii "a"]] := by
  have hs : AtRest .default 132 .allkeysLru warmStore :=
    (AtRest.empty (.frozen 0)).afterEvents NullJournal.mk _
  constructor
  · exact flushdb_leaves_no_residue hs (by decide) rfl (.frozen 7)
      NullJournal.mk writesAfterFlush
  · decide +kernel

end Flushes

end Server
end PyRedis
