import PyRedis.Foundation.Unwinding
import PyRedis.Theory.LazyExpiration

/-!
# Keys that do not meet

Without a memory limit, a request that names its keys reads these keys and
changes these keys.  Two groups of clients with keys of their own therefore do
not notice each other, whatever they do and in whatever order it happens:
each group gets the replies that it would get on a server of its own.
-/

namespace PyRedis

open Foundation

namespace Commands

/-- The keys that a request names; `none` for the whole keyspace. -/
def Plan.keys : Plan → Option (List Bytes)
  | .answer _ => some []
  | .raise _ => some []
  | .set key _ _ => some [key]
  | .get key => some [key]
  | .expire key _ => some [key]
  | .ttl key => some [key]
  | .persist key => some [key]
  | .delete keys => some keys
  | .exists keys => some keys
  | .incr key => some [key]
  | .dbsize => none
  | .flushdb => none

/-- All the keys are among those that are kept. -/
def Plan.within (keep : Bytes → Bool) (p : Plan) : Bool :=
  match p.keys with
  | none => false
  | some keys => keys.all keep

end Commands

namespace Reference

open Commands

variable {m m' : Reference} {now : Int} {key : Bytes} {keys : List Bytes}
variable {keep : Bytes → Bool} {p : Plan}

section Entries

/-- The same entries at the keys that are kept. -/
def SameAt (keep : Bytes → Bool) (m m' : Reference) : Prop :=
  ∀ k, keep k = true → m.lookup k = m'.lookup k

theorem SameAt.set (h : SameAt keep m m') (key : Bytes)
    (e : Timed Bytes Int) :
    SameAt keep (OrderedDict.set m key e) (OrderedDict.set m' key e) := by
  intro k hk
  rw [OrderedDict.lookup_set, OrderedDict.lookup_set, h k hk]

theorem SameAt.erase (h : SameAt keep m m') (key : Bytes) :
    SameAt keep (m.erase key) (m'.erase key) := by
  intro k hk
  rw [OrderedDict.lookup_erase, OrderedDict.lookup_erase, h k hk]

theorem SameAt.mem_iff (h : SameAt keep m m') (hkey : keep key = true) :
    key ∈ m ↔ key ∈ m' := by
  rw [← OrderedDict.lookup_isSome_iff, ← OrderedDict.lookup_isSome_iff,
    h key hkey]

theorem SameAt.eraseAll (h : SameAt keep m m') (keys : List Bytes) :
    SameAt keep (keys.foldl OrderedDict.erase m)
      (keys.foldl OrderedDict.erase m') := by
  induction keys generalizing m m' with
  | nil =>
      exact h
  | cons key keys ih =>
      exact ih (h.erase key)

/-- The entry of a key that is not kept may be replaced. -/
theorem sameAt_set_other (hkey : keep key = false) (e : Timed Bytes Int) :
    SameAt keep (OrderedDict.set m key e) m := by
  intro k hk
  have hne : k ≠ key := by
    rintro rfl
    rw [hkey] at hk
    cases hk
  rw [OrderedDict.lookup_set, if_neg hne]

theorem sameAt_erase_other (hkey : keep key = false) :
    SameAt keep (m.erase key) m := by
  intro k hk
  have hne : k ≠ key := by
    rintro rfl
    rw [hkey] at hk
    cases hk
  rw [OrderedDict.lookup_erase, if_neg hne]

theorem SameAt.refl (keep : Bytes → Bool) (m : Reference) :
    SameAt keep m m :=
  fun _ _ => rfl

theorem SameAt.trans {m'' : Reference} (h : SameAt keep m m')
    (h' : SameAt keep m' m'') : SameAt keep m m'' :=
  fun k hk => (h k hk).trans (h' k hk)

theorem sameAt_eraseAll_other (hkeys : ∀ k ∈ keys, keep k = false) :
    SameAt keep (keys.foldl OrderedDict.erase m) m := by
  induction keys generalizing m with
  | nil =>
      exact SameAt.refl keep m
  | cons key keys ih =>
      obtain ⟨hkey, hrest⟩ := List.forall_mem_cons.mp hkeys
      exact (ih hrest).trans (sameAt_erase_other hkey)

end Entries

section Requests

/-- The same answer, and the same entries afterwards. -/
def SameAnswer (keep : Bytes → Bool) (r r' : Bytes × Reference) : Prop :=
  r.1 = r'.1 ∧ SameAt keep r.2 r'.2

theorem within_iff : p.within keep = true ↔
    ∃ keys, p.keys = some keys ∧ ∀ k ∈ keys, keep k = true := by
  unfold Plan.within
  cases p.keys with
  | none =>
      simp
  | some keys =>
      simp

/-- **A request reads its keys.** -/
theorem act_local (h : SameAt keep m m') (hp : p.within keep = true) :
    SameAnswer keep (act now m p) (act now m' p) := by
  obtain ⟨keys, hkeys, hall⟩ := within_iff.mp hp
  cases p with
  | answer reply =>
      exact ⟨rfl, h⟩
  | raise e =>
      exact ⟨rfl, h⟩
  | set key value ttlMs =>
      simp only [act, Reference.set]
      cases ttlMs with
      | none =>
          exact ⟨rfl, h.set _ _⟩
      | some ms =>
          simp only
          cases deadline now ms with
          | none =>
              exact ⟨rfl, h⟩
          | some d =>
              exact ⟨rfl, h.set _ _⟩
  | get key =>
      cases hkeys
      simp only [act, Reference.get, h key (hall key (by simp))]
      cases m'.lookup key with
      | none =>
          exact ⟨rfl, h⟩
      | some e =>
          exact ⟨rfl, h⟩
  | expire key ms =>
      cases hkeys
      simp only [act, Reference.expire, h key (hall key (by simp))]
      cases m'.lookup key with
      | none =>
          exact ⟨rfl, h⟩
      | some e =>
          simp only
          split_ifs
          · exact ⟨rfl, h.erase key⟩
          · cases deadline now ms with
            | none =>
                exact ⟨rfl, h⟩
            | some d =>
                exact ⟨rfl, h.set _ _⟩
  | ttl key =>
      cases hkeys
      simp only [act, Reference.ttl, h key (hall key (by simp))]
      rcases m'.lookup key with _ | ⟨value, _ | d⟩
      · exact ⟨rfl, h⟩
      · exact ⟨rfl, h⟩
      · exact ⟨rfl, h⟩
  | persist key =>
      cases hkeys
      simp only [act, Reference.persist, h key (hall key (by simp))]
      rcases m'.lookup key with _ | ⟨value, _ | d⟩
      · exact ⟨rfl, h⟩
      · exact ⟨rfl, h⟩
      · exact ⟨rfl, h.set _ _⟩
  | delete named =>
      have hnamed : ∀ k ∈ named, keep k = true := by
        cases hkeys
        exact hall
      have hfilter : named.toFinset.filter (· ∈ m) =
          named.toFinset.filter (· ∈ m') := by
        refine Finset.filter_congr fun k hk => ?_
        exact h.mem_iff (hnamed k (List.mem_toFinset.mp hk))
      refine ⟨?_, h.eraseAll named⟩
      simp only [act, Reference.delete, hfilter]
  | «exists» named =>
      have hnamed : ∀ k ∈ named, keep k = true := by
        cases hkeys
        exact hall
      have hfilter : named.filter (· ∈ m) = named.filter (· ∈ m') := by
        refine List.filter_congr fun k hk => ?_
        exact decide_eq_decide.mpr (h.mem_iff (hnamed k hk))
      refine ⟨?_, h⟩
      simp only [act, Reference.exists, hfilter]
  | incr key =>
      cases hkeys
      simp only [act, Reference.incr, h key (hall key (by simp))]
      cases m'.lookup key with
      | none =>
          exact ⟨rfl, h.set _ _⟩
      | some e =>
          simp only
          cases number e.value with
          | none =>
              exact ⟨rfl, h⟩
          | some n =>
              simp only
              split_ifs
              · exact ⟨rfl, h⟩
              · exact ⟨rfl, h.set _ _⟩
  | dbsize =>
      cases hkeys
  | flushdb =>
      cases hkeys

/-- **A request changes its keys.** -/
theorem act_frame (hp : p.within (fun k => !keep k) = true) :
    SameAt keep (act now m p).2 m := by
  obtain ⟨keys, hkeys, hall⟩ := within_iff.mp hp
  have hother : ∀ k ∈ keys, keep k = false :=
    fun k hk => Bool.not_eq_true' _ ▸ hall k hk
  have hsame := SameAt.refl keep m
  cases p with
  | answer reply =>
      exact hsame
  | raise e =>
      exact hsame
  | set key value ttlMs =>
      cases hkeys
      have hset : ∀ e, SameAt keep (OrderedDict.set m key e) m :=
        fun e => sameAt_set_other (hother key (by simp)) e
      simp only [act, Reference.set]
      cases ttlMs with
      | none =>
          exact hset _
      | some ms =>
          simp only
          cases deadline now ms with
          | none =>
              exact hsame
          | some d =>
              exact hset _
  | get key =>
      simp only [act, Reference.get]
      cases m.lookup key <;> exact hsame
  | expire key ms =>
      cases hkeys
      simp only [act, Reference.expire]
      cases m.lookup key with
      | none =>
          exact hsame
      | some e =>
          simp only
          split_ifs
          · exact sameAt_erase_other (hother key (by simp))
          · cases deadline now ms with
            | none =>
                exact hsame
            | some d =>
                exact sameAt_set_other (hother key (by simp)) _
  | ttl key =>
      simp only [act, Reference.ttl]
      rcases m.lookup key with _ | ⟨value, _ | d⟩ <;> exact hsame
  | persist key =>
      cases hkeys
      simp only [act, Reference.persist]
      rcases m.lookup key with _ | ⟨value, _ | d⟩
      · exact hsame
      · exact hsame
      · exact sameAt_set_other (hother key (by simp)) _
  | delete named =>
      cases hkeys
      exact sameAt_eraseAll_other hother
  | «exists» named =>
      exact hsame
  | incr key =>
      cases hkeys
      simp only [act, Reference.incr]
      cases m.lookup key with
      | none =>
          exact sameAt_set_other (hother key (by simp)) _
      | some e =>
          simp only
          cases number e.value with
          | none =>
              exact hsame
          | some n =>
              simp only
              split_ifs
              · exact hsame
              · exact sameAt_set_other (hother key (by simp)) _
  | dbsize =>
      cases hkeys
  | flushdb =>
      cases hkeys

end Requests

section Events

open Server

/-- A request all of whose keys are kept. -/
def mine (keep : Bytes → Bool) (moment : Moment) : Bool :=
  match moment.event with
  | .request parts => (plan .exact parts).within keep
  | _ => false

/-- A request that names its keys, all of them kept or none; or a sweep. -/
def apart (keep : Bytes → Bool) (moment : Moment) : Bool :=
  match moment.event with
  | .request parts => (plan .exact parts).within keep ||
      (plan .exact parts).within fun k => !keep k
  | _ => true

/-- The machine takes an event. -/
def takes (moment : Moment) (m : Reference) : Option Bytes × Reference :=
  step m moment

theorem replies_eq_answersTo (m : Reference) (script : List Moment) :
    replies m script = answersTo takes m script := by
  induction script generalizing m with
  | nil =>
      rfl
  | cons moment script ih =>
      simp only [replies, answersTo, takes, ih]

/-- By the time reached, the same entries are left at the keys that are
kept. -/
def SameBy (keep : Bytes → Bool) (now : Int) (m m' : Reference) : Prop :=
  SameAt keep (purge now m) (purge now m')

theorem SameBy.later (h : SameBy keep now m m') {later : Int}
    (hle : now ≤ later) : SameBy keep later m m' := by
  intro k hk
  have hnow := congrArg (liveEntry later) (h k hk)
  rw [lookup_purge, lookup_purge, liveEntry_idem hle,
    liveEntry_idem hle] at hnow
  rw [lookup_purge, lookup_purge, hnow]

theorem SameAt.by (h : SameAt keep m m') (now : Int) :
    SameBy keep now m m' := by
  intro k hk
  rw [lookup_purge, lookup_purge, h k hk]

/-- A machine that has just been purged. -/
theorem sameBy_purge (keep : Bytes → Bool) (now : Int) (m : Reference) :
    SameBy keep now (purge now m) m := by
  intro k _
  rw [lookup_purge, lookup_purge, liveEntry_idem le_rfl]

theorem SameBy.trans {m'' : Reference} (h : SameBy keep now m m')
    (h' : SameBy keep now m' m'') : SameBy keep now m m'' :=
  SameAt.trans h h'

/-- **What the others ask cannot be noticed.** -/
theorem unwinding_takes (keep : Bytes → Bool) :
    Unwinding takes Moment.now (mine keep) (apart keep) (SameBy keep) where
  own := by
    rintro now m m' ⟨later, event⟩ h hle hmine
    have hpurged : SameAt keep (purge later m) (purge later m') :=
      h.later hle
    cases event with
    | request parts =>
        have hanswer : SameAnswer keep
            (act later (purge later m) (plan .exact parts))
            (act later (purge later m') (plan .exact parts)) :=
          act_local hpurged hmine
        exact ⟨congrArg some hanswer.1, hanswer.2.by later⟩
    | sweep limit =>
        cases hmine
    | fsync =>
        cases hmine
  silent := by
    rintro now m m' ⟨later, event⟩ h hle hmine hapart
    have hkept := h.later hle
    have hpurged := (sameBy_purge keep later m).trans hkept
    cases event with
    | request parts =>
        have hothers : (plan .exact parts).within (fun k => !keep k) = true := by
          have hsplit : ((plan .exact parts).within keep ||
              (plan .exact parts).within fun k => !keep k) = true := hapart
          rw [show (plan .exact parts).within keep = false from hmine] at hsplit
          exact hsplit
        have hframe : SameAt keep
            (act later (purge later m) (plan .exact parts)).2
            (purge later m) := act_frame hothers
        exact (hframe.by later).trans hpurged
    | sweep limit =>
        exact hpurged
    | fsync =>
        exact hpurged

end Events

end Reference

namespace Server

open Commands KeyValueStore

variable {J : Type} [Journal J]

/-- **Groups of clients with keys of their own do not interfere.**  Without a
memory limit, and with no request that concerns the whole keyspace, the
requests whose keys are kept get the replies that they get when nothing else
is ever asked and no sweep runs. -/
theorem disjoint_keys_do_not_interfere {P : J → Prop} (hP : Accepting P)
    {j : J} (hj : P j) (clock : Clock) (policy : MaxmemoryPolicy)
    (keep : Bytes → Bool) (script : List Moment) (horder : InOrder script)
    (hserved : ∀ moment ∈ script, Served moment.event)
    (hapart : ∀ moment ∈ script, Reference.apart keep moment = true) :
    seen (Reference.mine keep) script
        (Server.replies .exact (init clock 0 policy, j) script) =
      Server.replies .exact (init clock 0 policy, j)
        (script.filter (Reference.mine keep)) := by
  cases script with
  | nil =>
      rfl
  | cons moment script =>
      have hstart : Matches policy moment.now (init clock 0 policy) .empty :=
        ⟨⟨exact_init clock 0 policy, rfl, rfl, rfl⟩, rfl⟩
      have hfrom : ∀ later ∈ moment :: script, moment.now ≤ later.now := by
        intro later hmem
        rcases List.mem_cons.mp hmem with rfl | hmem
        · exact le_rfl
        · exact (List.pairwise_cons.mp horder).1 later hmem
      have hsub := List.filter_sublist (p := Reference.mine keep)
        (l := moment :: script)
      rw [Matches.replies hP _ hj hstart hfrom horder hserved,
        Matches.replies hP _ hj hstart
          (fun later hmem => hfrom later (hsub.subset hmem))
          (horder.sublist hsub)
          (fun later hmem => hserved later (hsub.subset hmem)),
        Reference.replies_eq_answersTo, Reference.replies_eq_answersTo]
      have hseen := (Reference.unwinding_takes keep).seen_eq
        (moment :: script)
        ((Reference.SameAt.refl keep .empty).by moment.now) hfrom horder
        hapart
      rw [← hseen]
      simp only [seen, List.zip_map_right, List.filter_map, List.map_map]
      rfl

/-- One client counts under a key that expires, another one works with a key
of its own. -/
def twoClients : List Moment :=
  [⟨0, .request [ascii "SET", ascii "a", ascii "7", ascii "PX", ascii "10"]⟩,
    ⟨0, .request [ascii "SET", ascii "b", ascii "x"]⟩,
    ⟨5, .request [ascii "INCR", ascii "a"]⟩,
    ⟨5, .sweep 100⟩,
    ⟨10, .request [ascii "DEL", ascii "b"]⟩,
    ⟨10, .request [ascii "INCR", ascii "a"]⟩]

/-- The key of the first client. -/
def firstClient (key : Bytes) : Bool :=
  key == ascii "a"

theorem first_client_alone :
    seen (Reference.mine firstClient) twoClients
        (Server.replies .exact (init (.frozen 0) 0 .noeviction,
          NullJournal.mk) twoClients) =
      Server.replies .exact (init (.frozen 0) 0 .noeviction, NullJournal.mk)
        (twoClients.filter (Reference.mine firstClient)) :=
  disjoint_keys_do_not_interfere accepting_nullJournal trivial (.frozen 0)
    .noeviction firstClient twoClients (by decide +kernel)
    (by decide +kernel) (by decide +kernel)

end Server

end PyRedis
