import PyRedis.Theory.FreshReads
import PyRedis.Theory.Isolation
import PyRedis.Theory.Restarts

/-!
# What was answered stays true

A reply may tell what has become of a key: a SET has stored a value until its
deadline, a DEL has removed it, a GET has not found it.  As long as no request
changes the key, this stays so, through everything else that is asked and
through any number of crashes and restarts.  What a memory limit adds is that
the key may be gone.
-/

namespace PyRedis

open Foundation

namespace Commands

/-- A request that does not change a key, whatever it is answered. -/
def Plan.spares (key : Bytes) : Plan → Bool
  | .answer _ => true
  | .raise _ => true
  | .get _ => true
  | .ttl _ => true
  | .exists _ => true
  | .dbsize => true
  | .set other _ _ => other != key
  | .expire other _ => other != key
  | .persist other => other != key
  | .incr other => other != key
  | .delete keys => !keys.contains key
  | .flushdb => false

end Commands

namespace Server

open Commands

/-- No request of an incident, answered or not, changes the key. -/
def Incident.spares (key : Bytes) : Incident → Bool
  | .moment ⟨_, .request parts⟩ => (plan .exact parts).spares key
  | .outage ⟨_, some parts, _, _⟩ => (plan .exact parts).spares key
  | _ => true

/-- How many replies there are along a story. -/
def moments (story : List Incident) : Nat :=
  story.countP fun
    | .moment _ => true
    | .outage _ => false

/-- The time at which an incident is over. -/
def Incident.over : Incident → Int
  | .moment m => m.now
  | .outage o => o.wake

end Server

namespace Reference

open Commands Server

section Machine

/-- What the reply to a request tells of a key. -/
def tells (now : Int) (reply : Bytes) (key : Bytes) :
    Plan → Option (Option (Timed Bytes Int))
  | .set other value ttlMs =>
      if other = key ∧ reply = Resp.ok then
        some (some ⟨value, ttlMs.bind (deadline now)⟩)
      else none
  | .get other =>
      if other = key ∧ reply = Resp.nullBulkString then some none else none
  | .expire other ms =>
      if other = key ∧ ms ≤ 0 then some none else none
  | .delete keys => if keys.contains key then some none else none
  | .flushdb => some none
  | _ => none

/-- The machine on which nothing but the entry of one key has ever been. -/
def alone (now : Int) (key : Bytes) (entry : Option (Timed Bytes Int)) :
    Reference :=
  match liveEntry now entry with
  | none => .empty
  | some e => OrderedDict.set .empty key e

variable (limit : Int) (policy : MaxmemoryPolicy)

/-- What an incident may make of the machine. -/
def Becomes (m : Reference) : Incident → Reference → Prop
  | .moment ⟨now, .request parts⟩, m' =>
      ∃ reply, Allows limit policy now (purge now m) (plan .exact parts)
        (reply, m')
  | .moment ⟨now, _⟩, m' => m' = purge now m
  | .outage ⟨_, none, _, _⟩, m' => m' = m
  | .outage ⟨now, some parts, _, _⟩, m' =>
      CutShort limit policy now (purge now m) (plan .exact parts) m'

/-- By now, the entry of the key is the given one; under a limit it may be
gone. -/
def Lasts (now : Int) (key : Bytes) (entry : Option (Timed Bytes Int))
    (m : Reference) : Prop :=
  liveEntry now (m.lookup key) = liveEntry now entry ∨
    (limit ≠ 0 ∧ m.lookup key = none)

end Machine

variable {limit now c : Int} {policy : MaxmemoryPolicy}
variable {m m' : Reference} {p : Plan} {key reply : Bytes}
variable {victims : List Bytes} {entry : Option (Timed Bytes Int)}

section Stories

variable {before rest : List Incident} {incident : Incident}
variable {replies : List (Except Exc (Option Bytes))}

/-- The first incident of a story, and the rest of it. -/
theorem Survives.uncons
    (h : Survives limit policy m (incident :: rest) replies) :
    ∃ m' told heard, replies = told ++ heard ∧
      told.length = moments [incident] ∧
      Becomes limit policy m incident m' ∧
      Survives limit policy m' rest heard := by
  cases h with
  | request h next =>
      exact ⟨_, [_], _, rfl, rfl, ⟨_, h⟩, next⟩
  | @quiet _ _ event _ _ h next =>
      refine ⟨_, [_], _, rfl, rfl, ?_, next⟩
      cases event with
      | request parts =>
          exact absurd rfl (h parts)
      | sweep _ =>
          exact rfl
      | fsync =>
          exact rfl
  | idle next =>
      exact ⟨_, [], _, rfl, rfl, rfl, next⟩
  | killed h next =>
      exact ⟨_, [], _, rfl, rfl, h, next⟩

theorem OnwardFrom.uncons (h : OnwardFrom now (incident :: rest)) :
    OnwardFrom now [incident] ∧ OnwardFrom incident.over rest := by
  cases incident with
  | moment m =>
      exact ⟨⟨h.1, trivial⟩, h.2⟩
  | outage o =>
      exact ⟨⟨h.1, h.2.1, trivial⟩, h.2.2⟩

/-- **What every incident keeps holds along a story.** -/
theorem Survives.along (P : Int → Reference → Prop)
    (good : Incident → Prop)
    (hP : ∀ {now m incident m'}, P now m → OnwardFrom now [incident] →
      good incident → Becomes limit policy m incident m' →
      P incident.over m')
    (hgood : ∀ incident ∈ before, good incident) (hm : P now m)
    (honward : OnwardFrom now (before ++ rest))
    (h : Survives limit policy m (before ++ rest) replies) :
    ∃ now' m' told heard, replies = told ++ heard ∧
      told.length = moments before ∧ P now' m' ∧ OnwardFrom now' rest ∧
      Survives limit policy m' rest heard := by
  induction before generalizing now m replies with
  | nil =>
      exact ⟨now, m, [], replies, rfl, rfl, hm, honward, h⟩
  | cons incident before ih =>
      obtain ⟨hfirst, hrest⟩ := List.forall_mem_cons.mp hgood
      obtain ⟨hone, honward⟩ := OnwardFrom.uncons honward
      obtain ⟨m', said, replies, rfl, hsaid, hbecomes, h⟩ := h.uncons
      obtain ⟨now', m'', told, heard, rfl, htold, hlast, honward, h⟩ :=
        ih hrest (hP hm hone hfirst hbecomes) honward h
      refine ⟨now', m'', said ++ told, heard, ?_, ?_, hlast, honward, h⟩
      · rw [List.append_assoc]
      · have hcount : moments ([incident] ++ before) =
            moments [incident] + moments before :=
          List.countP_append
        rw [List.length_append, hsaid, htold, ← hcount]
        rfl

end Stories

section Keys

/-- **A request that spares a key leaves it as it is.** -/
theorem act_spares (hp : p.spares key = true) :
    (act now m p).2.lookup key = m.lookup key := by
  have hframe : p.within (fun k => !(k == key)) = true →
      (act now m p).2.lookup key = m.lookup key := by
    intro hwithin
    have hsame : SameAt (· == key) (act now m p).2 m := act_frame hwithin
    exact hsame key (by simp)
  cases p with
  | get other =>
      simp only [act, get]
      cases m.lookup other <;> rfl
  | ttl other =>
      simp only [act, ttl]
      rcases m.lookup other with _ | ⟨value, _ | d⟩ <;> rfl
  | set other value ttlMs =>
      refine hframe ?_
      simpa [Plan.within, Plan.keys, Plan.spares] using hp
  | expire other ms =>
      refine hframe ?_
      simpa [Plan.within, Plan.keys, Plan.spares] using hp
  | persist other =>
      refine hframe ?_
      simpa [Plan.within, Plan.keys, Plan.spares] using hp
  | incr other =>
      refine hframe ?_
      simpa [Plan.within, Plan.keys, Plan.spares] using hp
  | delete keys =>
      refine hframe ?_
      have hkeys : key ∉ keys := by
        simpa [Plan.spares] using hp
      simp only [Plan.within, Plan.keys, List.all_eq_true,
        Bool.not_eq_true', beq_eq_false_iff_ne]
      rintro k hk rfl
      exact hkeys hk
  | flushdb =>
      cases hp
  | _ =>
      rfl

theorem lookup_eraseAll (keys : List Bytes) (m : Reference) (k : Bytes) :
    (keys.foldl OrderedDict.erase m).lookup k = m.lookup k ∨
      (keys.foldl OrderedDict.erase m).lookup k = none := by
  rw [lookup_foldl_erase]
  simp only [Fact.apply, Fact.actOn]
  split_ifs
  · exact Or.inr rfl
  · exact Or.inl rfl

/-- Making room takes keys away. -/
theorem MakesRoom.lookup_or_none (h : MakesRoom limit key c m victims m')
    (k : Bytes) : m'.lookup k = m.lookup k ∨ m'.lookup k = none := by
  induction h with
  | fits _ =>
      exact Or.inl rfl
  | @evict m _ victim _ _ _ _ _ ih =>
      rcases ih with hsame | hnone
      · rw [hsame, OrderedDict.lookup_erase]
        split_ifs
        · exact Or.inr rfl
        · exact Or.inl rfl
      · exact Or.inr hnone

/-- There is room for an entry under a positive limit only. -/
theorem MakesRoom.limit_ne_zero {value : Bytes}
    (h : MakesRoom limit key (cost key value) m victims m') :
    limit ≠ 0 := by
  generalize hc : cost key value = c at h
  induction h with
  | @fits m h =>
      have hothers : 0 ≤ m.otherCost key := by
        rw [otherCost_eq_weight]
        exact OrderedDict.weight_nonneg KeyValueStore.cost_nonneg _
      have hpos : 0 < c := by
        rw [← hc, cost, entryOverheadBytes]
        omega
      omega
  | evict _ _ _ _ ih =>
      exact ih

end Keys

section Lasting

theorem Lasts.later (h : Lasts limit now key entry m) {later : Int}
    (hle : now ≤ later) : Lasts limit later key entry m := by
  rcases h with hsame | hgone
  · refine Or.inl ?_
    have hlater := congrArg (liveEntry later) hsame
    rwa [liveEntry_idem hle, liveEntry_idem hle] at hlater
  · exact Or.inr hgone

theorem Lasts.purge (h : Lasts limit now key entry m) {later : Int}
    (hle : now ≤ later) : Lasts limit later key entry (purge later m) := by
  rcases h.later hle with hsame | ⟨hlimit, hgone⟩
  · refine Or.inl ?_
    rw [lookup_purge, liveEntry_idem le_rfl, hsame]
  · refine Or.inr ⟨hlimit, ?_⟩
    rw [lookup_purge, hgone, liveEntry_none]

theorem Lasts.of_lookup (h : Lasts limit now key entry m)
    (hlookup : m'.lookup key = m.lookup key) :
    Lasts limit now key entry m' := by
  rw [Lasts, hlookup]
  exact h

/-- Under a limit a key may go. -/
theorem Lasts.of_loss (h : Lasts limit now key entry m) (hlimit : limit ≠ 0)
    (hlookup : m'.lookup key = m.lookup key ∨ m'.lookup key = none) :
    Lasts limit now key entry m' := by
  rcases hlookup with hsame | hgone
  · exact h.of_lookup hsame
  · exact Or.inr ⟨hlimit, hgone⟩

/-- A request that is answered. -/
theorem Lasts.allows (h : Lasts limit now key entry m)
    (hp : p.spares key = true)
    (hallows : Allows limit policy now m p (reply, m')) :
    Lasts limit now key entry m' := by
  generalize hout : (reply, m') = out at hallows
  cases hallows with
  | asIs _ =>
      obtain rfl : m' = (act now m p).2 := congrArg Prod.snd hout
      exact h.of_lookup (act_spares hp)
  | @room _ _ _ made _ hroom _ =>
      obtain rfl : m' = (act now made p).2 := congrArg Prod.snd hout
      have hmade : Lasts limit now key entry made :=
        h.of_loss hroom.limit_ne_zero (hroom.lookup_or_none key)
      exact hmade.of_lookup (act_spares hp)
  | refused _ _ _ =>
      cases hout
      exact h

/-- A request that is cut short. -/
theorem Lasts.cutShort (h : Lasts limit now key entry m)
    (hp : p.spares key = true)
    (hcut : CutShort limit policy now m p m') :
    Lasts limit now key entry m' := by
  cases hcut with
  | nothing =>
      exact h
  | done hallows =>
      exact h.allows hp hallows
  | evicted hlimit _ _ _ n =>
      exact h.of_loss hlimit (lookup_eraseAll _ m key)

/-- **One incident.** -/
theorem Lasts.becomes {incident : Incident}
    (h : Lasts limit now key entry m)
    (honward : OnwardFrom now [incident])
    (hspares : incident.spares key = true)
    (hbecomes : Becomes limit policy m incident m') :
    Lasts limit incident.over key entry m' := by
  rcases incident with ⟨later, event⟩ | ⟨later, inFlight, left, wake⟩
  · obtain ⟨hle, -⟩ := honward
    cases event with
    | request parts =>
        obtain ⟨reply, hallows⟩ := hbecomes
        have hkey : (plan .exact parts).spares key = true := hspares
        exact (h.purge hle).allows hkey hallows
    | sweep _ =>
        cases hbecomes
        exact h.purge hle
    | fsync =>
        cases hbecomes
        exact h.purge hle
  · obtain ⟨hle, hwake, -⟩ := honward
    cases inFlight with
    | none =>
        cases hbecomes
        exact h.later (le_trans hle hwake)
    | some parts =>
        have hkey : (plan .exact parts).spares key = true := hspares
        exact ((h.purge hle).cutShort hkey hbecomes).later hwake

end Lasting

section Telling

theorem encodeBulkString_ne_null (value : Bytes) :
    Resp.encodeBulkString value ≠ Resp.nullBulkString := by
  intro h
  have hlength := congrArg List.length h
  have hcrlf : crlf.length = 2 := rfl
  have hnull : Resp.nullBulkString.length = 5 := rfl
  have hpos : 0 < (str value.length).length :=
    Decimal.natText_length_pos _
  simp only [Resp.encodeBulkString, List.length_append, hnull,
    hcrlf] at hlength
  have hdollar : (ascii "$").length = 1 := rfl
  omega

/-- A reply on the map as it is tells the truth. -/
theorem act_tells (htells : tells now (act now m p).1 key p = some entry) :
    (act now m p).2.lookup key = entry := by
  cases p with
  | set other value ttlMs =>
      simp only [tells] at htells
      split_ifs at htells with htold
      obtain ⟨rfl, hok⟩ := htold
      cases htells
      simp only [act, set] at hok ⊢
      cases ttlMs with
      | none =>
          exact OrderedDict.lookup_set_self m _ _
      | some ms =>
          simp only [Option.bind_some] at hok ⊢
          cases hd : deadline now ms with
          | none =>
              rw [hd] at hok
              exact absurd hok (encodeError_ne_ok _)
          | some d =>
              exact OrderedDict.lookup_set_self m _ _
  | get other =>
      simp only [tells] at htells
      split_ifs at htells with htold
      obtain ⟨rfl, hnull⟩ := htold
      cases htells
      simp only [act, get] at hnull ⊢
      cases hm : m.lookup other with
      | none =>
          exact hm
      | some e =>
          rw [hm] at hnull
          exact absurd hnull (encodeBulkString_ne_null e.value)
  | expire other ms =>
      simp only [tells] at htells
      split_ifs at htells with htold
      obtain ⟨rfl, hpast⟩ := htold
      cases htells
      simp only [act, expire, if_pos hpast]
      cases hm : m.lookup other with
      | none =>
          exact hm
      | some e =>
          simp only [OrderedDict.lookup_erase, if_pos]
  | delete keys =>
      simp only [tells] at htells
      split_ifs at htells with hmem
      cases htells
      have hin : key ∈ keys := by
        simpa using hmem
      simp only [act, delete, lookup_foldl_erase, Fact.apply, Fact.actOn,
        if_pos hin]
  | flushdb =>
      cases htells
      rfl
  | _ =>
      cases htells

/-- **A reply tells the truth.** -/
theorem Allows.lasts (h : Allows limit policy now m p (reply, m'))
    (htells : tells now reply key p = some entry) :
    Lasts limit now key entry m' := by
  generalize hout : (reply, m') = out at h
  cases h with
  | asIs _ =>
      obtain ⟨rfl, rfl⟩ := Prod.mk.inj hout
      exact Or.inl (congrArg (liveEntry now) (act_tells htells))
  | @room _ _ _ made _ _ _ =>
      obtain ⟨rfl, rfl⟩ := Prod.mk.inj hout
      exact Or.inl (congrArg (liveEntry now) (act_tells htells))
  | refused hwrites _ _ =>
      obtain ⟨rfl, rfl⟩ := Prod.mk.inj hout
      cases p with
      | set other value ttlMs =>
          simp only [tells] at htells
          split_ifs at htells with htold
          exact absurd htold.2 (encodeError_ne_ok _)
      | incr other =>
          cases htells
      | _ =>
          cases hwrites

theorem lookup_alone (now : Int) (key : Bytes)
    (entry : Option (Timed Bytes Int)) :
    (alone now key entry).lookup key = liveEntry now entry := by
  simp only [alone]
  cases liveEntry now entry with
  | none =>
      exact OrderedDict.lookup_empty key
  | some e =>
      exact OrderedDict.lookup_set_self _ key e

/-- What is asked of one key alone is answered as if there was no other. -/
theorem Lasts.answered (h : Lasts limit now key entry m) {later : Int}
    (hle : now ≤ later) (hp : p.within (· == key) = true)
    (hreads : ¬ CanWrite p)
    (hallows : Allows limit policy later (Reference.purge later m) p
      (reply, m')) :
    reply = (act later (alone later key entry) p).1 ∨
      (limit ≠ 0 ∧ reply = (act later .empty p).1) := by
  have hreply : reply = (act later (Reference.purge later m) p).1 := by
    generalize hout : (reply, m') = out at hallows
    cases hallows with
    | asIs _ =>
        exact congrArg Prod.fst hout
    | room hwrites _ _ =>
        rw [writes_eq_none hreads] at hwrites
        cases hwrites
    | refused hwrites _ _ =>
        rw [writes_eq_none hreads] at hwrites
        cases hwrites
  have hsame : ∀ m'' : Reference,
      (Reference.purge later m).lookup key = m''.lookup key →
      reply = (act later m'' p).1 := by
    intro m'' hlookup
    have hlocal : SameAt (· == key) (Reference.purge later m) m'' := by
      intro k hk
      obtain rfl : k = key := by
        simpa using hk
      exact hlookup
    rw [hreply]
    exact (act_local hlocal hp).1
  rcases h.later hle with hkept | ⟨hlimit, hgone⟩
  · refine Or.inl (hsame _ ?_)
    rw [lookup_purge, hkept, lookup_alone]
  · refine Or.inr ⟨hlimit, hsame _ ?_⟩
    rw [lookup_purge, hgone, liveEntry_none, OrderedDict.lookup_empty]

end Telling

end Reference

namespace Server

open Commands

variable {outcomes : Nat → IoOutcome}

/-- **What was answered stays true.**  As long as no call of the operating
system fails: what the reply to a request tells of a key is so for everything
that is asked of this key later, when nothing in between changes the key,
whatever else is asked in between, however often the process is killed, also
in the middle of a request, and however long it takes.  Under a limit the key
may be gone, and otherwise it is as long there as its deadline says. -/
theorem replies_stay_true (hcalls : ∀ i, (outcomes i).fails = false)
    (fsync : FsyncPolicy) (maxmemory : Int) (policy : MaxmemoryPolicy)
    (start now later : Int) (before between after : List Incident)
    (parts asked : List Bytes) (reply key : Bytes)
    (entry : Option (Timed Bytes Int))
    (replies : List (Except Exc (Option Bytes)))
    (honward : OnwardFrom start
      (before ++ .moment ⟨now, .request parts⟩ ::
        (between ++ .moment ⟨later, .request asked⟩ :: after)))
    (hsendable : ∀ incident ∈ before ++ .moment ⟨now, .request parts⟩ ::
        (between ++ .moment ⟨later, .request asked⟩ :: after),
      Sendable incident)
    (hrun : outlive .exact fsync outcomes maxmemory policy
      (freshStart (.frozen start) maxmemory policy fsync outcomes)
      (before ++ .moment ⟨now, .request parts⟩ ::
        (between ++ .moment ⟨later, .request asked⟩ :: after)) = .ok replies)
    (hreply : replies[moments before]? = some (.ok (some reply)))
    (htells : Reference.tells now reply key (plan .exact parts) = some entry)
    (hspares : ∀ incident ∈ between, incident.spares key = true)
    (hasked : (plan .exact asked).within (· == key) = true)
    (hreads : ¬ Reference.CanWrite (plan .exact asked)) :
    ∃ answer, replies[moments before + 1 + moments between]? =
        some (.ok (some answer)) ∧
      (answer = (Reference.act later (Reference.alone later key entry)
          (plan .exact asked)).1 ∨
        (maxmemory ≠ 0 ∧
          answer = (Reference.act later .empty (plan .exact asked)).1)) := by
  obtain ⟨replies', hrun', hsurvives⟩ := restarts_explained hcalls fsync
    maxmemory policy start _ honward hsendable
  rw [hrun] at hrun'
  cases hrun'
  -- up to the request whose reply is believed
  obtain ⟨now₁, m₁, told, heard, rfl, htold, -, honward, hsurvives⟩ :=
    hsurvives.along (fun _ _ => True) (fun _ => True)
      (fun _ _ _ _ => trivial) (fun _ _ => trivial) trivial honward
  obtain ⟨hle₁, honward⟩ := honward
  rw [← htold, List.getElem?_append_right le_rfl, Nat.sub_self] at hreply
  cases hsurvives with
  | quiet hquiet _ =>
      exact absurd rfl (hquiet parts)
  | @request _ m₂ _ _ reply' _ heard hallows hnext =>
      obtain rfl : reply' = reply := by
        simpa using hreply
      -- up to the request that is asked of the key
      obtain ⟨now₂, m₃, meanwhile, last, rfl, hmeanwhile, hlasts, honward,
          hnext⟩ :=
        hnext.along (fun now m =>
            Reference.Lasts maxmemory now key entry m)
          (fun incident => incident.spares key = true)
          (fun h ho hs hb => h.becomes ho hs hb) hspares
          (hallows.lasts htells) honward
      obtain ⟨hle₂, -⟩ := honward
      cases hnext with
      | quiet hquiet _ =>
          exact absurd rfl (hquiet asked)
      | @request _ _ _ _ answer _ _ hanswer _ =>
          refine ⟨answer, ?_, hlasts.answered hle₂ hasked hreads hanswer⟩
          rw [← htold, ← hmeanwhile, Nat.add_assoc,
            List.getElem?_append_right (Nat.le_add_right _ _),
            Nat.add_sub_cancel_left, Nat.add_comm 1,
            List.getElem?_cons_succ,
            List.getElem?_append_right le_rfl, Nat.sub_self]
          rfl

/-- While a session is kept, the process is killed in the middle of a write of
another key, and once more. -/
def meanwhileKilled : List Incident :=
  [.outage ⟨2, some [ascii "SET", ascii "other", ascii "x"], 30, 3⟩,
    .moment ⟨4, .request [ascii "DBSIZE"]⟩,
    .outage ⟨5, none, 0, 59000⟩]

def sessionReplies : List (Except Exc (Option Bytes)) :=
  [.ok (some Resp.ok), .ok (some (Resp.encodeInteger 1)),
    .ok (some (Resp.encodeInteger 0))]

/-- The last millisecond of a session that was stored for a minute. -/
theorem session_kept :
    ∃ answer, sessionReplies[2]? = some (.ok (some answer)) ∧
      answer = Resp.encodeInteger 0 := by
  have hcalls : ∀ i : Nat, ((fun _ => ⟨0, false⟩ : Nat → IoOutcome) i).fails =
      false := fun _ => rfl
  obtain ⟨answer, hanswer, htrue⟩ := replies_stay_true hcalls .everysec 0
    .noeviction 0 1 60000 [] meanwhileKilled []
    [ascii "SET", ascii "session", ascii "alice", ascii "EX", ascii "60"]
    [ascii "TTL", ascii "session"] Resp.ok (ascii "session")
    (some ⟨ascii "alice", some 60001⟩) sessionReplies (by decide +kernel)
    (by decide +kernel) (by decide +kernel) rfl (by decide +kernel)
    (by decide +kernel) (by decide +kernel) id
  refine ⟨answer, hanswer, ?_⟩
  rcases htrue with htrue | ⟨hlimit, -⟩
  · rw [htrue]
    decide +kernel
  · exact absurd rfl hlimit

end Server

end PyRedis
