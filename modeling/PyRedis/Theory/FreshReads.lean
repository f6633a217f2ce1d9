import PyRedis.Theory.BoundedServer

/-!
# A cache forgets, but it never makes up a value

What a client can tell of a key from the requests and the replies alone is the
value that was last written to it, unless the key has been deleted since.  A
server that evicts and expires keys may have lost that value.  It never has
another one: a GET is answered with the value the client can tell, or with
none, and a counter goes on from that value or starts again.
-/

namespace PyRedis

open Foundation

namespace Reference

open Commands

section Knowledge

/-- The text of the number in an integer reply. -/
def counted : Bytes → Option Bytes
  | 0x3A :: rest => some (rest.take (rest.length - 2))
  | _ => none

/-- What a request and its reply tell of the value of every key. -/
def told (known : Bytes → Option Bytes) (p : Plan) (reply : Bytes) :
    Bytes → Option Bytes := fun k =>
  match p with
  | .set key value _ =>
      if k = key ∧ reply = Resp.ok then some value else known k
  | .incr key => if k = key then (counted reply).or (known k) else known k
  | .delete keys => if keys.contains k then none else known k
  | .expire key ms => if k = key ∧ ms ≤ 0 then none else known k
  | .flushdb => none
  | _ => known k

/-- What the requests and replies so far tell. -/
def knowledge (known : Bytes → Option Bytes) :
    List Server.Moment → List (Except Exc (Option Bytes)) →
      Bytes → Option Bytes
  | ⟨_, .request parts⟩ :: script, .ok (some reply) :: replies =>
      knowledge (told known (plan .exact parts) reply) script replies
  | _ :: script, _ :: replies => knowledge known script replies
  | _, _ => known

/-- The reply says nothing about a value that is not known. -/
def Fresh (known : Bytes → Option Bytes) : Plan → Bytes → Prop
  | .get key, reply =>
      reply = Resp.nullBulkString ∨
        ∃ value, known key = some value ∧
          reply = Resp.encodeBulkString value
  | .incr key, reply =>
      ∀ n, reply = Resp.encodeInteger n →
        n = 1 ∨ ∃ raw, known key = some raw ∧ number raw = some (n - 1)
  | _, _ => True

/-- Everything that is held is known. -/
def Known (m : Reference) (known : Bytes → Option Bytes) : Prop :=
  ∀ k e, m.lookup k = some e → known k = some e.value

end Knowledge

section Steps

variable {m m' : Reference} {known : Bytes → Option Bytes}
variable {limit now c : Int} {key : Bytes} {victims : List Bytes}
variable {policy : MaxmemoryPolicy} {p : Plan} {reply : Bytes}

theorem counted_encodeInteger (n : Int) :
    counted (Resp.encodeInteger n) = some (str n) := by
  have htext : Resp.encodeInteger n = 0x3A :: (str n ++ crlf) := rfl
  rw [htext]
  simp [counted, crlf]

theorem encodeInteger_injective : Function.Injective Resp.encodeInteger := by
  intro n n' h
  have hcounted := congrArg counted h
  rw [counted_encodeInteger, counted_encodeInteger] at hcounted
  exact str_injective (Option.some.inj hcounted)

/-- An error reply is no integer reply. -/
theorem counted_encodeError (message : String) :
    counted (Resp.encodeError message) = none :=
  rfl

theorem encodeError_ne_integer (message : String) (n : Int) :
    Resp.encodeError message ≠ Resp.encodeInteger n := by
  intro h
  have hcounted := congrArg counted h
  rw [counted_encodeInteger, counted_encodeError] at hcounted
  cases hcounted

theorem encodeError_ne_ok (message : String) :
    Resp.encodeError message ≠ Resp.ok := by
  intro h
  have hminus : (Resp.encodeError message).head? = some 0x2D := rfl
  rw [h] at hminus
  cases hminus

theorem Known.purge (h : Known m known) (now : Int) :
    Known (purge now m) known := by
  intro k e he
  rw [lookup_purge] at he
  exact h k e (liveEntry_eq_some_iff.mp he).1

theorem Known.erase (h : Known m known) (key : Bytes) :
    Known (m.erase key) known := by
  intro k e he
  rw [OrderedDict.lookup_erase] at he
  split_ifs at he
  exact h k e he

/-- What has made room is not held any more. -/
theorem MakesRoom.still_known (hroom : MakesRoom limit key c m victims m')
    (h : Known m known) : Known m' known := by
  induction hroom with
  | fits _ =>
      exact h
  | evict _ _ _ _ ih =>
      exact ih (h.erase _)

/-- A key gets a value that its client is told. -/
theorem Known.set (h : Known m known) {known' : Bytes → Option Bytes}
    {key value : Bytes} (d : Option Int) (hkey : known' key = some value)
    (hothers : ∀ k, k ≠ key → known' k = known k) :
    Known (OrderedDict.set m key ⟨value, d⟩) known' := by
  intro k e he
  rw [OrderedDict.lookup_set] at he
  split_ifs at he with hk
  · cases he
    rw [hk]
    exact hkey
  · rw [hothers k hk]
    exact h k e he

theorem known_act_set (h : Known m known) (now : Int) (key value : Bytes)
    (ttlMs : Option Int) :
    Known (act now m (.set key value ttlMs)).2
      (told known (.set key value ttlMs)
        (act now m (.set key value ttlMs)).1) := by
  have hstored : ∀ d, Known (OrderedDict.set m key ⟨value, d⟩)
      (told known (.set key value ttlMs) Resp.ok) := by
    intro d
    refine h.set d ?_ fun k hk => ?_
    · simp [told]
    · simp [told, hk]
  have hrefused : ∀ message, told known (.set key value ttlMs)
      (Resp.encodeError message) = known := by
    intro message
    funext k
    simp only [told]
    rw [if_neg fun hand => encodeError_ne_ok message hand.2]
  cases ttlMs with
  | none =>
      exact hstored none
  | some ms =>
      simp only [act, Reference.set]
      cases deadline now ms with
      | none =>
          simp only [invalidExpireReply, hrefused]
          exact h
      | some d =>
          exact hstored (some d)

theorem known_act_incr (h : Known m known) (now : Int) (key : Bytes) :
    Known (act now m (.incr key)).2
      (told known (.incr key) (act now m (.incr key)).1) := by
  have hstored : ∀ n d, Known (OrderedDict.set m key ⟨str n, d⟩)
      (told known (.incr key) (Resp.encodeInteger n)) := by
    intro n d
    refine h.set d ?_ fun k hk => ?_
    · simp [told, counted_encodeInteger]
    · simp [told, hk]
  have hrefused : ∀ message,
      told known (.incr key) (Resp.encodeError message) = known := by
    intro message
    funext k
    simp [told, counted_encodeError]
  simp only [act, incr]
  cases m.lookup key with
  | none =>
      exact hstored 1 none
  | some e =>
      simp only
      cases number e.value with
      | none =>
          simp only [storeErrorReply, hrefused]
          exact h
      | some n =>
          simp only
          split_ifs
          · simp only [storeErrorReply, hrefused]
            exact h
          · exact hstored (n + 1) e.deadline

theorem known_act_expire (h : Known m known) (now : Int) (key : Bytes)
    (ms : Int) :
    Known (act now m (.expire key ms)).2
      (told known (.expire key ms) (act now m (.expire key ms)).1) := by
  by_cases hpos : ms ≤ 0
  · -- the key is gone, whether it was there or not
    have hgone : Known (m.erase key)
        (fun k => if k = key ∧ ms ≤ 0 then none else known k) := by
      intro k e he
      rw [OrderedDict.lookup_erase] at he
      split_ifs at he with hk
      simp only [hk, false_and, if_false]
      exact h k e he
    simp only [act, expire, if_pos hpos]
    cases hm : m.lookup key with
    | none =>
        have hself : m.erase key = m :=
          OrderedDict.erase_eq_self (OrderedDict.lookup_eq_none_iff.mp hm)
        rw [hself] at hgone
        exact hgone
    | some e =>
        exact hgone
  · have hknown : ∀ reply, told known (.expire key ms) reply = known := by
      intro reply
      funext k
      simp [told, hpos]
    rw [hknown]
    simp only [act, expire, if_neg hpos]
    cases hm : m.lookup key with
    | none =>
        exact h
    | some e =>
        cases deadline now ms with
        | none =>
            exact h
        | some d =>
            exact h.set (some d) (h key e hm) fun _ _ => rfl

theorem known_act_delete (h : Known m known) (now : Int)
    (keys : List Bytes) :
    Known (act now m (.delete keys)).2
      (told known (.delete keys) (act now m (.delete keys)).1) := by
  intro k e he
  simp only [act, delete, lookup_foldl_erase] at he
  simp only [Fact.apply, Fact.actOn] at he
  split_ifs at he with hk
  have hout : ¬ keys.contains k = true := by
    simpa using hk
  simp only [told, if_neg hout]
  exact h k e he

theorem known_act_persist (h : Known m known) (now : Int) (key : Bytes) :
    Known (act now m (.persist key)).2
      (told known (.persist key) (act now m (.persist key)).1) := by
  simp only [act, persist]
  rcases hm : m.lookup key with _ | ⟨value, _ | d⟩
  · exact h
  · exact h
  · exact h.set none (h key ⟨value, some d⟩ hm) fun _ _ => rfl

/-- A request is carried out, and its reply tells of what it has done. -/
theorem known_act (h : Known m known) (now : Int) (p : Plan) :
    Known (act now m p).2 (told known p (act now m p).1) := by
  cases p with
  | set key value ttlMs =>
      exact known_act_set h now key value ttlMs
  | incr key =>
      exact known_act_incr h now key
  | expire key ms =>
      exact known_act_expire h now key ms
  | delete keys =>
      exact known_act_delete h now keys
  | persist key =>
      exact known_act_persist h now key
  | flushdb =>
      intro k e he
      cases he
  | get key =>
      simp only [act, get]
      cases m.lookup key <;> exact h
  | ttl key =>
      simp only [act, ttl]
      rcases m.lookup key with _ | ⟨_, _ | _⟩ <;> exact h
  | _ =>
      exact h

/-- A request that would write an entry is one of two. -/
theorem told_of_refused {key value : Bytes}
    (h : writes now m p = some (key, value)) :
    told known p (storeErrorReply .outOfMemory) = known := by
  funext k
  cases p with
  | set key' value' ttlMs =>
      exact if_neg fun hand => encodeError_ne_ok _ hand.2
  | incr key' =>
      simp [told, storeErrorReply, counted_encodeError]
  | _ =>
      cases h

/-- **One request of the bounded machine.** -/
theorem Allows.still_known (ha : Allows limit policy now m p (reply, m'))
    (h : Known m known) : Known m' (told known p reply) := by
  generalize hout : (reply, m') = out at ha
  cases ha with
  | asIs _ =>
      have hact := known_act h now p
      rw [← hout] at hact
      exact hact
  | room _ hroom _ =>
      have hact := known_act (hroom.still_known h) now p
      rw [← hout] at hact
      exact hact
  | refused hwrites _ _ =>
      cases hout
      rw [told_of_refused hwrites]
      exact h

/-- A reply on the map as it is. -/
theorem fresh_act (h : Known m known) (now : Int) (p : Plan) :
    Fresh known p (act now m p).1 := by
  cases p with
  | get key =>
      simp only [act, get]
      cases hm : m.lookup key with
      | none =>
          exact Or.inl rfl
      | some e =>
          exact Or.inr ⟨e.value, h key e hm, rfl⟩
  | incr key =>
      intro n hn
      simp only [act, incr] at hn
      cases hm : m.lookup key with
      | none =>
          rw [hm] at hn
          exact Or.inl (encodeInteger_injective hn).symm
      | some e =>
          rw [hm] at hn
          simp only at hn
          cases hnumber : number e.value with
          | none =>
              rw [hnumber] at hn
              exact absurd hn (encodeError_ne_integer _ n)
          | some n' =>
              rw [hnumber] at hn
              simp only at hn
              split_ifs at hn
              · exact absurd hn (encodeError_ne_integer _ n)
              · have hnext := encodeInteger_injective hn
                refine Or.inr ⟨e.value, h key e hm, ?_⟩
                rw [hnumber, ← hnext, add_sub_cancel_right]
  | _ =>
      trivial

theorem Allows.fresh (ha : Allows limit policy now m p (reply, m'))
    (h : Known m known) : Fresh known p reply := by
  generalize hout : (reply, m') = out at ha
  cases ha with
  | asIs _ =>
      have hfresh := fresh_act h now p
      rw [← hout] at hfresh
      exact hfresh
  | room _ hroom _ =>
      have hfresh := fresh_act (hroom.still_known h) now p
      rw [← hout] at hfresh
      exact hfresh
  | refused hwrites _ _ =>
      cases hout
      cases p with
      | get key =>
          cases hwrites
      | incr key =>
          exact fun n hn => absurd hn (encodeError_ne_integer _ n)
      | _ =>
          trivial

/-- The run up to an event, and what is held and known by then. -/
theorem Explains.split {before rest : List Server.Moment}
    {replies : List (Except Exc (Option Bytes))}
    (h : Explains limit policy m (before ++ rest) replies)
    (hm : Known m known) :
    ∃ m' later, Explains limit policy m' rest later ∧
      replies.drop before.length = later ∧
      Known m' (knowledge known before replies) := by
  induction before generalizing m known replies with
  | nil =>
      refine ⟨m, replies, h, rfl, ?_⟩
      cases replies <;> exact hm
  | cons moment before ih =>
      rw [List.cons_append] at h
      cases h with
      | request hallows next =>
          exact ih next (hallows.still_known (hm.purge _))
      | sweep next =>
          exact ih next (hm.purge _)

/-- **Along every run of the bounded machine, replies are fresh.** -/
theorem Explains.fresh {before after : List Server.Moment}
    {parts : List Bytes} {replies : List (Except Exc (Option Bytes))}
    (h : Explains limit policy m
      (before ++ ⟨now, .request parts⟩ :: after) replies)
    (hm : Known m known) :
    ∃ reply, replies[before.length]? = some (.ok (some reply)) ∧
      Fresh (knowledge known before replies) (plan .exact parts) reply := by
  obtain ⟨m', later, hrest, hlater, hknown⟩ := h.split hm
  cases hrest with
  | @request _ _ _ _ reply _ _ hallows next =>
      refine ⟨reply, ?_, hallows.fresh (hknown.purge _)⟩
      have hfirst := congrArg List.head? hlater
      rwa [List.head?_drop] at hfirst

end Steps

end Reference

namespace Server

open Commands KeyValueStore

variable {J : Type} [Journal J] {j : J}

section Runs

/-- **A cache never answers with a stale value.** With a journal that takes
every record, whatever the limit and the policy, and however many keys have been
evicted or have expired, a GET is answered with the value that the requests and
replies before it tell, or with none; and an INCR that succeeds goes on from
that value, or starts again. -/
theorem replies_are_fresh {P : J → Prop} (hP : Accepting P) (hj : P j)
    (clock : Clock) (maxmemory : Int) (policy : MaxmemoryPolicy)
    (before after : List Moment) (now : Int) (parts : List Bytes)
    (horder : InOrder (before ++ ⟨now, .request parts⟩ :: after))
    (hserved : ∀ moment ∈ before ++ ⟨now, .request parts⟩ :: after,
      Served moment.event)
    {replies : List (Except Exc (Option Bytes))}
    (hreplies : Server.replies .exact (init clock maxmemory policy, j)
      (before ++ ⟨now, .request parts⟩ :: after) = replies) :
    ∃ reply, replies[before.length]? = some (.ok (some reply)) ∧
      Reference.Fresh (Reference.knowledge (fun _ => none) before replies)
        (plan .exact parts) reply := by
  have hexplained := evictions_explained hP hj clock maxmemory policy _
    horder hserved
  rw [hreplies] at hexplained
  exact hexplained.fresh fun k e he => absurd he (by simp)

/-- A counter that another key takes the place of. -/
def lostCounter : List Moment :=
  [⟨0, .request [ascii "INCR", ascii "a"]⟩,
    ⟨1, .request [ascii "INCR", ascii "a"]⟩,
    ⟨2, .request [ascii "SET", ascii "b", ascii "x"]⟩]

/-- It has counted to 2, and starts again from 1. -/
theorem lost_counter_starts_again :
    Reference.Fresh
      (Reference.knowledge (fun _ => none) lostCounter
        [.ok (some (Resp.encodeInteger 1)), .ok (some (Resp.encodeInteger 2)),
          .ok (some Resp.ok), .ok (some (Resp.encodeInteger 1))])
      (plan .exact [ascii "INCR", ascii "a"]) (Resp.encodeInteger 1) := by
  have hreplies : Server.replies .exact
      (init (.frozen 0) 66 .allkeysLru, NullJournal.mk)
      (lostCounter ++ [⟨3, .request [ascii "INCR", ascii "a"]⟩]) =
        [.ok (some (Resp.encodeInteger 1)), .ok (some (Resp.encodeInteger 2)),
          .ok (some Resp.ok), .ok (some (Resp.encodeInteger 1))] := by
    decide +kernel
  obtain ⟨reply, hreply, hfresh⟩ :=
    replies_are_fresh accepting_nullJournal trivial (.frozen 0) 66 .allkeysLru
      lostCounter [] 3 [ascii "INCR", ascii "a"] (by decide +kernel)
      (by decide +kernel) hreplies
  cases hreply
  exact hfresh

end Runs

end Server

end PyRedis
