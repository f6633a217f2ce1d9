import PyRedis.Theory.ReferenceMachine

/-!
# What a bounded keyspace is for

The reference machine with a limit on what its entries cost.  A request that
would write an entry is carried out once there is room for this entry: other
keys go one after the other, each while what would be held is over the limit.
Which keys go is left open.  A write can also be turned away, as a whole.
-/

namespace PyRedis

open Foundation

namespace Reference

open Commands

section Machine

/-- What the entries of all keys but one cost. -/
def otherCost (m : Reference) (key : Bytes) : Int :=
  (m.erase key).weight fun k e => cost k e.value

/-- Room is made for an entry of a key: other keys go as long as what would be
held is over the limit, and no longer. -/
inductive MakesRoom (limit : Int) (key : Bytes) (c : Int) :
    Reference → List Bytes → Reference → Prop
  | fits {m : Reference} (h : m.otherCost key + c ≤ limit) :
      MakesRoom limit key c m [] m
  | evict {m m' : Reference} {victim : Bytes} {victims : List Bytes}
      (hover : limit < m.otherCost key + c) (hmem : victim ∈ m)
      (hne : victim ≠ key)
      (next : MakesRoom limit key c (m.erase victim) victims m') :
      MakesRoom limit key c m (victim :: victims) m'

/-- The entry that a request would write. -/
def writes (now : Int) (m : Reference) : Plan → Option (Bytes × Bytes)
  | .set key value none => some (key, value)
  | .set key value (some ms) =>
      (deadline now ms).map fun _ => (key, value)
  | .incr key =>
      match m.lookup key with
      | none => some (key, str 1)
      | some e =>
          match number e.value with
          | none => none
          | some n =>
              if int64Max < n + 1 then none else some (key, str (n + 1))
  | _ => none

/-- A request that can write an entry. -/
def CanWrite : Plan → Prop
  | .set _ _ _ => True
  | .incr _ => True
  | _ => False

/-- What a request may come to under a limit; 0 means that there is none. -/
inductive Allows (limit : Int) (policy : MaxmemoryPolicy) (now : Int)
    (m : Reference) (p : Plan) : Bytes × Reference → Prop
  | asIs (h : limit = 0 ∨ writes now m p = none) :
      Allows limit policy now m p (act now m p)
  | room {key value : Bytes} {victims : List Bytes} {m' : Reference}
      (h : writes now m p = some (key, value))
      (hroom : MakesRoom limit key (cost key value) m victims m')
      (hpolicy : policy = .noeviction → victims = []) :
      Allows limit policy now m p (act now m' p)
  | refused {key value : Bytes} (h : writes now m p = some (key, value))
      (hlimit : limit ≠ 0)
      (hwhy : policy = .noeviction ∨ limit < cost key value) :
      Allows limit policy now m p (storeErrorReply .outOfMemory, m)

/-- The replies to a script are some that the machine may give. -/
inductive Explains (limit : Int) (policy : MaxmemoryPolicy) :
    Reference → List Server.Moment → List (Except Exc (Option Bytes)) → Prop
  | done (m : Reference) : Explains limit policy m [] []
  | request {m m' : Reference} {now : Int} {parts : List Bytes}
      {reply : Bytes} {script : List Server.Moment}
      {replies : List (Except Exc (Option Bytes))}
      (h : Allows limit policy now (purge now m) (plan .exact parts)
        (reply, m'))
      (next : Explains limit policy m' script replies) :
      Explains limit policy m (⟨now, .request parts⟩ :: script)
        (.ok (some reply) :: replies)
  | sweep {m : Reference} {now : Int} {most : Nat}
      {script : List Server.Moment}
      {replies : List (Except Exc (Option Bytes))}
      (next : Explains limit policy (purge now m) script replies) :
      Explains limit policy m (⟨now, .sweep most⟩ :: script)
        (.ok none :: replies)

end Machine

section Laws

variable {m m' : Reference} {limit c now : Int} {key : Bytes}
variable {victims : List Bytes} {p : Plan}

theorem writes_eq_none (hp : ¬ CanWrite p) : writes now m p = none := by
  cases p with
  | set _ _ _ =>
      exact absurd trivial hp
  | incr _ =>
      exact absurd trivial hp
  | _ =>
      rfl

/-- Only the values matter to what the entries cost. -/
theorem otherCost_eq_weight (m : Reference) (key : Bytes) :
    m.otherCost key =
      ((m.mapValues Timed.value).erase key).weight cost := by
  rw [OrderedDict.mapValues_erase, OrderedDict.weight_mapValues]
  rfl

/-- Room is made at the cost of the other keys. -/
theorem MakesRoom.lookup_self (h : MakesRoom limit key c m victims m') :
    m'.lookup key = m.lookup key := by
  induction h with
  | fits _ =>
      rfl
  | evict _ _ hne _ ih =>
      rw [ih, OrderedDict.lookup_erase, if_neg hne.symm]

end Laws

end Reference

end PyRedis
