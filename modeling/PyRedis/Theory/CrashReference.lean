import PyRedis.Theory.BoundedReference

/-!
# What a keyspace that survives is for

The bounded reference machine of a server whose process may be killed at any
moment and is then started again.  What was answered before stays.  Of the
request that was being carried out nothing is left, or all of it, or only that
some keys are gone that had to make room.
-/

namespace PyRedis

open Foundation

namespace Server

section Stories

/-- The process is killed, perhaps in the middle of a request, of whose
records so many bytes have reached the file.  Later it is started again. -/
structure Outage where
  now : Int
  inFlight : Option (List Bytes)
  left : Nat
  wake : Int

/-- What a server goes through. -/
inductive Incident where
  | moment (m : Moment)
  | outage (o : Outage)

/-- Time does not run backwards, from one process to the next one either. -/
def OnwardFrom (now : Int) : List Incident → Prop
  | [] => True
  | .moment m :: story => now ≤ m.now ∧ OnwardFrom m.now story
  | .outage o :: story =>
      now ≤ o.now ∧ o.now ≤ o.wake ∧ OnwardFrom o.wake story

instance decidableOnwardFrom (now : Int) (story : List Incident) :
    Decidable (OnwardFrom now story) :=
  match story with
  | [] => isTrue trivial
  | .moment m :: story =>
      have := decidableOnwardFrom m.now story
      inferInstanceAs (Decidable (_ ∧ _))
  | .outage o :: story =>
      have := decidableOnwardFrom o.wake story
      inferInstanceAs (Decidable (_ ∧ _ ∧ _))

/-- Requests are as clients send them. -/
def Sendable : Incident → Prop
  | .moment ⟨_, .request parts⟩ => parts ≠ []
  | .outage ⟨_, some parts, _, _⟩ => parts ≠ []
  | _ => True

instance (incident : Incident) : Decidable (Sendable incident) :=
  match incident with
  | .moment ⟨_, .request parts⟩ => inferInstanceAs (Decidable (parts ≠ []))
  | .moment ⟨_, .sweep _⟩ => isTrue trivial
  | .moment ⟨_, .fsync⟩ => isTrue trivial
  | .outage ⟨_, some parts, _, _⟩ => inferInstanceAs (Decidable (parts ≠ []))
  | .outage ⟨_, none, _, _⟩ => isTrue trivial

end Stories

end Server

namespace Reference

open Commands

section Machine

variable (limit : Int) (policy : MaxmemoryPolicy)

/-- What may be left of a request that nobody will answer. -/
inductive CutShort (now : Int) (m : Reference) (p : Plan) : Reference → Prop
  | nothing : CutShort now m p m
  | done {reply : Bytes} {m' : Reference}
      (h : Allows limit policy now m p (reply, m')) : CutShort now m p m'
  | evicted {key value : Bytes} {victims : List Bytes} {m' : Reference}
      (hlimit : limit ≠ 0) (h : writes now m p = some (key, value))
      (hroom : MakesRoom limit key (cost key value) m victims m')
      (hpolicy : policy = .noeviction → victims = []) (n : Nat) :
      CutShort now m p ((victims.take n).foldl OrderedDict.erase m)

/-- The replies along a story are some that the machine may give, and a new
process goes on with what the last one has left. -/
inductive Survives :
    Reference → List Server.Incident → List (Except Exc (Option Bytes)) → Prop
  | done (m : Reference) : Survives m [] []
  | request {m m' : Reference} {now : Int} {parts : List Bytes}
      {reply : Bytes} {story : List Server.Incident}
      {replies : List (Except Exc (Option Bytes))}
      (h : Allows limit policy now (purge now m) (plan .exact parts)
        (reply, m'))
      (next : Survives m' story replies) :
      Survives m (.moment ⟨now, .request parts⟩ :: story)
        (.ok (some reply) :: replies)
  | quiet {m : Reference} {now : Int} {event : Server.Event}
      {story : List Server.Incident}
      {replies : List (Except Exc (Option Bytes))}
      (h : ∀ parts, event ≠ .request parts)
      (next : Survives (purge now m) story replies) :
      Survives m (.moment ⟨now, event⟩ :: story) (.ok none :: replies)
  | idle {m : Reference} {now wake : Int} {left : Nat}
      {story : List Server.Incident}
      {replies : List (Except Exc (Option Bytes))}
      (next : Survives m story replies) :
      Survives m (.outage ⟨now, none, left, wake⟩ :: story) replies
  | killed {m m' : Reference} {now wake : Int} {parts : List Bytes}
      {left : Nat} {story : List Server.Incident}
      {replies : List (Except Exc (Option Bytes))}
      (h : CutShort limit policy now (purge now m) (plan .exact parts) m')
      (next : Survives m' story replies) :
      Survives m (.outage ⟨now, some parts, left, wake⟩ :: story) replies

end Machine

end Reference

end PyRedis
