import PyRedis.Core.Clients
import PyRedis.Foundation.Mirrors
import PyRedis.Theory.ServerRuns

/-!
# The choice of a journal

A server asks its journal whether it has failed, and hands it records.  Two
journals that answer alike therefore make servers that no client can tell
apart, whatever they do with the records.  A log on disk, under any of the
fsync policies, is like no journal at all until a call on its file fails.
-/

namespace PyRedis
namespace Server

open Foundation Commands

section Choice

variable {J K : Type} [Journal J] [Journal K]

/-- Journals that answer alike as long as the first one is not broken. -/
structure AnswerAlike (R : J → K → Prop) (B : J → Prop) : Prop where
  failed : ∀ j k, R j k → Journal.failed j = Journal.failed k
  append : ∀ record, Fallible.Mirrors R B
    (Journal.append record : Fallible Exc J Unit)
    (Journal.append record : Fallible Exc K Unit)
  sync : Fallible.Mirrors R B (Journal.sync : Fallible Exc J Unit)
    (Journal.sync : Fallible Exc K Unit)
  broken : ∀ record, Fallible.Preserves B
    (Journal.append record : Fallible Exc J Unit)

variable {R : J → K → Prop} {B : J → Prop}

theorem AnswerAlike.recordAll (h : AnswerAlike R B) (fs : List Write) :
    Fallible.Mirrors R B (recordAll fs : Fallible Exc J Unit)
      (recordAll fs : Fallible Exc K Unit) :=
  Fallible.Mirrors.forEach (fun f => h.append (encodeFact f))
    fun f => h.broken (encodeFact f)

/-- The same store, and journals that answer alike. -/
def SameStore (R : J → K → Prop) (p : KeyValueStore × J)
    (q : KeyValueStore × K) : Prop :=
  p.1 = q.1 ∧ R p.2 q.2

/-- The same store, and a journal that is broken. -/
def SameStoreBroken (B : J → Prop) (p : KeyValueStore × J)
    (q : KeyValueStore × K) : Prop :=
  p.1 = q.1 ∧ B p.2

/-- How a request is answered once its records were handed over. -/
def concluded (reply : Bytes) : Except Exc Unit → Except Exc Bytes
  | .ok _ => .ok reply
  | .error e =>
      match errorReply e with
      | some message => .ok message
      | none => .error e

/-- A request that is not turned away: the store does not depend on what the
journal says to the records. -/
theorem dispatch_concluded {py : Interpreter} {request : List Bytes}
    {s : KeyValueStore} {j : J}
    (h : ¬ (isMutation py request && Journal.failed j) = true) :
    (dispatch py request).run (s, j) =
      match (execute py request).run s with
      | (.error e, t) => (.error e, (t, j))
      | (.ok effect, t) =>
          (concluded effect.reply ((Commands.recordAll effect.facts).run j).1,
            (t, ((Commands.recordAll effect.facts).run j).2)) := by
  rw [dispatch_run, if_neg h]
  rcases (execute py request).run s with ⟨e | effect, t⟩
  · rfl
  · simp only [concluded]
    rcases (Commands.recordAll effect.facts).run j with ⟨e | _, j'⟩
    · dsimp only
      cases errorReply e <;> rfl
    · rfl

variable {s : KeyValueStore} {j : J} {k : K}

theorem AnswerAlike.dispatch (h : AnswerAlike R B) (py : Interpreter)
    (request : List Bytes) (hjk : R j k) :
    Together (SameStore R) (SameStoreBroken B)
      ((dispatch py request).run (s, j))
      ((dispatch py request).run (s, k)) := by
  have hfailed := h.failed j k hjk
  by_cases hrefused : (isMutation py request && Journal.failed k) = true
  · rw [dispatch_run, dispatch_run, hfailed, if_pos hrefused,
      if_pos hrefused]
    exact Together.same _ ⟨rfl, hjk⟩
  · rw [dispatch_concluded (by rwa [hfailed]), dispatch_concluded hrefused]
    rcases (execute py request).run s with ⟨e | effect, t⟩
    · exact Together.same _ ⟨rfl, hjk⟩
    · have hrecords := h.recordAll effect.facts j k hjk
      simp only
      generalize (Commands.recordAll effect.facts).run j = p at hrecords
      generalize (Commands.recordAll effect.facts).run k = q at hrecords
      cases hrecords with
      | same r hrelated =>
          exact Together.same _ ⟨rfl, hrelated⟩
      | broken r r' hb =>
          exact Together.broken _ _ ⟨rfl, hb⟩

/-- What a turn of `_fsync_cycle` lets through. -/
def suppressed : Except Exc Unit → Except Exc Unit
  | .error (.persistence _) => .ok ()
  | r => r

theorem fsyncCycle_run (s : KeyValueStore) (j : J) :
    fsyncCycle.run (s, j) =
      (suppressed ((Journal.sync : Fallible Exc J Unit).run j).1,
        (s, ((Journal.sync : Fallible Exc J Unit).run j).2)) := by
  simp only [fsyncCycle, Fallible.run_catching, Fallible.run_onSnd]
  rcases (Journal.sync : Fallible Exc J Unit).run j with ⟨e | _, j'⟩
  · cases e <;> rfl
  · rfl

/-- **Every event.** -/
theorem AnswerAlike.handle (h : AnswerAlike R B) (py : Interpreter)
    (event : Event) (hjk : R j k) :
    Together (SameStore R) (SameStoreBroken B)
      ((handle py event).run (s, j)) ((handle py event).run (s, k)) := by
  cases event with
  | request parts =>
      have hdispatch : Together (SameStore R) (SameStoreBroken B)
          ((Commands.dispatch py parts).run (s, j))
          ((Commands.dispatch py parts).run (s, k)) :=
        h.dispatch py parts hjk
      simp only [Server.handle, Fallible.run_bind]
      generalize (Commands.dispatch py parts).run (s, j) = p at hdispatch
      generalize (Commands.dispatch py parts).run (s, k) = q at hdispatch
      cases hdispatch with
      | same r hrelated =>
          cases r with
          | error e =>
              exact Together.same _ hrelated
          | ok reply =>
              exact Together.same _ hrelated
      | broken r r' hb =>
          cases r with
          | error e =>
              cases r' <;> exact Together.broken _ _ hb
          | ok reply =>
              cases r' <;> exact Together.broken _ _ hb
  | sweep limit =>
      simp only [Server.handle, onStore, Fallible.run_bind,
        Fallible.run_onFst]
      rcases (KeyValueStore.sweepExpired limit).run s with ⟨e | n, t⟩
      · exact Together.same _ ⟨rfl, hjk⟩
      · exact Together.same _ ⟨rfl, hjk⟩
  | fsync =>
      have hsync := h.sync j k hjk
      simp only [Server.handle, Fallible.run_bind, fsyncCycle_run]
      generalize (Journal.sync : Fallible Exc J Unit).run j = p at hsync
      generalize (Journal.sync : Fallible Exc K Unit).run k = q at hsync
      cases hsync with
      | same r hrelated =>
          simp only
          cases suppressed r <;> exact Together.same _ ⟨rfl, hrelated⟩
      | broken r r' hb =>
          simp only
          cases suppressed r <;> cases suppressed r' <;>
            exact Together.broken _ _ ⟨rfl, hb⟩

/-- **The event loops of two such servers.** -/
theorem AnswerAlike.loop (h : AnswerAlike R B) (py : Interpreter) :
    EventLoop.Mirrors (loop J py) (loop K py) (SameStore R)
      (SameStoreBroken B) where
  perform event p q hpq := by
    obtain ⟨s, j⟩ := p
    obtain ⟨t, k⟩ := q
    obtain ⟨hst, hjk⟩ := hpq
    obtain rfl : s = t := hst
    exact h.handle py event hjk
  turn := rfl
  hear := rfl

end Choice

section Transparency

open AppendOnlyFile

variable {outcomes : Nat → IoOutcome}

/-- A log on disk answers like no journal at all, until a call fails. -/
theorem answerAlike_nullJournal (outcomes : Nat → IoOutcome) :
    AnswerAlike
      (fun (j : AppendOnlyFile) (_ : NullJournal) =>
        ∃ content, Working outcomes content j)
      fun j => j.hasFailed = true ∧ CallFails outcomes where
  failed := by
    rintro j k ⟨content, hworking⟩
    exact hworking.working
  append := by
    rintro record j k ⟨content, hworking⟩
    have hwrites : Writes outcomes content record
        ((Journal.append record : Fallible Exc AppendOnlyFile Unit).run j) :=
      append_run hworking record
    generalize Fallible.run (Journal.append record) j = result at hwrites ⊢
    cases hwrites with
    | taken htaken =>
        exact Together.same _ ⟨_, htaken⟩
    | failed n hcall hbroken =>
        exact Together.broken _ _ ⟨hbroken.failed, hcall⟩
  sync := by
    rintro j k ⟨content, hworking⟩
    have hwrites : Writes outcomes content []
        ((Journal.sync : Fallible Exc AppendOnlyFile Unit).run j) :=
      sync_run hworking
    generalize Fallible.run Journal.sync j = result at hwrites ⊢
    cases hwrites with
    | taken htaken =>
        exact Together.same _ ⟨_, htaken⟩
    | failed n hcall hbroken =>
        exact Together.broken _ _ ⟨hbroken.failed, hcall⟩
  broken := by
    refine fun record => Fallible.Preserves.of_state_after fun j hj => ?_
    have hrun : (AppendOnlyFile.append record).run j =
        (.error (.persistence "journal has failed; restart to recover"),
          j) := by
      simp [AppendOnlyFile.append, hj.1]
    have hstays : ((Journal.append record : Fallible Exc AppendOnlyFile
        Unit).run j).2 = j :=
      congrArg Prod.snd hrun
    rw [hstays]
    exact hj

/-- **Persistence is invisible.**  Under any schedule of any clients, a server
with a log on disk, whatever its fsync policy, gives every client the replies
of a server without persistence, and its store is the same all the time, up
to the first call on the file that fails; and at that call, too, the store is
still the same. -/
theorem persistence_is_invisible (py : Interpreter) (store : KeyValueStore)
    (fsync : FsyncPolicy) (log : Aof.LogFile) (outcomes : Nat → IoOutcome)
    (actions : List Action) :
    let logged := (loop AppendOnlyFile py).run
      (listening store (newJournal fsync log outcomes))
    let plain := (loop NullJournal py).run (listening store ⟨⟩)
    ((logged actions).1 = (plain actions).1 ∧
      (logged actions).2.tasks = (plain actions).2.tasks ∧
      (logged actions).2.shared.1 = (plain actions).2.shared.1) ∨
    ∃ before action later, actions = before ++ action :: later ∧
      (logged before).1 = (plain before).1 ∧
      (logged before).2.tasks = (plain before).2.tasks ∧
      (logged (before ++ [action])).2.shared.1 =
        (plain (before ++ [action])).2.shared.1 ∧
      (logged before).2.shared.2.hasFailed = false ∧
      (logged (before ++ [action])).2.shared.2.hasFailed = true ∧
      CallFails outcomes := by
  intro logged plain
  have hmirrors := (answerAlike_nullJournal outcomes).loop py
  have hstart : EventLoop.SameTasks
      (SameStore fun (j : AppendOnlyFile) (_ : NullJournal) =>
        ∃ content, Working outcomes content j)
      (listening store (newJournal fsync log outcomes))
      (listening store (⟨⟩ : NullJournal)) :=
    ⟨⟨rfl, _, working_newJournal fsync log⟩, rfl⟩
  rcases hmirrors.run hstart actions with ⟨hcalls, hsame⟩ |
    ⟨before, action, later, hsplit, hcalls, hsame, hstores, hbroken⟩
  · exact Or.inl ⟨hcalls, hsame.tasks, hsame.shared.1⟩
  · obtain ⟨-, content, hworking⟩ := hsame.shared
    exact Or.inr ⟨before, action, later, hsplit, hcalls, hsame.tasks,
      hstores, hworking.working, hbroken⟩

end Transparency

end Server
end PyRedis
