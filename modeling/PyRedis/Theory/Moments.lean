import PyRedis.Theory.EvictionRuns
import PyRedis.Theory.Garbage

/-!
# Events at given times

A script says what happens and when: each event sees one clock value for as
long as it takes.  What a request does to the store and what becomes of its
facts in the journal are then two separate steps.
-/

namespace PyRedis
namespace Server

open Foundation Commands KeyValueStore

variable {J : Type} [Journal J]

section Scripts

/-- An event and the time at which it happens. -/
structure Moment where
  now : Int
  event : Event

/-- The state an event meets. -/
def atMoment (state : KeyValueStore × J) (m : Moment) : KeyValueStore × J :=
  (state.1.atClock (.frozen m.now), state.2)

/-- One event of a script. -/
def turn (py : Interpreter) (state : KeyValueStore × J) (m : Moment) :
    Except Exc (Option Bytes) × (KeyValueStore × J) :=
  (handle py m.event).run (atMoment state m)

/-- The state after a script. -/
def afterScript (py : Interpreter) (state : KeyValueStore × J)
    (script : List Moment) : KeyValueStore × J :=
  script.foldl (fun state m => (turn py state m).2) state

theorem afterScript_cons (py : Interpreter) (state : KeyValueStore × J)
    (m : Moment) (script : List Moment) :
    afterScript py state (m :: script) =
      afterScript py (turn py state m).2 script := by
  rfl

/-- Time does not run backwards. -/
def InOrder (script : List Moment) : Prop :=
  script.Pairwise fun m m' => m.now ≤ m'.now

instance (script : List Moment) : Decidable (InOrder script) :=
  inferInstanceAs (Decidable (script.Pairwise _))

end Scripts

section Requests

variable {py : Interpreter} {s t : KeyValueStore} {j : J}

theorem turnedAway_eq (py : Interpreter) (s t : KeyValueStore) (j : J)
    (event : Event) :
    turnedAway py (s, j) event = turnedAway py (t, j) event := by
  rfl

theorem handle_sweep_run (hs : Exact s) (limit : Nat) :
    ∃ keys cursor, (∀ k ∈ keys, s.isExpiredAt s.clock.now k = true) ∧
      (handle py (.sweep limit)).run (s, j) =
        (.ok none, ((s.afterReading.dropAll keys).moveSweep cursor, j)) := by
  obtain ⟨keys, cursor, -, hkeys, hrun⟩ := sweepExpired_run hs limit
  refine ⟨keys, cursor, hkeys, ?_⟩
  simp only [handle, onStore, Fallible.run_bind, Fallible.run_onFst, hrun,
    Fallible.run_pure]

/-- The store a sweep leaves. -/
theorem evolves_swept {keys : List Bytes} (cursor : List Bytes)
    (hkeys : ∀ k ∈ keys, s.isExpiredAt s.clock.now k = true) :
    Evolves s [] ((s.afterReading.dropAll keys).moveSweep cursor) :=
  (evolves_dropAll hkeys).frame rfl (keyspace_moveSweep _ cursor)

end Requests

end Server
end PyRedis
