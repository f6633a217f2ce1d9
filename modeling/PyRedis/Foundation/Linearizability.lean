import PyRedis.Foundation.EventLoop

/-!
# Operations that take effect at one moment

Parties ask for operations on a shared state and wait for their answers.  The
history of a run says when an operation was asked for, when it was performed,
and when its answer was received.  It is linearizable when the operations are
performed one after another, and every party at every moment has had the
operations performed that it asked for, in its order, and has the answers to
operations that were performed.

An operation that was answered before another one was asked for is therefore
performed before it, whoever asked.
-/

namespace Foundation

open EventLoop

/-- What happens in a history. -/
inductive Happening (κ Ω Ρ Α : Type) where
  | asked (k : κ) (operation : Ω)
  | performed (call : Call κ Ω Ρ)
  | answered (k : κ) (answer : Α)

abbrev History (κ Ω Ρ Α : Type) :=
  List (Happening κ Ω Ρ Α)

namespace History

variable {κ Ω Ρ Α σ : Type}

section Parts

/-- The operations performed, with their replies. -/
def effects (h : History κ Ω Ρ Α) : List (Call κ Ω Ρ) :=
  h.filterMap fun
    | .performed call => some call
    | _ => none

theorem effects_append (h later : History κ Ω Ρ Α) :
    effects (h ++ later) = effects h ++ effects later :=
  List.filterMap_append

/-- A history of calls alone. -/
theorem effects_performed (calls : List (Call κ Ω Ρ)) :
    effects (calls.map .performed : History κ Ω Ρ Α) = calls := by
  simp only [effects, List.filterMap_map]
  exact List.filterMap_some

variable [DecidableEq κ]

/-- The operations that a party asked for. -/
def asked (k : κ) (h : History κ Ω Ρ Α) : List Ω :=
  h.filterMap fun
    | .asked j operation => if j = k then some operation else none
    | _ => none

/-- The answers that a party got. -/
def answered (k : κ) (h : History κ Ω Ρ Α) : List Α :=
  h.filterMap fun
    | .answered j answer => if j = k then some answer else none
    | _ => none

/-- The operations performed for a party, with their replies. -/
def performed (k : κ) (h : History κ Ω Ρ Α) : List (Ω × Ρ) :=
  called k (effects h)

variable (k : κ) (h later : History κ Ω Ρ Α)

theorem asked_append : asked k (h ++ later) = asked k h ++ asked k later :=
  List.filterMap_append

theorem answered_append :
    answered k (h ++ later) = answered k h ++ answered k later :=
  List.filterMap_append

theorem performed_append :
    performed k (h ++ later) = performed k h ++ performed k later := by
  simp only [performed, effects_append, called_append]

variable (calls : List (Call κ Ω Ρ))

theorem asked_performed :
    asked k (calls.map .performed : History κ Ω Ρ Α) = [] := by
  simp only [asked, List.filterMap_map]
  exact List.filterMap_eq_nil_iff.mpr fun _ _ => rfl

theorem answered_performed :
    answered k (calls.map .performed : History κ Ω Ρ Α) = [] := by
  simp only [answered, List.filterMap_map]
  exact List.filterMap_eq_nil_iff.mpr fun _ _ => rfl

theorem performed_performed :
    performed k (calls.map .performed : History κ Ω Ρ Α) =
      called k calls := by
  rw [performed, effects_performed]

end Parts

section Linearizable

variable [DecidableEq κ]

/-- What a party may expect at a moment: what was performed for it is what it
asked for first, its answers are read from the first replies, and it never
asks before it has its answer. -/
structure Proper (read : Ρ → Option Α) (k : κ) (h : History κ Ω Ρ Α) :
    Prop where
  inOrder : (performed k h).map Prod.fst <+: asked k h
  faithful : (answered k h).map some <+:
    (performed k h).map fun call => read call.2
  alternating : (asked k h).length ≤ (answered k h).length + 1

/-- Operations act one after another, and every party gets what it may expect
at every moment. -/
structure Linearizable (perform : Ω → σ → Ρ × σ) (read : Ρ → Option Α)
    (s : σ) (h : History κ Ω Ρ Α) (t : σ) : Prop where
  serial : Serial perform s (effects h) t
  proper : ∀ past, past <+: h → ∀ k, Proper read k past

variable {perform : Ω → σ → Ρ × σ} {read : Ρ → Option Α} {s t u : σ}
variable {h : History κ Ω Ρ Α}

theorem proper_nil (read : Ρ → Option Α) (k : κ) :
    Proper read k ([] : History κ Ω Ρ Α) where
  inOrder := List.prefix_rfl
  faithful := List.prefix_rfl
  alternating := Nat.zero_le _

theorem linearizable_nil (perform : Ω → σ → Ρ × σ) (read : Ρ → Option Α)
    (s : σ) : Linearizable perform read s ([] : History κ Ω Ρ Α) s where
  serial := Serial.nil s
  proper := by
    intro past hpast k
    rw [List.prefix_nil.mp hpast]
    exact proper_nil read k

/-- Where a history ends, at most one more thing happens. -/
theorem Linearizable.extend (hlin : Linearizable perform read s h t)
    {more : History κ Ω Ρ Α} (hone : more.length ≤ 1)
    (hserial : Serial perform t (effects more) u)
    (hproper : ∀ k, Proper read k (h ++ more)) :
    Linearizable perform read s (h ++ more) u where
  serial := by
    rw [effects_append]
    exact hlin.serial.append hserial
  proper := by
    intro past hpast k
    cases more with
    | nil =>
        rw [List.append_nil] at hpast
        exact hlin.proper past hpast k
    | cons happening more =>
        obtain rfl : more = [] := List.eq_nil_of_length_eq_zero
          (Nat.le_zero.mp (Nat.le_of_succ_le_succ hone))
        rcases List.prefix_concat_iff.mp hpast with rfl | hpast
        · exact hproper k
        · exact hlin.proper past hpast k

/-- **Real time.**  At every moment the operations that were answered by
then have taken effect, and of those that were not asked for yet none has. -/
theorem Linearizable.real_time (hlin : Linearizable perform read s h t)
    {past : History κ Ω Ρ Α} (hpast : past <+: h) :
    ∃ before after, effects h = before ++ after ∧ ∀ k,
      (answered k past).length ≤ (called k before).length ∧
        (called k before).length ≤ (asked k past).length := by
  obtain ⟨rest, rfl⟩ := hpast
  refine ⟨effects past, effects rest, effects_append _ _, fun k => ?_⟩
  obtain ⟨hinOrder, hfaithful, -⟩ := hlin.proper past ⟨rest, rfl⟩ k
  have hanswered := hfaithful.length_le
  have hperformed := hinOrder.length_le
  rw [List.length_map, List.length_map] at hanswered
  rw [List.length_map] at hperformed
  exact ⟨hanswered, hperformed⟩

end Linearizable

end History

end Foundation
