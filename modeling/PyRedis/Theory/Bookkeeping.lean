import PyRedis.Theory.StoreOperations

/-!
# Exact bookkeeping over whole runs

A run of the store is any list of its public operations, from whatever caller,
in any order, with any arguments.  An operation that raises leaves the state
as far as it had changed it, and the run goes on from there.

Each operation keeps `Exact` whether it returns or raises, and what it raises
is a store error or the `ValueError` of `int`.  In particular `KeyError`, the
sign of a removal that missed its key, is never raised.
-/

namespace PyRedis
namespace KeyValueStore

open Foundation

variable {s : KeyValueStore}

/-- The public operations, the recovery primitives included. -/
inductive Operation where
  | set (key value : Bytes) (ttlMs : Option Int)
  | get (key : Bytes)
  | delete (keys : List Bytes)
  | «exists» (keys : List Bytes)
  | incr (key : Bytes)
  | expire (key : Bytes) (ttlMs : Int)
  | ttl (key : Bytes)
  | persist (key : Bytes)
  | deadlineMs (key : Bytes)
  | dbsize
  | dropExpired
  | flushdb
  | sweepExpired (limit : Nat)
  | takeEvicted
  | restore (key value : Bytes) (deadline : Option Int)
  | setDeadline (key : Bytes) (deadline : Int)
  | clearDeadline (key : Bytes)
  | discard (keys : List Bytes)

/-- An operation run for what it does to the store. -/
def forEffect {α : Type} (x : StoreM α) : StoreM Unit := do
  let _ ← x
  pure ()

def Operation.effect (py : Interpreter) : Operation → StoreM Unit
  | .set key value ttlMs => KeyValueStore.set key value ttlMs
  | .get key => forEffect (KeyValueStore.get key)
  | .delete keys => forEffect (KeyValueStore.delete keys)
  | .exists keys => forEffect (KeyValueStore.exists keys)
  | .incr key => forEffect (KeyValueStore.incr py key)
  | .expire key ttlMs => forEffect (KeyValueStore.expire key ttlMs)
  | .ttl key => forEffect (KeyValueStore.ttl key)
  | .persist key => forEffect (KeyValueStore.persist key)
  | .deadlineMs key => forEffect (KeyValueStore.deadlineMs key)
  | .dbsize => forEffect KeyValueStore.dbsize
  | .dropExpired => forEffect KeyValueStore.dropExpired
  | .flushdb => KeyValueStore.flushdb
  | .sweepExpired limit => forEffect (KeyValueStore.sweepExpired limit)
  | .takeEvicted => forEffect KeyValueStore.takeEvicted
  | .restore key value deadline => KeyValueStore.restore key value deadline
  | .setDeadline key deadline => KeyValueStore.setDeadline key deadline
  | .clearDeadline key => KeyValueStore.clearDeadline key
  | .discard keys => KeyValueStore.discard keys

/-- The state after a list of operations, raising or not. -/
def afterOperations (py : Interpreter) (s : KeyValueStore)
    (ops : List Operation) : KeyValueStore :=
  ops.foldl (fun s op => ((op.effect py).run s).2) s

/-- What the operations of the store may raise. -/
def Reported (e : Exc) : Prop :=
  e = .value ∨ ∃ x, e = .store x

/-- The computation keeps `Exact`, and raises only what it may. -/
def KeepsExact {α : Type} (x : StoreM α) (s : KeyValueStore) : Prop :=
  Fallible.Triple x s (fun _ => Exact) (fun e t => Reported e ∧ Exact t)

section Steps

theorem keepsExact_of_ok {α : Type} {x : StoreM α} {a : α}
    {t : KeyValueStore} (hrun : x.run s = (.ok a, t)) (ht : Exact t) :
    KeepsExact x s :=
  Fallible.Triple.of_ok hrun ht

theorem KeepsExact.forEffect {α : Type} {x : StoreM α}
    (h : KeepsExact x s) : KeepsExact (forEffect x) s :=
  Fallible.Triple.bind h fun _ _ ht => Fallible.Triple.pure ht

theorem keepsExact_set (h : Exact s) (key value : Bytes)
    (ttl : Option Int) : KeepsExact (set key value ttl) s := by
  obtain ⟨r, t, hsets, hrun⟩ := set_run h key value ttl
  have ht := hsets.exact h
  cases hsets with
  | untimely _ =>
      exact Fallible.Triple.of_error hrun ⟨Or.inr ⟨_, rfl⟩, ht⟩
  | refused _ _ =>
      exact Fallible.Triple.of_error hrun ⟨Or.inr ⟨_, rfl⟩, ht⟩
  | stored _ _ _ =>
      exact Fallible.Triple.of_ok hrun ht

theorem keepsExact_incr (h : Exact s) (py : Interpreter) (key : Bytes) :
    KeepsExact (incr py key) s := by
  obtain ⟨r, t, hincrs, hrun⟩ := incr_run h py key
  have ht := hincrs.exact h
  cases hincrs with
  | @malformed e hn =>
      have he : Reported e := by
        rcases counter_error hn with he | he
        · exact Or.inl he
        · exact Or.inr ⟨_, he⟩
      exact Fallible.Triple.of_error hrun ⟨he, ht⟩
  | overflow _ _ =>
      exact Fallible.Triple.of_error hrun ⟨Or.inr ⟨_, rfl⟩, ht⟩
  | refused _ _ _ =>
      exact Fallible.Triple.of_error hrun ⟨Or.inr ⟨_, rfl⟩, ht⟩
  | stored _ _ _ _ =>
      exact Fallible.Triple.of_ok hrun ht

theorem keepsExact_expire (h : Exact s) (key : Bytes) (ttl : Int) :
    KeepsExact (expire key ttl) s := by
  have hrun := expire_run h key ttl
  have hs := h.settled key
  split_ifs at hrun with hk hpos hover
  · exact keepsExact_of_ok hrun (hs.drop key)
  · exact Fallible.Triple.of_error hrun
      ⟨Or.inr ⟨_, rfl⟩, hs.afterReading⟩
  · exact keepsExact_of_ok hrun (hs.afterReading.setExpires hk _)
  · exact keepsExact_of_ok hrun hs

theorem keepsExact_persist (h : Exact s) (key : Bytes) :
    KeepsExact (persist key) s := by
  have hrun := persist_run h key
  have hs := h.settled key
  split_ifs at hrun with hk
  · exact keepsExact_of_ok hrun (hs.popExpires key)
  · exact keepsExact_of_ok hrun hs

theorem keepsExact_sweepExpired (h : Exact s) (limit : Nat) :
    KeepsExact (sweepExpired limit) s := by
  obtain ⟨keys, cursor, -, -, hrun⟩ := sweepExpired_run h limit
  exact keepsExact_of_ok hrun ((h.afterReading.dropAll keys).moveSweep cursor)

theorem keepsExact_setDeadline (h : Exact s) (key : Bytes) (d : Int) :
    KeepsExact (setDeadline key d) s := by
  refine keepsExact_of_ok (setDeadline_run s key d) ?_
  split_ifs with hk
  · exact h.setExpires hk d
  · exact h

/-- One operation, of any kind and with any arguments. -/
theorem Operation.keepsExact (h : Exact s) (py : Interpreter)
    (op : Operation) : KeepsExact (op.effect py) s := by
  cases op with
  | set key value ttl =>
      exact keepsExact_set h key value ttl
  | get key =>
      exact (keepsExact_of_ok (get_run h key) (h.gotten key)).forEffect
  | delete keys =>
      exact (keepsExact_of_ok (delete_run h keys) (h.deleted keys)).forEffect
  | «exists» keys =>
      exact (keepsExact_of_ok (exists_run h keys) (h.looked keys)).forEffect
  | incr key =>
      exact (keepsExact_incr h py key).forEffect
  | expire key ttl =>
      exact (keepsExact_expire h key ttl).forEffect
  | ttl key =>
      exact (keepsExact_of_ok (ttl_run h key) (h.inspected key)).forEffect
  | persist key =>
      exact (keepsExact_persist h key).forEffect
  | deadlineMs key =>
      exact (keepsExact_of_ok (deadlineMs_run s key) h).forEffect
  | dbsize =>
      exact (keepsExact_of_ok (dbsize_run h) h.reclaimed).forEffect
  | dropExpired =>
      exact (keepsExact_of_ok (dropExpired_run h) h.reclaimed).forEffect
  | flushdb =>
      exact keepsExact_of_ok (flushdb_run s) (Exact.cleared s)
  | sweepExpired limit =>
      exact (keepsExact_sweepExpired h limit).forEffect
  | takeEvicted =>
      exact (keepsExact_of_ok (takeEvicted_run s) (h.relabel _ _)).forEffect
  | restore key value d =>
      exact keepsExact_of_ok (restore_run s key value d)
        (h.restored key value d)
  | setDeadline key d =>
      exact keepsExact_setDeadline h key d
  | clearDeadline key =>
      exact keepsExact_of_ok (clearDeadline_run s key) (h.popExpires key)
  | discard keys =>
      exact keepsExact_of_ok (discard_run s keys) (h.dropAll keys)

end Steps

section Runs

theorem Operation.exact_after (h : Exact s) (py : Interpreter)
    (op : Operation) : Exact ((op.effect py).run s).2 := by
  have hop := op.keepsExact h py
  rcases hrun : (op.effect py).run s with ⟨e | a, t⟩
  · exact (hop.error hrun).2
  · exact hop.ok hrun

theorem exact_afterOperations (h : Exact s) (py : Interpreter)
    (ops : List Operation) : Exact (afterOperations py s ops) := by
  induction ops generalizing s with
  | nil =>
      exact h
  | cons op ops ih =>
      exact ih (op.exact_after h py)

/-- **The bookkeeping is exact in every reachable state**, and no operation
run from there removes a key that is absent. -/
theorem bookkeeping_exact (py : Interpreter) (clock : Clock)
    (maxmemory : Int) (policy : MaxmemoryPolicy) (ops : List Operation) :
    Exact (afterOperations py (init clock maxmemory policy) ops) ∧
      ∀ op e,
        ((Operation.effect py op).run
          (afterOperations py (init clock maxmemory policy) ops)).1 =
            .error e →
        e ≠ .key ∧ Reported e := by
  have hexact := exact_afterOperations
    (exact_init clock maxmemory policy) py ops
  refine ⟨hexact, ?_⟩
  intro op e he
  have hop := op.keepsExact hexact py
  rcases hrun : (op.effect py).run
    (afterOperations py (init clock maxmemory policy) ops) with ⟨e' | a, t⟩
  · rw [hrun] at he
    cases he
    have hreported := (hop.error hrun).1
    refine ⟨?_, hreported⟩
    rintro rfl
    rcases hreported with hvalue | ⟨x, hstore⟩
    · cases hvalue
    · cases hstore
  · rw [hrun] at he
    cases he

end Runs

end KeyValueStore
end PyRedis
