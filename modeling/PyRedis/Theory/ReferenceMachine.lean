import PyRedis.Theory.Moments

/-!
# What a keyspace with deadlines is for

A machine to compare the server with.  It holds a finite map of keys to values
with optional deadlines, and before every event it removes each entry whose
deadline has arrived.  Nothing that has expired is therefore ever there when a
command looks, and a sweep has nothing to do.
-/

namespace PyRedis

open Foundation

/-- The keys, each with its value and the deadline it may have. -/
abbrev Reference :=
  OrderedDict Bytes (Timed Bytes Int)

namespace Reference

open Commands

section Machine

/-- Every entry whose deadline has arrived goes. -/
def purge (now : Int) (m : Reference) : Reference :=
  m.retain fun e => decide (e.AliveAt now)

/-- The value of a counter; `none` for text that is no canonical 64-bit
integer. -/
def number (raw : Bytes) : Option Int :=
  (parseInt .exact raw).toOption

/-- The deadline a duration leads to: it must be positive, and the deadline a
64-bit integer. -/
def deadline (now ms : Int) : Option Int :=
  if 0 < ms ∧ now + ms ≤ int64Max then some (now + ms) else none

def set (now : Int) (key value : Bytes) (ttlMs : Option Int)
    (m : Reference) : Bytes × Reference :=
  match ttlMs with
  | none => (Resp.ok, OrderedDict.set m key ⟨value, none⟩)
  | some ms =>
      match deadline now ms with
      | none => (invalidExpireReply "set", m)
      | some d => (Resp.ok, OrderedDict.set m key ⟨value, some d⟩)

def get (key : Bytes) (m : Reference) : Bytes × Reference :=
  match m.lookup key with
  | none => (Resp.nullBulkString, m)
  | some e => (Resp.encodeBulkString e.value, m)

/-- INCR keeps the deadline, and starts from 0 on an absent key. -/
def incr (key : Bytes) (m : Reference) : Bytes × Reference :=
  match m.lookup key with
  | none => (Resp.encodeInteger 1, OrderedDict.set m key ⟨str 1, none⟩)
  | some e =>
      match number e.value with
      | none => (storeErrorReply .notAnInteger, m)
      | some n =>
          if int64Max < n + 1 then (storeErrorReply .integerOverflow, m)
          else (Resp.encodeInteger (n + 1),
            OrderedDict.set m key ⟨str (n + 1), e.deadline⟩)

def expire (now : Int) (key : Bytes) (ms : Int) (m : Reference) :
    Bytes × Reference :=
  match m.lookup key with
  | none => (Resp.encodeInteger 0, m)
  | some e =>
      if ms ≤ 0 then (Resp.encodeInteger 1, m.erase key)
      else
        match deadline now ms with
        | none => (invalidExpireReply "expire", m)
        | some d =>
            (Resp.encodeInteger 1, OrderedDict.set m key ⟨e.value, some d⟩)

/-- The remaining time in seconds, rounded to the nearest. -/
def ttl (now : Int) (key : Bytes) (m : Reference) : Bytes × Reference :=
  match m.lookup key with
  | none => (Resp.encodeInteger (-2), m)
  | some ⟨_, none⟩ => (Resp.encodeInteger (-1), m)
  | some ⟨_, some d⟩ => (Resp.encodeInteger ((d - now + 500) / 1000), m)

def persist (key : Bytes) (m : Reference) : Bytes × Reference :=
  match m.lookup key with
  | some ⟨value, some _⟩ =>
      (Resp.encodeInteger 1, OrderedDict.set m key ⟨value, none⟩)
  | _ => (Resp.encodeInteger 0, m)

/-- A key named twice counts once. -/
def delete (keys : List Bytes) (m : Reference) : Bytes × Reference :=
  (Resp.encodeInteger ((keys.toFinset.filter (· ∈ m)).card : Nat),
    keys.foldl OrderedDict.erase m)

/-- A key named twice counts twice. -/
def «exists» (keys : List Bytes) (m : Reference) : Bytes × Reference :=
  (Resp.encodeInteger ((keys.filter (· ∈ m)).length : Nat), m)

/-- A request on the map as it is; the only exception that reading a request
can raise says that an argument is no integer. -/
def act (now : Int) (m : Reference) : Plan → Bytes × Reference
  | .answer reply => (reply, m)
  | .raise _ => (storeErrorReply .notAnInteger, m)
  | .set key value ttlMs => set now key value ttlMs m
  | .get key => get key m
  | .expire key ms => expire now key ms m
  | .ttl key => ttl now key m
  | .persist key => persist key m
  | .delete keys => delete keys m
  | .exists keys => «exists» keys m
  | .incr key => incr key m
  | .dbsize => (Resp.encodeInteger m.size, m)
  | .flushdb => (Resp.ok, .empty)

/-- One event at a time. -/
def step (m : Reference) (moment : Server.Moment) :
    Option Bytes × Reference :=
  let m := purge moment.now m
  match moment.event with
  | .request parts =>
      let answer := act moment.now m (plan .exact parts)
      (some answer.1, answer.2)
  | _ => (none, m)

/-- The replies to a script. -/
def replies (m : Reference) : List Server.Moment → List (Option Bytes)
  | [] => []
  | moment :: script =>
      (step m moment).1 :: replies (step m moment).2 script

end Machine

section Laws

variable {m : Reference} {key value : Bytes} {now : Int}

theorem lookup_purge (now : Int) (m : Reference) (k : Bytes) :
    (purge now m).lookup k = liveEntry now (m.lookup k) :=
  m.lookup_retain _ k

theorem lookup_set_eq (m : Reference) (key value : Bytes)
    (d : Option Int) :
    (OrderedDict.set m key ⟨value, d⟩).lookup =
      (Fact.put key value d).apply m.lookup := by
  funext j
  rw [OrderedDict.lookup_set]
  simp only [Fact.apply, Fact.actOn]

theorem lookup_erase_eq (m : Reference) (key : Bytes) :
    (m.erase key).lookup =
      (Fact.drop [key] : Write).apply m.lookup := by
  funext j
  rw [OrderedDict.lookup_erase]
  simp only [Fact.apply, Fact.actOn, List.mem_singleton]

theorem lookup_foldl_erase (keys : List Bytes) (m : Reference) :
    (keys.foldl OrderedDict.erase m).lookup =
      (Fact.drop keys : Write).apply m.lookup := by
  rw [← replay_drops]
  induction keys generalizing m with
  | nil =>
      rfl
  | cons key keys ih =>
      rw [List.foldl_cons, ih, lookup_erase_eq, List.map_cons, replay_cons]

/-- A new deadline for an entry that is there. -/
theorem lookup_set_deadline {e : Timed Bytes Int}
    (h : m.lookup key = some e) (d : Int) :
    (OrderedDict.set m key ⟨e.value, some d⟩).lookup =
      (Fact.expireAt key d).apply m.lookup := by
  funext j
  rw [OrderedDict.lookup_set]
  simp only [Fact.apply, Fact.actOn]
  split_ifs with hj
  · rw [hj, h]
    rfl
  · rfl

/-- An entry that is there loses its deadline. -/
theorem lookup_clear_deadline {e : Timed Bytes Int}
    (h : m.lookup key = some e) :
    (OrderedDict.set m key ⟨e.value, none⟩).lookup =
      (Fact.persist key : Write).apply m.lookup := by
  funext j
  rw [OrderedDict.lookup_set]
  simp only [Fact.apply, Fact.actOn]
  split_ifs with hj
  · rw [hj, h]
    rfl
  · rfl

/-- The keys that are there, named once or more, less the first name. -/
theorem card_present (key : Bytes) (keys : List Bytes) (m : Reference) :
    ((key :: keys).toFinset.filter (· ∈ m)).card =
      (if key ∈ m then 1 else 0) +
        (keys.toFinset.filter (· ∈ m.erase key)).card := by
  have hrest : keys.toFinset.filter (· ∈ m.erase key) =
      (keys.toFinset.filter (· ∈ m)).erase key := by
    ext j
    simp only [Finset.mem_filter, Finset.mem_erase, OrderedDict.mem_erase]
    tauto
  rw [hrest, List.toFinset_cons, Finset.filter_insert]
  split_ifs with hk
  · rw [← Finset.erase_insert_eq_erase, Nat.add_comm,
      Finset.card_erase_add_one (Finset.mem_insert_self key _)]
  · rw [Finset.erase_eq_of_notMem, Nat.zero_add]
    simp [hk]

end Laws

end Reference

end PyRedis
