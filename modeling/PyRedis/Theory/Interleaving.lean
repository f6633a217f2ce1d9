import PyRedis.Theory.SegmentedReading

/-!
# Many sessions at once

Clients send what they like in pieces of any size, their tasks are resumed in
any order, the two cycles run in between, and connections are closed or reset
at any moment.  The commands still act on the store and the journal one after
another, and a client that is not cut off gets what it would get alone on such
a server: its complete requests are executed in the order in which it sent
them, each of them once, and each is answered once and in that order.
-/

namespace PyRedis

open Foundation Resp Connection

theorem Connection.Arrives.concat {py : Interpreter} {x y rest : Bytes}
    {commands : List (List Bytes)} {parts : List Bytes}
    (h : Arrives py x commands y)
    (hread : (readCommand py).run y = (.ok (some parts), rest)) :
    Arrives py x (commands ++ [parts]) rest := by
  induction h with
  | start x =>
      exact Arrives.read hread (Arrives.start rest)
  | read hfirst _ ih =>
      exact Arrives.read hfirst (ih hread)

namespace Client

section Turns

/-- What a session has been told so far lets its reader go on. -/
def resumed (py : Interpreter) (c : Client) (q : Reading) :
    Option (Except ReadError (Reading ⊕ Option (List Bytes)) × Bytes) :=
  (commandReader py).resume c.eof q c.buffer

/-- The session is over, as the last read ended. -/
def ended (c : Client) (rest : Bytes)
    (r : Except ReadError (Option (List Bytes))) : Client :=
  (c.wrote (closing r).1).moved rest
    (if (closing r).2 then .escaped else .returned)

theorem ended_silent {c : Client} {rest : Bytes}
    {r : Except ReadError (Option (List Bytes))} (h : (closing r).1 = []) :
    c.ended rest r =
      c.moved rest (if (closing r).2 then .escaped else .returned) := by
  simp only [ended, wrote, moved, h, List.append_nil]

/-- How the last segment of a reader ends without a command. -/
inductive LastRead :
    Except ReadError (Reading ⊕ Option (List Bytes)) →
      Except ReadError (Option (List Bytes)) → Prop where
  | error (e : ReadError) : LastRead (.error e) (.error e)
  | closed : LastRead (.ok (.inr none)) (.ok none)

/-- Everything that the turn of a client can be. -/
inductive Turns (py : Interpreter) (c : Client) :
    Turn Client Server.Event Reply → Prop where
  | finished (h : ∀ q, c.progress ≠ .reading q) : Turns py c (.go c)
  | reset {q : Reading} (hq : c.progress = .reading q)
      (h : c.reset = true) : Turns py c (.go { c with progress := .returned })
  | waits {q : Reading} (hq : c.progress = .reading q) (heof : c.eof = false)
      (h : awaits q c.buffer = true) : Turns py c (.go c)
  | onward {q q' : Reading} {rest : Bytes} (hq : c.progress = .reading q)
      (h : c.resumed py q = some (.ok (.inl q'), rest)) :
      Turns py c (.go (c.moved rest (.reading q')))
  | skips {q : Reading} {rest : Bytes} (hq : c.progress = .reading q)
      (h : c.resumed py q = some (.ok (.inr (some [])), rest)) :
      Turns py c (.go (c.moved rest (.reading .header)))
  | ends {q : Reading} {rest : Bytes}
      {last : Except ReadError (Reading ⊕ Option (List Bytes))}
      {r : Except ReadError (Option (List Bytes))}
      (hq : c.progress = .reading q) (h : c.resumed py q = some (last, rest))
      (hr : LastRead last r) : Turns py c (.go (c.ended rest r))
  | calls {q : Reading} {name : Bytes} {args : List Bytes} {rest : Bytes}
      (hq : c.progress = .reading q)
      (h : c.resumed py q = some (.ok (.inr (some (name :: args))), rest)) :
      Turns py c (.call (.request (name :: args)) (c.answered rest))

theorem turn_cases (py : Interpreter) (c : Client) :
    Turns py c (c.turn py) := by
  unfold turn
  cases hq : c.progress with
  | reading q =>
      dsimp only
      by_cases hreset : (c.reset && !c.pending) = true
      · rw [if_pos hreset]
        exact Turns.reset hq (Bool.and_eq_true_iff.mp hreset).1
      · rw [if_neg hreset]
        have hsame : Fallible.whenReady c.eof (awaits q) (segment py q)
            c.buffer = c.resumed py q := rfl
        rw [hsame]
        rcases hrun : c.resumed py q with _ |
          ⟨(m | _ | _) | q' | _ | _ | ⟨name, args⟩, rest⟩
        · obtain ⟨heof, hwaits⟩ := Fallible.whenReady_eq_none_iff.mp hrun
          exact Turns.waits hq heof hwaits
        · exact Turns.ends hq hrun (LastRead.error _)
        · have hends := Turns.ends hq hrun (LastRead.error _)
          rwa [ended_silent rfl] at hends
        · have hends := Turns.ends hq hrun (LastRead.error _)
          rwa [ended_silent rfl] at hends
        · exact Turns.onward hq hrun
        · have hends := Turns.ends hq hrun LastRead.closed
          rwa [ended_silent rfl] at hends
        · exact Turns.skips hq hrun
        · exact Turns.calls hq hrun
  | returned =>
      exact Turns.finished (by simp [hq])
  | escaped =>
      exact Turns.finished (by simp [hq])

end Turns

section Inputs

/-- The stream of a client: the bytes that arrived before anything else
did. -/
def sent : List Arrival → Bytes
  | .data bytes :: later => bytes ++ sent later
  | _ => []

/-- Nothing but bytes has arrived. -/
def Open (inputs : List Arrival) : Prop :=
  ∀ input ∈ inputs, ∃ bytes, input = .data bytes

/-- What may still arrive behind the stream so far. -/
def Follows (inputs : List Arrival) (y : Bytes) : Prop :=
  Open inputs ∨ y = []

/-- The connection was reset, or closed from this side. -/
def CutOff (inputs : List Arrival) : Prop :=
  .reset ∈ inputs ∨ .severed ∈ inputs

theorem open_cons {input : Arrival} {inputs : List Arrival} :
    Open (input :: inputs) ↔
      (∃ bytes, input = .data bytes) ∧ Open inputs := by
  simp [Open]

theorem open_concat {input : Arrival} {inputs : List Arrival} :
    Open (inputs ++ [input]) ↔
      Open inputs ∧ ∃ bytes, input = .data bytes := by
  simp only [Open, List.mem_append, List.mem_singleton]
  constructor
  · intro h
    exact ⟨fun i hi => h i (Or.inl hi), h input (Or.inr rfl)⟩
  · rintro ⟨h, hinput⟩ i (hi | rfl)
    · exact h i hi
    · exact hinput

theorem sent_append_of_open {inputs : List Arrival} (h : Open inputs)
    (later : List Arrival) : sent (inputs ++ later) =
      sent inputs ++ sent later := by
  induction inputs with
  | nil =>
      rfl
  | cons input inputs ih =>
      obtain ⟨⟨bytes, rfl⟩, hopen⟩ := open_cons.mp h
      simp only [List.cons_append, sent, ih hopen, List.append_assoc]

theorem sent_append_of_not_open {inputs : List Arrival} (h : ¬ Open inputs)
    (later : List Arrival) : sent (inputs ++ later) = sent inputs := by
  induction inputs with
  | nil =>
      exact absurd (fun i hi => by cases hi) h
  | cons input inputs ih =>
      cases input with
      | data bytes =>
          have hrest : ¬ Open inputs := fun hopen =>
            h (open_cons.mpr ⟨⟨bytes, rfl⟩, hopen⟩)
          simp only [List.cons_append, sent, ih hrest]
      | eof =>
          rfl
      | reset =>
          rfl
      | severed =>
          rfl

end Inputs

section Standing

/-- What a connection remembers of what has reached it. -/
structure Remembers (inputs : List Arrival) (c : Client) : Prop where
  eof : c.eof = true ↔ .eof ∈ inputs ∨ .severed ∈ inputs
  reset : c.reset = true ↔ .reset ∈ inputs
  severed : c.severed = true ↔ .severed ∈ inputs

/-- The commands at the front of the stream, whatever follows: they were
called, and reading goes on behind them. -/
structure Behind (py : Interpreter) (inputs : List Arrival)
    (calls : List (Server.Event × Reply)) (commands : List (List Bytes))
    (front : Bytes) : Prop where
  calls : calls.map Prod.fst = (requests commands).map .request
  arrives : ∀ y, Follows inputs y →
    Arrives py (sent inputs ++ y) commands (front ++ y)

/-- Everything written for the calls of a client. -/
def repliesOf (calls : List (Server.Event × Reply)) : Bytes :=
  calls.flatMap fun call => replyBytes call.2

/-- Where a session stands: reading behind the commands it has called, or at
an end of its stream behind them, or cut off. -/
inductive Stands (py : Interpreter) (inputs : List Arrival)
    (calls : List (Server.Event × Reply)) :
    Progress → Bytes → Bytes → Prop where
  | reading {commands : List (List Bytes)} {front buffer : Bytes}
      (q : Reading) (h : Behind py inputs calls commands front)
      (hread : ∀ y, Follows inputs y →
        (readCommand py).run (front ++ y) =
          (remaining py q).run (buffer ++ y)) :
      Stands py inputs calls (.reading q) buffer (repliesOf calls)
  | ended {commands : List (List Bytes)} {front : Bytes} (buffer : Bytes)
      {r : Except ReadError (Option (List Bytes))}
      (h : Behind py inputs calls commands front)
      (hread : ∀ y, Follows inputs y →
        ((readCommand py).run (front ++ y)).1 = r)
      (hend : ∀ parts, r ≠ .ok (some parts)) :
      Stands py inputs calls (if (closing r).2 then .escaped else .returned)
        buffer (repliesOf calls ++ (closing r).1)
  | cut {commands : List (List Bytes)} {front : Bytes} (buffer : Bytes)
      (h : Behind py inputs calls commands front) (hcut : CutOff inputs) :
      Stands py inputs calls .returned buffer (repliesOf calls)

/-- What every client task keeps. -/
structure Keeps (py : Interpreter) (inputs : List Arrival)
    (calls : List (Server.Event × Reply)) (c : Client) : Prop where
  remembers : Remembers inputs c
  stands : Stands py inputs calls c.progress c.buffer c.written

variable {py : Interpreter} {inputs inputs' : List Arrival}
variable {calls : List (Server.Event × Reply)}
variable {commands : List (List Bytes)} {front buffer written : Bytes}
variable {progress : Progress} {c : Client}

theorem Remembers.open_iff (h : Remembers inputs c) :
    Open inputs ↔ c.eof = false ∧ c.reset = false := by
  rw [← Bool.not_eq_true, ← Bool.not_eq_true, h.eof, h.reset]
  constructor
  · intro hopen
    refine ⟨?_, ?_⟩
    · rintro (heof | hsevered)
      · obtain ⟨bytes, hbytes⟩ := hopen _ heof
        cases hbytes
      · obtain ⟨bytes, hbytes⟩ := hopen _ hsevered
        cases hbytes
    · intro hreset
      obtain ⟨bytes, hbytes⟩ := hopen _ hreset
      cases hbytes
  · rintro ⟨heof, hreset⟩ input hinput
    cases input with
    | data bytes =>
        exact ⟨bytes, rfl⟩
    | eof =>
        exact absurd (Or.inl hinput) heof
    | reset =>
        exact absurd hinput hreset
    | severed =>
        exact absurd (Or.inr hinput) heof

/-- At the end of the stream nothing follows. -/
theorem Remembers.follows (h : Remembers inputs c) {y : Bytes}
    (hy : Follows inputs y) : c.eof = true → y = [] := by
  intro heof
  rcases hy with hopen | hnil
  · rw [(h.open_iff.mp hopen).1] at heof
    cases heof
  · exact hnil

/-- More input, of which none goes behind the stream. -/
theorem Behind.still (h : Behind py inputs calls commands front)
    (hsent : sent inputs' = sent inputs)
    (hfollows : ∀ y, Follows inputs' y → Follows inputs y) :
    Behind py inputs' calls commands front where
  calls := h.calls
  arrives y hy := by
    rw [hsent]
    exact h.arrives y (hfollows y hy)

theorem Stands.still (h : Stands py inputs calls progress buffer written)
    (hsent : sent inputs' = sent inputs)
    (hfollows : ∀ y, Follows inputs' y → Follows inputs y)
    (hcut : CutOff inputs → CutOff inputs') :
    Stands py inputs' calls progress buffer written := by
  cases h with
  | reading q h hread =>
      exact Stands.reading q (h.still hsent hfollows)
        fun y hy => hread y (hfollows y hy)
  | ended buffer h hread hend =>
      exact Stands.ended buffer (h.still hsent hfollows)
        (fun y hy => hread y (hfollows y hy)) hend
  | cut buffer h hcut' =>
      exact Stands.cut buffer (h.still hsent hfollows) (hcut hcut')

/-- More bytes behind the stream. -/
theorem Behind.longer (h : Behind py inputs calls commands front)
    (hopen : Open inputs) (bytes : Bytes) :
    Behind py (inputs ++ [.data bytes]) calls commands
      (front ++ bytes) where
  calls := h.calls
  arrives y _ := by
    have harrives := h.arrives (bytes ++ y) (Or.inl hopen)
    rw [sent_append_of_open hopen]
    simpa only [sent, List.append_nil, List.append_assoc] using harrives

theorem Stands.longer (h : Stands py inputs calls progress buffer written)
    (hopen : Open inputs) (bytes : Bytes) :
    Stands py (inputs ++ [.data bytes]) calls progress (buffer ++ bytes)
      written := by
  cases h with
  | reading q h hread =>
      refine Stands.reading q (h.longer hopen bytes) fun y _ => ?_
      simpa only [List.append_assoc] using hread (bytes ++ y) (Or.inl hopen)
  | ended buffer h hread hend =>
      refine Stands.ended _ (h.longer hopen bytes) (fun y _ => ?_) hend
      simpa only [List.append_assoc] using hread (bytes ++ y) (Or.inl hopen)
  | cut buffer h hcut =>
      rcases hcut with hreset | hsevered
      · obtain ⟨_, hbytes⟩ := hopen _ hreset
        cases hbytes
      · obtain ⟨_, hbytes⟩ := hopen _ hsevered
        cases hbytes

/-- An input after which nothing follows the stream. -/
theorem Stands.closed {input : Arrival}
    (h : Stands py inputs calls progress buffer written)
    (hinput : ∀ bytes, input ≠ .data bytes) :
    Stands py (inputs ++ [input]) calls progress buffer written := by
  have hclosed : ¬ Open (inputs ++ [input]) := by
    intro hopen
    obtain ⟨-, bytes, hbytes⟩ := open_concat.mp hopen
    exact hinput bytes hbytes
  have hsent : sent (inputs ++ [input]) = sent inputs := by
    by_cases hopen : Open inputs
    · rw [sent_append_of_open hopen]
      cases input with
      | data bytes =>
          exact absurd rfl (hinput bytes)
      | eof =>
          exact List.append_nil _
      | reset =>
          exact List.append_nil _
      | severed =>
          exact List.append_nil _
    · exact sent_append_of_not_open hopen _
  refine h.still hsent ?_ ?_
  · rintro y (hopen | hnil)
    · exact absurd hopen hclosed
    · exact Or.inr hnil
  · exact Or.imp (List.mem_append_left _) (List.mem_append_left _)

end Standing

section Guarantee

theorem requests_append (commands more : List (List Bytes)) :
    requests (commands ++ more) = requests commands ++ requests more :=
  List.filter_append _ _

variable {py : Interpreter} {inputs : List Arrival}
variable {calls : List (Server.Event × Reply)} {c : Client}
variable {commands : List (List Bytes)} {front : Bytes}

theorem keeps_fresh (py : Interpreter) : Keeps py [] [] fresh where
  remembers := ⟨by simp [fresh], by simp [fresh], by simp [fresh]⟩
  stands := by
    have hbehind : Behind py [] [] [] [] :=
      ⟨rfl, fun y _ => Arrives.start y⟩
    exact Stands.reading .header hbehind fun _ _ => rfl

theorem Keeps.hear (h : Keeps py inputs calls c) (input : Arrival) :
    Keeps py (inputs ++ [input]) calls (hear input c) := by
  have hopen := h.remembers.open_iff
  obtain ⟨heof, hreset, hsevered⟩ := h.remembers
  cases input with
  | data bytes =>
      by_cases hstill : Open inputs
      · obtain ⟨hmore, hsound⟩ := hopen.mp hstill
        refine ⟨⟨?_, ?_, ?_⟩, ?_⟩
        · simpa [Client.hear, hmore, hsound] using heof
        · simpa [Client.hear, hmore, hsound] using hreset
        · simpa [Client.hear, hmore, hsound] using hsevered
        · simpa [Client.hear, hmore, hsound] using h.stands.longer hstill bytes
      · have hover : (c.eof || c.reset) = true := by
          by_contra hnot
          simp only [Bool.or_eq_true, not_or, Bool.not_eq_true] at hnot
          exact hstill (hopen.mpr hnot)
        refine ⟨⟨?_, ?_, ?_⟩, ?_⟩
        · simpa [Client.hear, hover] using heof
        · simpa [Client.hear, hover] using hreset
        · simpa [Client.hear, hover] using hsevered
        · simp only [Client.hear, hover, if_true]
          refine h.stands.still (sent_append_of_not_open hstill _) ?_ ?_
          · rintro y (hboth | hnil)
            · exact absurd (open_concat.mp hboth).1 hstill
            · exact Or.inr hnil
          · exact Or.imp (List.mem_append_left _) (List.mem_append_left _)
  | eof =>
      refine ⟨⟨?_, ?_, ?_⟩, h.stands.closed (by simp)⟩
      · simp [Client.hear]
      · simpa [Client.hear] using hreset
      · simpa [Client.hear] using hsevered
  | reset =>
      have hstands : Stands py (inputs ++ [.reset]) calls c.progress c.buffer
          c.written := h.stands.closed (by simp)
      by_cases hover : c.reset = true
      · have hsame : Client.hear .reset c = c := if_pos hover
        rw [hsame]
        refine ⟨⟨?_, ?_, ?_⟩, hstands⟩
        · simpa using heof
        · simp [hover]
        · simpa using hsevered
      · have hnew : Client.hear .reset c =
            { c with reset := true, pending := c.ready } := if_neg hover
        rw [hnew]
        refine ⟨⟨?_, ?_, ?_⟩, hstands⟩
        · simpa using heof
        · simp
        · simpa using hsevered
  | severed =>
      refine ⟨⟨?_, ?_, ?_⟩, h.stands.closed (by simp)⟩
      · simp [Client.hear]
      · simpa [Client.hear] using hreset
      · simp [Client.hear]

/-- A session that is reading has written its replies and nothing else. -/
theorem Keeps.reading (h : Keeps py inputs calls c) {q : Reading}
    (hq : c.progress = .reading q) :
    c.written = repliesOf calls ∧ ∃ commands front,
      Behind py inputs calls commands front ∧ ∀ y, Follows inputs y →
        (readCommand py).run (front ++ y) =
          (remaining py q).run (c.buffer ++ y) := by
  have hstands := h.stands
  rw [hq] at hstands
  generalize hp : Progress.reading q = p at hstands
  generalize hw : c.written = written at hstands
  cases hstands with
  | reading q' hbehind hread =>
      cases hp
      exact ⟨rfl, _, _, hbehind, hread⟩
  | ended buffer hbehind hread hend =>
      split_ifs at hp
  | cut buffer hbehind hcut =>
      cases hp

/-- One more command is behind. -/
theorem Behind.next (h : Behind py inputs calls commands front)
    {parts : List Bytes} {rest : Bytes}
    (hread : ∀ y, Follows inputs y →
      (readCommand py).run (front ++ y) = (.ok (some parts), rest ++ y))
    {more : List (Server.Event × Reply)}
    (hmore : more.map Prod.fst = (requests [parts]).map .request) :
    Behind py inputs (calls ++ more) (commands ++ [parts]) rest where
  calls := by
    rw [List.map_append, h.calls, hmore, requests_append, List.map_append]
  arrives y hy := (h.arrives y hy).concat (hread y hy)

theorem Keeps.go (h : Keeps py inputs calls c) {c' : Client}
    (hturn : c.turn py = .go c') : Keeps py inputs calls c' := by
  have hcases := turn_cases py c
  rw [hturn] at hcases
  cases hcases with
  | finished _ =>
      exact h
  | waits _ _ _ =>
      exact h
  | reset hq hreset =>
      obtain ⟨hwritten, commands, front, hbehind, -⟩ := h.reading hq
      refine ⟨⟨h.remembers.eof, h.remembers.reset, h.remembers.severed⟩, ?_⟩
      rw [hwritten]
      exact Stands.cut _ hbehind (Or.inl (h.remembers.reset.mp hreset))
  | @onward q q' rest hq hrun =>
      obtain ⟨hwritten, commands, front, hbehind, hread⟩ := h.reading hq
      refine ⟨⟨h.remembers.eof, h.remembers.reset, h.remembers.severed⟩, ?_⟩
      simp only [moved, hwritten]
      refine Stands.reading q' hbehind fun y hy => ?_
      rw [hread y hy]
      exact Segmented.whole_of_next hrun (h.remembers.follows hy)
  | @skips q rest hq hrun =>
      obtain ⟨hwritten, commands, front, hbehind, hread⟩ := h.reading hq
      refine ⟨⟨h.remembers.eof, h.remembers.reset, h.remembers.severed⟩, ?_⟩
      simp only [moved, hwritten]
      have hnext : ∀ y, Follows inputs y →
          (readCommand py).run (front ++ y) = (.ok (some []), rest ++ y) := by
        intro y hy
        rw [hread y hy]
        exact Segmented.whole_of_last hrun (h.remembers.follows hy)
      have hmoved : Behind py inputs (calls ++ []) (commands ++ [[]]) rest :=
        hbehind.next hnext rfl
      rw [List.append_nil] at hmoved
      exact Stands.reading .header hmoved fun _ _ => rfl
  | @ends q rest last r hq hrun hr =>
      obtain ⟨hwritten, commands, front, hbehind, hread⟩ := h.reading hq
      have hlast : ∀ y, Follows inputs y →
          ((readCommand py).run (front ++ y)).1 = r := by
        intro y hy
        rw [hread y hy]
        cases hr with
        | error e =>
            exact congrArg Prod.fst
              (Segmented.whole_of_error hrun (h.remembers.follows hy))
        | closed =>
            exact congrArg Prod.fst
              (Segmented.whole_of_last hrun (h.remembers.follows hy))
      have hend : ∀ parts, r ≠ .ok (some parts) := by
        intro parts hparts
        cases hr <;> cases hparts
      refine ⟨⟨h.remembers.eof, h.remembers.reset, h.remembers.severed⟩, ?_⟩
      simp only [ended, wrote, moved, hwritten]
      exact Stands.ended rest hbehind hlast hend

theorem Keeps.call (h : Keeps py inputs calls c) {event : Server.Event}
    {resume : Reply → Client} (hturn : c.turn py = .call event resume)
    (reply : Reply) :
    Keeps py inputs (calls ++ [(event, reply)]) (resume reply) := by
  have hcases := turn_cases py c
  rw [hturn] at hcases
  cases hcases with
  | @calls q name args rest hq hrun =>
      obtain ⟨hwritten, commands, front, hbehind, hread⟩ := h.reading hq
      have hnext : ∀ y, Follows inputs y →
          (readCommand py).run (front ++ y) =
            (.ok (some (name :: args)), rest ++ y) := by
        intro y hy
        rw [hread y hy]
        exact Segmented.whole_of_last hrun (h.remembers.follows hy)
      have hmoved : Behind py inputs
          (calls ++ [(.request (name :: args), reply)])
          (commands ++ [name :: args]) rest :=
        hbehind.next hnext rfl
      have hreplies : c.written ++ replyBytes reply =
          repliesOf (calls ++ [(.request (name :: args), reply)]) := by
        simp [hwritten, repliesOf]
      refine ⟨⟨h.remembers.eof, h.remembers.reset, h.remembers.severed⟩, ?_⟩
      simp only [answered, wrote, moved, hreplies]
      split_ifs with hover
      · refine Stands.cut rest hmoved ?_
        rcases Bool.or_eq_true_iff.mp hover with hsevered | hreset
        · exact Or.inr (h.remembers.severed.mp hsevered)
        · exact Or.inl (h.remembers.reset.mp hreset)
      · exact Stands.reading .header hmoved fun _ _ => rfl

end Guarantee

section Rest

variable {py : Interpreter} {inputs : List Arrival}
variable {calls : List (Server.Event × Reply)} {c : Client}

/-- A turn would change nothing: the session is over, or it awaits what has
not arrived. -/
def Idle (py : Interpreter) (c : Client) : Prop :=
  c.turn py = .go c

theorem resumed_shrinks {q : Reading} {r : Reading ⊕ Option (List Bytes)}
    {rest : Bytes} (h : c.resumed py q = some (.ok r, rest))
    (hr : r ≠ .inr none) : rest.length < c.buffer.length := by
  have hrun := (Fallible.run_of_whenReady h).1
  rcases (segment_shrinks py q c.buffer).ok hrun with hnone | hless
  · exact absurd hnone hr
  · exact hless

/-- A client that waits could not be told more about a frame. -/
theorem runs_out_of_awaits (py : Interpreter) {q : Reading} {x : Bytes}
    (h : awaits q x = true) :
    (∀ parts, ((remaining py q).run x).1 ≠ .ok (some parts)) ∧
      closing ((remaining py q).run x).1 = ([], false) := by
  rcases remaining_of_awaits h with hnone | hgone
  · rw [hnone]
    exact ⟨by simp, rfl⟩
  · rw [hgone]
    exact ⟨by simp, rfl⟩

/-- **At rest**, and not cut off, a session has read every command that was
sent, and it has written what there is to write. -/
theorem Keeps.idle (h : Keeps py inputs calls c) (hrest : Idle py c)
    (hcut : ¬ CutOff inputs) :
    ∃ commands front, Behind py inputs calls commands front ∧
      (∀ parts, ((readCommand py).run front).1 ≠ .ok (some parts)) ∧
      c.written =
        repliesOf calls ++ (closing ((readCommand py).run front).1).1 ∧
      (c.progress = .escaped ↔
        (closing ((readCommand py).run front).1).2 = true) := by
  have hcases := turn_cases py c
  rw [show c.turn py = .go c from hrest] at hcases
  generalize hgo : Turn.go c = taken at hcases
  cases hcases with
  | finished hover =>
      have hstands := h.stands
      generalize hp : c.progress = p at hstands hover ⊢
      generalize hw : c.written = written at hstands ⊢
      cases hstands with
      | reading q _ _ =>
          exact absurd rfl (hover q)
      | @ended commands front buffer r hbehind hread hend =>
          have hr := hread [] (Or.inr rfl)
          rw [List.append_nil] at hr
          refine ⟨commands, front, hbehind, ?_, ?_, ?_⟩
          · rw [hr]
            exact hend
          · rw [hr]
          · rw [hr]
            split_ifs with hescaped <;> simp [hescaped]
      | cut buffer hbehind hcut' =>
          exact absurd hcut' hcut
  | reset hq hreset =>
      exact absurd (Or.inl (h.remembers.reset.mp hreset)) hcut
  | @waits q hq heof hwaits =>
      obtain ⟨hwritten, commands, front, hbehind, hread⟩ := h.reading hq
      have hfront := hread [] (Or.inr rfl)
      rw [List.append_nil, List.append_nil] at hfront
      obtain ⟨hnone, hsilent⟩ := runs_out_of_awaits py hwaits
      rw [← hfront] at hnone hsilent
      refine ⟨commands, front, hbehind, hnone, ?_, ?_⟩
      · rw [hsilent, hwritten, List.append_nil]
      · rw [hsilent, hq]
        simp
  | @onward q q' rest hq hrun =>
      have hless := resumed_shrinks hrun (by simp)
      have hsame : c.buffer = rest := congrArg Client.buffer (Turn.go.inj hgo)
      rw [hsame] at hless
      exact absurd hless (lt_irrefl _)
  | @skips q rest hq hrun =>
      have hless := resumed_shrinks hrun (by simp)
      have hsame : c.buffer = rest := congrArg Client.buffer (Turn.go.inj hgo)
      rw [hsame] at hless
      exact absurd hless (lt_irrefl _)
  | ends hq hrun hr =>
      have hsame := congrArg Client.progress (Turn.go.inj hgo)
      simp only [ended, wrote, moved, hq] at hsame
      split_ifs at hsame
  | calls hq hrun =>
      cases hgo

/-- Unless it is at rest, a session comes closer to it with every turn. -/
def work (c : Client) : Nat :=
  match c.progress with
  | .reading _ => c.buffer.length + 1
  | _ => 0

theorem work_of_reading {q : Reading} (hq : c.progress = .reading q) :
    c.work = c.buffer.length + 1 := by
  simp only [work, hq]

theorem work_go {c' : Client} (h : c.turn py = .go c') (hne : c' ≠ c) :
    c'.work < c.work := by
  have hcases := turn_cases py c
  rw [h] at hcases
  cases hcases with
  | finished _ =>
      exact absurd rfl hne
  | waits _ _ _ =>
      exact absurd rfl hne
  | reset hq hreset =>
      rw [work_of_reading hq]
      exact Nat.succ_pos _
  | onward hq hrun =>
      have hless := resumed_shrinks hrun (by simp)
      rw [work_of_reading hq]
      exact Nat.succ_lt_succ hless
  | skips hq hrun =>
      have hless := resumed_shrinks hrun (by simp)
      rw [work_of_reading hq]
      exact Nat.succ_lt_succ hless
  | @ends q rest last r hq hrun hr =>
      rw [work_of_reading hq]
      have hnone : (c.ended rest r).work = 0 := by
        simp only [work, ended, moved]
        split_ifs <;> rfl
      rw [hnone]
      exact Nat.succ_pos _

theorem work_call {event : Server.Event} {resume : Reply → Client}
    (h : c.turn py = .call event resume) (reply : Reply) :
    (resume reply).work < c.work := by
  have hcases := turn_cases py c
  rw [h] at hcases
  cases hcases with
  | calls hq hrun =>
      have hless := resumed_shrinks hrun (by simp)
      rw [work_of_reading hq]
      simp only [work, answered, moved]
      split_ifs
      · exact Nat.succ_pos _
      · exact Nat.succ_lt_succ hless

end Rest

end Client

namespace Server

open Client

variable {J : Type} [Journal J]

section Runs

theorem guarantee_keeps (py : Interpreter) :
    (loop J py).Guarantee (Keeps py) where
  hear h input := h.hear input
  go h hturn := h.go hturn
  call h hturn reply := h.call hturn reply

theorem keeps_run (py : Interpreter) (store : KeyValueStore) (journal : J)
    (actions : List Action) (k : Nat) :
    Keeps py (EventLoop.heard k actions)
      (EventLoop.called k ((loop J py).run (listening store journal)
        actions).1)
      (((loop J py).run (listening store journal) actions).2.tasks k) := by
  have hkeeps : (loop J py).Guarantee (Keeps py) := guarantee_keeps py
  have hfresh : Keeps py [] [] ((listening store journal).tasks k) :=
    keeps_fresh py
  simpa only [List.nil_append] using hkeeps.run actions hfresh

/-- What a client may expect of its session.  The commands it has called are
the requests at the front of its stream, in order, each once; what is written
begins with their replies in that order; and when the session is at rest and
was not cut off, no command of the stream is left, and nothing is written but
the replies and what ends a stream that is not well-formed. -/
structure Orderly (py : Interpreter) (inputs : List Arrival)
    (calls : List (Event × Reply)) (c : Client) : Prop where
  read : ∃ commands rest, Arrives py (sent inputs) commands rest ∧
    calls.map Prod.fst = (requests commands).map .request ∧
    (Idle py c → ¬ CutOff inputs →
      (∀ parts, ((readCommand py).run rest).1 ≠ .ok (some parts)) ∧
        c.written =
          repliesOf calls ++ (closing ((readCommand py).run rest).1).1)
  written : repliesOf calls <+: c.written

theorem orderly_of_keeps {py : Interpreter} {inputs : List Arrival}
    {calls : List (Event × Reply)} {c : Client}
    (h : Keeps py inputs calls c) : Orderly py inputs calls c := by
  have hbehind : (∃ commands front, Behind py inputs calls commands front) ∧
      repliesOf calls <+: c.written := by
    have hstands := h.stands
    generalize c.progress = progress at hstands
    generalize c.written = written at hstands ⊢
    cases hstands with
    | reading q hbehind _ =>
        exact ⟨⟨_, _, hbehind⟩, List.prefix_rfl⟩
    | ended buffer hbehind _ _ =>
        exact ⟨⟨_, _, hbehind⟩, List.prefix_append _ _⟩
    | cut buffer hbehind _ =>
        exact ⟨⟨_, _, hbehind⟩, List.prefix_rfl⟩
  obtain ⟨⟨commands, front, hfront⟩, hwritten⟩ := hbehind
  have harrives : ∀ {commands front},
      Behind py inputs calls commands front →
        Arrives py (sent inputs) commands front := by
    intro commands front hfront
    have harrives := hfront.arrives [] (Or.inr rfl)
    rwa [List.append_nil, List.append_nil] at harrives
  refine ⟨?_, hwritten⟩
  by_cases hdone : Idle py c ∧ ¬ CutOff inputs
  · obtain ⟨commands, front, hlast, hend, hall, -⟩ :=
      h.idle hdone.1 hdone.2
    exact ⟨commands, front, harrives hlast, hlast.calls,
      fun _ _ => ⟨hend, hall⟩⟩
  · exact ⟨commands, front, harrives hfront, hfront.calls,
      fun hrest hcut => absurd ⟨hrest, hcut⟩ hdone⟩

/-- **Any number of sessions, in any order.**  Whatever arrives at which
connection, in whatever pieces, and whichever task is resumed when, the
commands and the two cycles act on the store and the journal one after
another; and every client has its own requests executed and answered in the
order in which it sent them, none of them twice, and none left out when its
session is at rest. -/
theorem sessions_serialize (py : Interpreter) (store : KeyValueStore)
    (journal : J) (actions : List Action) :
    EventLoop.Serial (fun event state => (handle py event).run state)
        (store, journal)
        ((loop J py).run (listening store journal) actions).1
        ((loop J py).run (listening store journal) actions).2.shared ∧
      ((loop J py).run (listening store journal) actions).2.shared =
        afterEvents py (store, journal)
          (((loop J py).run (listening store journal) actions).1.map
            EventLoop.Call.operation) ∧
      ∀ k, Orderly py (EventLoop.heard k actions)
        (EventLoop.called k ((loop J py).run (listening store journal)
          actions).1)
        (((loop J py).run (listening store journal) actions).2.tasks k) := by
  have hserial := EventLoop.serial_run (loop J py)
    (listening store journal) actions
  refine ⟨hserial, ?_, fun k => orderly_of_keeps (keeps_run py _ _ _ k)⟩
  rw [hserial.state_eq, afterEvents, List.foldl_map]
  rfl

/-- A read that has only to be resumed ends its request, although the connection
was reset. -/
example :
    (EventLoop.called 0 ((loop NullJournal .default).run
      (listening (KeyValueStore.init (.frozen 0) 0 .noeviction) ⟨⟩)
      [.hear 0 (.data (ascii "*1\r\n$4\r\n")), .wake 0, .wake 0,
        .hear 0 (.data (ascii "PING\r\n")), .hear 0 .reset,
        .wake 0]).1).length = 1 := by
  decide +kernel

end Runs

section Bystanders

theorem called_of_silent {py : Interpreter} (store : KeyValueStore)
    (journal : J) {actions : List Action} {k : Nat}
    (h : ∀ commands rest,
      Arrives py (sent (EventLoop.heard k actions)) commands rest →
        requests commands = []) :
    EventLoop.called k ((loop J py).run (listening store journal)
      actions).1 = [] := by
  obtain ⟨⟨commands, rest, harrives, hcalls, -⟩, -⟩ :=
    orderly_of_keeps (keeps_run py store journal actions k)
  rw [h commands rest harrives] at hcalls
  exact List.map_eq_nil_iff.mp hcalls

/-- **Clients that complete no request leave no trace.**  Junk, frames that
are never finished, resets and hang-ups of some clients change nothing for
the others: not a call, not the store or the journal, not a byte. -/
theorem bystanders_leave_no_trace (py : Interpreter) (store : KeyValueStore)
    (journal : J) (actions : List Action) (keep : Nat → Bool)
    (hsilent : ∀ k, keep k = false → ∀ commands rest,
      Arrives py (sent (EventLoop.heard k actions)) commands rest →
        requests commands = []) :
    ((loop J py).run (listening store journal)
        (actions.filter (EventLoop.Action.concerns keep))).1 =
        ((loop J py).run (listening store journal) actions).1 ∧
      EventLoop.SameFor keep
        ((loop J py).run (listening store journal) actions).2
        ((loop J py).run (listening store journal)
          (actions.filter (EventLoop.Action.concerns keep))).2 := by
  have hsame : EventLoop.SameFor keep (listening store journal)
      (listening store journal) := ⟨rfl, fun _ _ => rfl⟩
  refine hsame.run (loop J py) actions fun call hcall k hk => ?_
  by_contra hleft
  rw [Bool.not_eq_true] at hleft
  have hnone := called_of_silent store journal (hsilent k hleft)
  have hmem : (call.operation, call.reply) ∈ EventLoop.called k
      ((loop J py).run (listening store journal) actions).1 :=
    List.mem_filterMap.mpr ⟨call, hcall, by simp [hk]⟩
  rw [hnone] at hmem
  cases hmem

/-- One client sends a request, another one junk before its connection is
reset. -/
def requestAndJunk : List Action :=
  [.hear 1 (.data (ascii "junk\r\n")),
    .hear 0 (.data (ascii "*1\r\n$4\r\nPING\r\n")),
    .wake 1, .wake 0, .hear 1 .reset, .wake 0, .wake 0, .wake 1]

/-- Every client but the second. -/
def exceptJunk (k : Nat) : Bool :=
  k != 1

theorem junk_is_silent {k : Nat} (hk : exceptJunk k = false)
    {commands : List (List Bytes)} {rest : Bytes}
    (h : Arrives .default (sent (EventLoop.heard k requestAndJunk))
      commands rest) : requests commands = [] := by
  obtain rfl : k = 1 := by simpa [exceptJunk] using hk
  have hsent : sent (EventLoop.heard 1 requestAndJunk) =
      ascii "junk\r\n" := by
    decide
  have hjunk : ∀ parts, ((readCommand .default).run (ascii "junk\r\n")).1 ≠
      .ok (some parts) := by
    have herror : ((readCommand .default).run (ascii "junk\r\n")).1 =
        .error (.protocol (unexpected "*" (ascii "junk"))) := by
      decide +kernel
    rw [herror]
    simp
  rw [hsent] at h
  generalize ascii "junk\r\n" = stream at h hjunk
  cases h with
  | start =>
      rfl
  | read hread _ =>
      exact absurd (congrArg Prod.fst hread) (hjunk _)

theorem junk_leaves_no_trace :
    ((loop NullJournal .default).run
        (listening (KeyValueStore.init (.frozen 0) 0 .noeviction) ⟨⟩)
        (requestAndJunk.filter (EventLoop.Action.concerns exceptJunk))).1 =
      ((loop NullJournal .default).run
        (listening (KeyValueStore.init (.frozen 0) 0 .noeviction) ⟨⟩)
        requestAndJunk).1 :=
  (bystanders_leave_no_trace .default
    (KeyValueStore.init (.frozen 0) 0 .noeviction) (⟨⟩ : NullJournal)
    requestAndJunk exceptJunk fun _ hk _ _ => junk_is_silent hk).1

end Bystanders

section Packets

variable {py : Interpreter} {k : Nat}

/-- The action is one of this client. -/
def Alone (k : Nat) : Action → Prop
  | .hear j _ => j = k
  | .wake j => j = k
  | .background _ => False

theorem called_of_alone {actions : List Action}
    (h : ∀ action ∈ actions, Alone k action) :
    ∀ w : EventLoop.World (KeyValueStore × J) Client Nat,
      ∀ call ∈ ((loop J py).run w actions).1, call.who = some k := by
  induction actions with
  | nil =>
      intro w call hcall
      cases hcall
  | cons action actions ih =>
      intro w call hcall
      rw [EventLoop.run_cons] at hcall
      obtain ⟨hfirst, hothers⟩ := List.forall_mem_cons.mp h
      rcases List.mem_append.mp hcall with hhead | htail
      · cases action with
        | hear j input =>
            cases hhead
        | wake j =>
            obtain rfl : j = k := hfirst
            simp only [EventLoop.step] at hhead
            cases hturn : (loop J py).turn (w.tasks j) with
            | go task =>
                rw [hturn] at hhead
                cases hhead
            | call event resume =>
                rw [hturn] at hhead
                rw [List.mem_singleton.mp hhead]
        | background event =>
            exact absurd hfirst id
      · exact ih hothers _ call htail

theorem idle_of_work {c : Client} (h : c.work = 0) : Idle py c := by
  unfold Idle Client.turn
  split
  · next q hq =>
      rw [work_of_reading hq] at h
      cases h
  · rfl

/-- As many turns as there is work bring a session to rest. -/
theorem idle_of_wakes (n : Nat) :
    ∀ w : EventLoop.World (KeyValueStore × J) Client Nat,
      Idle py (w.tasks k) ∨ (w.tasks k).work ≤ n →
        Idle py (((loop J py).run w
          (List.replicate n (.wake k))).2.tasks k) := by
  induction n with
  | zero =>
      rintro w (hrest | hwork)
      · exact hrest
      · exact idle_of_work (Nat.le_zero.mp hwork)
  | succ n ih =>
      intro w hw
      rw [List.replicate_succ, EventLoop.run_cons]
      refine ih _ ?_
      have hturn : (loop J py).turn (w.tasks k) = (w.tasks k).turn py := rfl
      simp only [EventLoop.step, hturn]
      cases hgo : (w.tasks k).turn py with
      | go task =>
          simp only [EventLoop.World.assign, Function.update_self]
          by_cases hsame : task = w.tasks k
          · rw [hsame] at hgo ⊢
            exact Or.inl hgo
          · have hless := work_go hgo hsame
            rcases hw with hrest | hwork
            · exact absurd (Turn.go.inj (hgo.symm.trans hrest)) hsame
            · exact Or.inr (by omega)
      | call event resume =>
          have hless := work_call hgo
            ((loop J py).perform event w.shared).1
          simp only [EventLoop.World.assign, Function.update_self]
          rcases hw with hrest | hwork
          · cases hgo.symm.trans hrest
          · exact Or.inr (by omega)

/-- Requests executed one after another get the answers of one session. -/
theorem answers_of_serial {s t : KeyValueStore × J}
    {calls : List (EventLoop.Call Nat Event Reply)}
    (h : EventLoop.Serial (loop J py).perform s calls t) :
    ∀ {parts : List (List Bytes)},
      calls.map EventLoop.Call.operation = parts.map .request →
        answers py s parts =
          (calls.flatMap fun call => replyBytes call.reply, t) := by
  induction h with
  | nil s =>
      intro parts hparts
      obtain rfl := List.map_eq_nil_iff.mp hparts.symm
      rfl
  | @cons s t calls who event h ih =>
      intro parts hparts
      cases parts with
      | nil =>
          cases hparts
      | cons request parts =>
          obtain ⟨hevent, hrest⟩ := List.cons.inj hparts
          simp only at hevent
          subst hevent
          have hanswer : answer py s request =
              (replyBytes ((loop J py).perform (.request request) s).1,
                ((loop J py).perform (.request request) s).2) := by
            simp only [answer, loop, handle, Fallible.run_bind]
            rcases (Commands.dispatch py request).run s with ⟨e | reply, s'⟩
            · rfl
            · rfl
          simp only [answers, hanswer, ih hrest, List.flatMap_cons]

/-- The calls of a client that is alone. -/
theorem called_eq_map {calls : List (EventLoop.Call Nat Event Reply)}
    (h : ∀ call ∈ calls, call.who = some k) :
    EventLoop.called k calls =
      calls.map fun call => (call.operation, call.reply) := by
  rw [← List.filterMap_eq_map]
  refine List.filterMap_congr fun call hcall => ?_
  simp [h call hcall]

/-- **Packets do not matter.**  However the stream of a client is cut into
pieces, and whenever its task is resumed in between, a turn more than there
are bytes left brings the session to where it ends on the whole stream. -/
theorem packets_do_not_matter (py : Interpreter) (store : KeyValueStore)
    (journal : J) (k : Nat) (actions : List Action)
    (halone : ∀ action ∈ actions, Alone k action)
    (hcut : ¬ CutOff (EventLoop.heard k actions)) (turns : Nat)
    (hturns : (((loop J py).run (listening store journal)
      actions).2.tasks k).buffer.length < turns) :
    let w := ((loop J py).run (listening store journal)
      (actions ++ List.replicate turns (.wake k))).2
    handleConnection py (sent (EventLoop.heard k actions)) store journal =
      some ⟨(w.tasks k).written, decide ((w.tasks k).progress = .escaped),
        w.shared.1, w.shared.2⟩ := by
  have hheard : EventLoop.heard k
      (actions ++ List.replicate turns (.wake k)) =
        EventLoop.heard k actions := by
    rw [EventLoop.heard_append]
    simp [EventLoop.heard]
  have halone' : ∀ action ∈ actions ++ List.replicate turns (.wake k),
      Alone k action := by
    intro action haction
    rcases List.mem_append.mp haction with hfirst | hlast
    · exact halone action hfirst
    · rw [List.eq_of_mem_replicate hlast]
      rfl
  have hrest : Idle py (((loop J py).run (listening store journal)
      (actions ++ List.replicate turns (.wake k))).2.tasks k) := by
    rw [EventLoop.run_append]
    refine idle_of_wakes turns _ (Or.inr ?_)
    unfold work
    split <;> omega
  intro w
  have hkeeps := keeps_run py store journal
    (actions ++ List.replicate turns (.wake k)) k
  rw [hheard] at hkeeps
  obtain ⟨commands, front, hbehind, hend, hwritten, hescaped⟩ :=
    hkeeps.idle hrest hcut
  have harrives := hbehind.arrives [] (Or.inr rfl)
  rw [List.append_nil, List.append_nil] at harrives
  have hserial := EventLoop.serial_run (loop J py)
    (listening store journal)
    (actions ++ List.replicate turns (.wake k))
  have hcalls := hbehind.calls
  have hreplies := hwritten
  rw [called_eq_map (called_of_alone halone' _)] at hcalls hreplies
  rw [List.map_map] at hcalls
  have hanswers := answers_of_serial hserial hcalls
  rw [handleConnection_of_arrives harrives hend store journal]
  have hstart : (listening store journal).shared = (store, journal) := rfl
  rw [hstart] at hanswers
  rw [hanswers, hreplies, repliesOf, List.flatMap_map]
  congr 2
  exact (Bool.eq_iff_iff.mpr (decide_eq_true_iff.trans hescaped)).symm

/-- A request in three pieces, cut within a header and within its payload,
and the beginning of another. -/
def pieces : List Action :=
  [.hear 7 (.data (ascii "*1\r\n$4")), .wake 7,
    .hear 7 (.data (ascii "\r\nPI")), .wake 7, .wake 7,
    .hear 7 (.data (ascii "NG\r\n*")), .hear 7 .eof]

theorem pieces_are_answered :
    ((((loop NullJournal .default).run
        (listening (KeyValueStore.init (.frozen 0) 0 .noeviction) ⟨⟩)
        (pieces ++ List.replicate 8 (.wake 7))).2.tasks 7).written) =
      Resp.pong := by
  have hsession := packets_do_not_matter .default
    (KeyValueStore.init (.frozen 0) 0 .noeviction) (⟨⟩ : NullJournal) 7
    pieces (by simp [pieces, Alone]) (by unfold CutOff; decide) 8
    (by decide +kernel)
  have hpong : (handleConnection .default (sent (EventLoop.heard 7 pieces))
      (KeyValueStore.init (.frozen 0) 0 .noeviction)
      (⟨⟩ : NullJournal)).map Session.written = some Resp.pong := by
    decide +kernel
  rw [hsession] at hpong
  exact Option.some.inj hpong

end Packets

end Server
end PyRedis
