import PyRedis.Theory.CallerReplies
import PyRedis.Theory.Interleaving

/-!
# Clients and server together

Any number of clients call the server at the same time.  What they send and
what they get arrives in pieces of any size, and everything happens in any
order.  Still every call takes effect at one moment between its beginning and
its return, what a call returns is what the server answered to this call, and
a call that waits for its reply does not wait for any other client.
-/

namespace PyRedis

open Foundation Resp Connection

namespace Network

open Client

section Streams

variable {py : Interpreter} {args : List Bytes} {asks : List (List Bytes)}
variable {commands : List (List Bytes)} {x y front : Bytes}

theorem permitted_iff : permitted args = true ↔ ValidRequest args := by
  simp only [permitted, Bool.and_eq_true, decide_eq_true_eq,
    List.all_eq_true, ne_eq]
  constructor
  · rintro ⟨⟨hne, hcount⟩, hlength⟩
    exact ⟨hne, hcount, hlength⟩
  · rintro ⟨hne, hcount, hlength⟩
    exact ⟨⟨hne, hcount⟩, hlength⟩

/-- A client sends what the server reads. -/
theorem readCommand_frame (py : Interpreter) (h : ValidRequest args)
    (y : Bytes) :
    (readCommand py).run (Demo.frame args ++ y) = (.ok (some args), y) :=
  readCommand_encoded h y

/-- At the front of what a client sends is a request of it, or too little for
one. -/
theorem read_of_frames (py : Interpreter)
    (hvalid : ∀ args ∈ asks, ValidRequest args)
    (h : x ++ y = asks.flatMap Demo.frame) :
    RunsOut py x ∨ ∃ args later rest, asks = args :: later ∧
      (readCommand py).run x = (.ok (some args), rest) ∧
      rest ++ y = later.flatMap Demo.frame := by
  cases asks with
  | nil =>
      obtain ⟨rfl, -⟩ := List.append_eq_nil_iff.mp h
      exact Or.inl ⟨[], Or.inl rfl⟩
  | cons args later =>
      have hargs := hvalid args (by simp)
      rw [List.flatMap_cons] at h
      rcases List.append_eq_append_iff.mp h with ⟨c, hframe, hy⟩ | ⟨c, hx, hrest⟩
      · by_cases hc : c = []
        · subst hc
          rw [List.append_nil] at hframe
          have hread := readCommand_frame py hargs []
          rw [List.append_nil, hframe] at hread
          exact Or.inr ⟨args, later, [], rfl, hread, hy⟩
        · exact Or.inl (runsOut_of_request hargs hframe.symm hc)
      · rw [hx]
        exact Or.inr ⟨args, later, c, rfl, readCommand_frame py hargs c,
          hrest.symm⟩

theorem RunsOut.not_ok (h : RunsOut py x) (parts : List Bytes) :
    ((readCommand py).run x).1 ≠ .ok (some parts) := by
  obtain ⟨rest, hread | hread⟩ := h
  · simp [hread]
  · simp [hread]

theorem RunsOut.closing (h : RunsOut py x) :
    Connection.closing ((readCommand py).run x).1 = ([], false) := by
  obtain ⟨rest, hread | hread⟩ := h
  · simp [hread, Connection.closing]
  · simp [hread, Connection.closing]

/-- What has been read off the stream of a client are its first requests. -/
theorem arrives_of_frames (h : Arrives py x commands front) :
    ∀ {asks : List (List Bytes)}, (∀ args ∈ asks, ValidRequest args) →
      x ++ y = asks.flatMap Demo.frame →
      ∃ later, asks = commands ++ later ∧
        front ++ y = later.flatMap Demo.frame := by
  induction h with
  | start x =>
      intro asks _ hxy
      exact ⟨asks, rfl, hxy⟩
  | @read x rest front parts commands hread _ ih =>
      intro asks hvalid hxy
      rcases read_of_frames py hvalid hxy with hout |
        ⟨args, later, rest', rfl, hread', hrest⟩
      · exact absurd (congrArg Prod.fst hread) (RunsOut.not_ok hout parts)
      · rw [hread] at hread'
        cases hread'
        obtain ⟨others, rfl, hfront⟩ :=
          ih (fun args hargs => hvalid args (List.mem_cons_of_mem _ hargs))
            hrest
        exact ⟨others, rfl, hfront⟩

theorem requests_eq_self (h : ∀ args ∈ commands, ValidRequest args) :
    requests commands = commands := by
  refine List.filter_eq_self.mpr fun args hargs => ?_
  simpa using (h args hargs).nonempty

end Streams

section Sessions

variable {py : Interpreter} {inputs : List Arrival}
variable {calls : List (Server.Event × Reply)} {c : Client}
variable {asks : List (List Bytes)} {y : Bytes}

/-- **A server that gets requests only** has called the first ones of them,
and it has written their replies and nothing else. -/
theorem keeps_of_frames (h : Keeps py inputs calls c)
    (hvalid : ∀ args ∈ asks, ValidRequest args)
    (hsent : sent inputs ++ y = asks.flatMap Demo.frame) :
    calls.map Prod.fst <+: asks.map .request ∧
      c.written = repliesOf calls := by
  have hbehind : ∀ {commands front}, Behind py inputs calls commands front →
      ∃ later, asks = commands ++ later ∧
        calls.map Prod.fst = commands.map .request ∧
        front ++ y = later.flatMap Demo.frame := by
    intro commands front hb
    have harrives := hb.arrives [] (Or.inr rfl)
    rw [List.append_nil, List.append_nil] at harrives
    obtain ⟨later, rfl, hfront⟩ := arrives_of_frames harrives hvalid hsent
    have hcalls := hb.calls
    rw [requests_eq_self fun args hargs =>
      hvalid args (List.mem_append_left _ hargs)] at hcalls
    exact ⟨later, rfl, hcalls, hfront⟩
  have hfirst : ∀ {commands front}, Behind py inputs calls commands front →
      calls.map Prod.fst <+: asks.map .request := by
    intro commands front hb
    obtain ⟨later, rfl, hcalls, -⟩ := hbehind hb
    rw [hcalls, List.map_append]
    exact List.prefix_append _ _
  have hstands := h.stands
  generalize c.progress = progress at hstands
  generalize c.written = written at hstands ⊢
  cases hstands with
  | reading q hb _ =>
      exact ⟨hfirst hb, rfl⟩
  | @ended commands front buffer r hb hread hend =>
      refine ⟨hfirst hb, ?_⟩
      obtain ⟨later, rfl, -, hfront⟩ := hbehind hb
      have hr := hread [] (Or.inr rfl)
      rw [List.append_nil] at hr
      have hlater : ∀ args ∈ later, ValidRequest args :=
        fun args hargs => hvalid args (List.mem_append_right _ hargs)
      rcases read_of_frames py hlater hfront with hout |
        ⟨args, _, _, _, hsome, _⟩
      · have hsilent := RunsOut.closing hout
        rw [hr] at hsilent
        rw [hsilent, List.append_nil]
      · rw [hsome] at hr
        exact absurd hr.symm (hend args)
  | cut buffer hb _ =>
      exact ⟨hfirst hb, rfl⟩

end Sessions

section Inputs

variable {inputs : List Arrival} {out stream : Bytes}

/-- What a client sent has reached the server, was lost, or is on its way;
nothing is lost on a connection that is open. -/
def Sent (inputs : List Arrival) (out stream : Bytes) : Prop :=
  ∃ lost, sent inputs ++ (lost ++ out) = stream ∧
    (Open inputs → lost = [])

theorem Sent.data (h : Sent inputs out stream) (n : Nat) :
    Sent (inputs ++ [.data (out.take n)]) (out.drop n) stream := by
  obtain ⟨lost, rfl, hlost⟩ := h
  by_cases hopen : Open inputs
  · refine ⟨[], ?_, fun _ => rfl⟩
    rw [sent_append_of_open hopen, hlost hopen]
    simp [sent]
  · refine ⟨lost ++ out.take n, ?_, ?_⟩
    · rw [sent_append_of_not_open hopen, List.append_assoc,
        List.take_append_drop]
    · exact fun hmore => absurd (open_concat.mp hmore).1 hopen

theorem sent_closed {input : Arrival} (hinput : ∀ bytes, input ≠ .data bytes) :
    sent [input] = [] := by
  cases input with
  | data bytes =>
      exact absurd rfl (hinput bytes)
  | eof =>
      rfl
  | reset =>
      rfl
  | severed =>
      rfl

theorem Sent.closed (h : Sent inputs out stream) {input : Arrival}
    (hinput : ∀ bytes, input ≠ .data bytes) :
    Sent (inputs ++ [input]) out stream := by
  obtain ⟨lost, rfl, -⟩ := h
  refine ⟨lost, ?_, ?_⟩
  · by_cases hopen : Open inputs
    · rw [sent_append_of_open hopen, sent_closed hinput, List.append_nil]
    · rw [sent_append_of_not_open hopen]
  · intro hmore
    obtain ⟨-, bytes, hbytes⟩ := open_concat.mp hmore
    exact absurd hbytes (hinput bytes)

theorem Sent.ask (h : Sent inputs out stream) (bytes : Bytes) :
    Sent inputs (out ++ bytes) (stream ++ bytes) := by
  obtain ⟨lost, rfl, hlost⟩ := h
  exact ⟨lost, by simp only [List.append_assoc], hlost⟩

end Inputs

section Replies

variable {J : Type} [Journal J] {py py' : Interpreter}

/-- What a client reads a reply as, if it can. -/
def understood (py : Interpreter) (reply : Reply) : Option Demo.Answer :=
  match Demo.readReply py (replyBytes reply) with
  | .done answer [] => some answer
  | _ => none

theorem understood_of_done {reply : Reply} {answer : Demo.Answer}
    (h : Demo.readReply py (replyBytes reply) = .done answer []) :
    understood py reply = some answer := by
  simp only [understood, h]

/-- A request is answered with one frame. -/
theorem oneFrame_of_handle (args : List Bytes) (s : KeyValueStore × J) :
    OneFrame (replyBytes ((Server.handle py (.request args)).run s).1) := by
  have hreturns : Fallible.Returns OneFrame
      (Commands.dispatch py args : Commands.CommandM J Bytes) :=
    Commands.returns_dispatch args
  simp only [Server.handle, Fallible.run_bind]
  rcases hrun : (Commands.dispatch py args).run s with ⟨e | reply, t⟩
  · exact oneFrame_error _
  · exact hreturns s reply t hrun

theorem oneFrame_of_serial {s t : KeyValueStore × J}
    {calls : List (EventLoop.Call Nat Server.Event Reply)}
    (h : EventLoop.Serial (fun event state => (Server.handle py event).run state)
      s calls t) {k : Nat} {args : List Bytes} {reply : Reply}
    (hcall : (.request args, reply) ∈ EventLoop.called k calls) :
    OneFrame (replyBytes reply) := by
  induction h with
  | nil s =>
      cases hcall
  | @cons s t calls who event h ih =>
      rw [← List.singleton_append, EventLoop.called_append] at hcall
      rcases List.mem_append.mp hcall with hfirst | hrest
      · simp only [EventLoop.called, List.filterMap_cons,
          List.filterMap_nil] at hfirst
        split_ifs at hfirst
        · obtain ⟨rfl, rfl⟩ := Prod.mk.inj (List.mem_singleton.mp hfirst)
          exact oneFrame_of_handle args s
        · cases hfirst
      · exact ih hrest

end Replies

section Conversations

open History

variable {J : Type} {py py' : Interpreter}
variable {past : Chronicle} {net : Network J} {k : Nat}
variable {inputs : List Arrival} {asks : List (List Bytes)}

/-- How client and server stand to each other on one connection: the session
keeps its guarantee, all that was sent are the requests, all that was read are
the replies to the first of them, and what is unread are replies too. -/
structure Conversation (py py' : Interpreter) (past : Chronicle)
    (net : Network J) (k : Nat) (inputs : List Arrival)
    (asks : List (List Bytes)) : Prop where
  keeps : Keeps py inputs (performed k past) (net.server.tasks k)
  asked : asked k past = asks.map .request
  valid : ∀ args ∈ asks, ValidRequest args
  sent : Sent inputs (net.callers k).outgoing (asks.flatMap Demo.frame)
  come : (net.callers k).received ≤ (net.server.tasks k).written.length
  unread : (net.server.tasks k).written.take (net.callers k).received =
    repliesOf ((performed k past).take (answered k past).length) ++
      (net.callers k).buffer
  waits : asks.length = (answered k past).length +
    (net.callers k).waiting.toNat
  faithful : (answered k past).map some <+:
    (performed k past).map fun call => understood py' call.2

theorem Conversation.inOrder
    (h : Conversation py py' past net k inputs asks) :
    (performed k past).map Prod.fst <+: asks.map .request ∧
      (net.server.tasks k).written = repliesOf (performed k past) := by
  obtain ⟨lost, hsent, -⟩ := h.sent
  exact keeps_of_frames h.keeps h.valid hsent

theorem Conversation.proper
    (h : Conversation py py' past net k inputs asks) :
    Proper (understood py') k past where
  inOrder := by
    rw [h.asked]
    exact h.inOrder.1
  faithful := h.faithful
  alternating := by
    rw [h.asked, List.length_map, h.waits]
    exact Nat.add_le_add_left (Bool.toNat_le _) _

theorem conversation_start (py py' : Interpreter) (store : KeyValueStore)
    (journal : J) (k : Nat) :
    Conversation py py' [] (start store journal) k [] [] where
  keeps := keeps_fresh py
  asked := rfl
  valid := by
    intro args hargs
    cases hargs
  sent := ⟨[], rfl, fun _ => rfl⟩
  come := Nat.zero_le _
  unread := rfl
  waits := rfl
  faithful := List.prefix_rfl

/-- What was performed is what was answered, and perhaps the one operation
whose reply the client waits for; all it has to read are bytes of this
reply. -/
theorem Conversation.pending
    (h : Conversation py py' past net k inputs asks) :
    ∃ first last, performed k past = first ++ last ∧
      (answered k past).map some =
        first.map (fun call => understood py' call.2) ∧
      (net.callers k).buffer <+: repliesOf last ∧
      last.length ≤ (net.callers k).waiting.toNat := by
  obtain ⟨hfirst, hwritten⟩ := h.inOrder
  refine ⟨_, _, (List.take_append_drop (answered k past).length _).symm,
    ?_, ?_, ?_⟩
  · have htake := List.prefix_iff_eq_take.mp h.faithful
    rwa [List.length_map, ← List.map_take] at htake
  · have hread := List.take_prefix (net.callers k).received
      (net.server.tasks k).written
    rw [h.unread, hwritten] at hread
    nth_rewrite 2 [← List.take_append_drop (answered k past).length
      (performed k past)] at hread
    have hall : repliesOf ((performed k past).take (answered k past).length ++
        (performed k past).drop (answered k past).length) =
      repliesOf ((performed k past).take (answered k past).length) ++
        repliesOf ((performed k past).drop (answered k past).length) :=
      List.flatMap_append
    rw [hall] at hread
    exact (List.prefix_append_right_inj _).mp hread
  · have hlength := hfirst.length_le
    rw [List.length_map, List.length_map, h.waits] at hlength
    rw [List.length_drop]
    omega

/-- What happens on other connections. -/
theorem Conversation.elsewhere
    (h : Conversation py py' past net k inputs asks) {more : Chronicle}
    {net' : Network J} (hserver : net'.server = net.server)
    (hcaller : net'.callers k = net.callers k)
    (hasked : History.asked k more = [])
    (hperformed : performed k more = []) (hanswered : answered k more = []) :
    Conversation py py' (past ++ more) net' k inputs asks := by
  obtain ⟨hkeeps, hasks, hvalid, hsent, hcome, hunread, hwaits, hfaithful⟩ := h
  constructor
  · rwa [performed_append, hperformed, List.append_nil, hserver]
  · rwa [asked_append, hasked, List.append_nil]
  · exact hvalid
  · rwa [hcaller]
  · rwa [hcaller, hserver]
  · rwa [performed_append, answered_append, hperformed, hanswered,
      List.append_nil, List.append_nil, hcaller, hserver]
  · rwa [answered_append, hanswered, List.append_nil, hcaller]
  · rwa [performed_append, answered_append, hperformed, hanswered,
      List.append_nil, List.append_nil]

/-- The client has read the same in both states. -/
structure SameReading (c c' : Caller) : Prop where
  received : c'.received = c.received
  buffer : c'.buffer = c.buffer
  waiting : c'.waiting = c.waiting

theorem sameReading_refl (c : Caller) : SameReading c c :=
  ⟨rfl, rfl, rfl⟩

/-- The server does something, perhaps with bytes of this client. -/
theorem Conversation.served [Journal J]
    (h : Conversation py py' past net k inputs asks)
    (action : Server.Action) (net' : Network J)
    (hserver : net'.server = ((Server.loop J py).step net.server action).2)
    (hcaller : SameReading (net.callers k) (net'.callers k))
    (hsent : Sent (inputs ++ EventLoop.heard k [action])
      (net'.callers k).outgoing (asks.flatMap Demo.frame)) :
    Conversation py py'
      (past ++ ((Server.loop J py).step net.server action).1.map .performed)
      net' k (inputs ++ EventLoop.heard k [action]) asks := by
  obtain ⟨hreceived, hbuffer, hwaiting⟩ := hcaller
  have hloop : (Server.loop J py).Guarantee (Keeps py) :=
    Server.guarantee_keeps py
  have hkeeps := hloop.step action h.keeps
  rw [← hserver] at hkeeps
  obtain ⟨hfirst, hwritten⟩ := h.inOrder
  have hperformed : performed k (past ++
      (((Server.loop J py).step net.server action).1.map .performed :
        Chronicle)) = performed k past ++
      EventLoop.called k ((Server.loop J py).step net.server action).1 := by
    rw [performed_append, performed_performed]
  have hanswered : answered k (past ++
      (((Server.loop J py).step net.server action).1.map .performed :
        Chronicle)) = answered k past := by
    rw [answered_append, answered_performed, List.append_nil]
  rw [← hperformed] at hkeeps
  have hsent' := hsent
  obtain ⟨lost, hall, -⟩ := hsent
  obtain ⟨-, hwritten'⟩ := keeps_of_frames hkeeps h.valid hall
  have hmore : (net'.server.tasks k).written =
      (net.server.tasks k).written ++ repliesOf
        (EventLoop.called k ((Server.loop J py).step net.server action).1) := by
    rw [hwritten', hperformed, hwritten]
    exact List.flatMap_append
  have hcount : (answered k past).length ≤ (performed k past).length := by
    have hle := h.faithful.length_le
    rwa [List.length_map, List.length_map] at hle
  constructor
  · exact hkeeps
  · rw [asked_append, asked_performed, List.append_nil]
    exact h.asked
  · exact h.valid
  · exact hsent'
  · rw [hreceived, hmore, List.length_append]
    exact Nat.le_add_right_of_le h.come
  · rw [hreceived, hbuffer, hmore, hperformed, hanswered,
      List.take_append_of_le_length h.come,
      List.take_append_of_le_length hcount]
    exact h.unread
  · rw [hanswered, hwaiting]
    exact h.waits
  · rw [hanswered, hperformed, List.map_append]
    exact h.faithful.trans (List.prefix_append _ _)

/-- The client calls. -/
theorem Conversation.ask
    (h : Conversation py py' past net k inputs asks) {args : List Bytes}
    (hargs : ValidRequest args) (hwaiting : (net.callers k).waiting = false) :
    Conversation py py' (past ++ [.asked k (.request args)])
      (net.assign k
        { net.callers k with
          outgoing := (net.callers k).outgoing ++ Demo.frame args
          waiting := true }) k inputs (asks ++ [args]) := by
  have hperformed : performed k (past ++ [.asked k (.request args)]) =
      performed k past := by
    rw [performed_append]
    exact List.append_nil _
  have hanswered : answered k (past ++ [.asked k (.request args)]) =
      answered k past := by
    rw [answered_append]
    exact List.append_nil _
  constructor
  · rw [hperformed]
    exact h.keeps
  · rw [asked_append, h.asked, List.map_append]
    simp [History.asked]
  · intro a ha
    rcases List.mem_append.mp ha with hold | hnew
    · exact h.valid a hold
    · rw [List.mem_singleton.mp hnew]
      exact hargs
  · have hsent := h.sent.ask (Demo.frame args)
    simpa [assign] using hsent
  · simpa [assign] using h.come
  · rw [hperformed, hanswered]
    simpa [assign] using h.unread
  · have hwaits := h.waits
    rw [hwaiting] at hwaits
    rw [hanswered]
    simpa [assign] using hwaits
  · rw [hperformed, hanswered]
    exact h.faithful

/-- Bytes of the server reach the client. -/
theorem Conversation.receive
    (h : Conversation py py' past net k inputs asks) {bytes : Bytes}
    (hbytes : bytes <+:
      (net.server.tasks k).written.drop (net.callers k).received) :
    Conversation py py' past
      (net.assign k
        { net.callers k with
          received := (net.callers k).received + bytes.length
          buffer := (net.callers k).buffer ++ bytes }) k inputs asks := by
  constructor
  · exact h.keeps
  · exact h.asked
  · exact h.valid
  · simpa [assign] using h.sent
  · have hlength := hbytes.length_le
    rw [List.length_drop] at hlength
    have hcome := h.come
    simp only [assign, Function.update_self]
    omega
  · have htake := List.prefix_iff_eq_take.mp hbytes
    simp only [assign, Function.update_self]
    rw [List.take_add, h.unread, ← htake, List.append_assoc]
  · simpa [assign] using h.waits
  · exact h.faithful

/-- **A call returns** what the server answered to it. -/
theorem Conversation.answer
    (h : Conversation py py' past net k inputs asks)
    (hframes : ∀ call ∈ performed k past, OneFrame (replyBytes call.2))
    {a : Demo.Answer} {rest : Bytes}
    (hwaiting : (net.callers k).waiting = true)
    (hread : Demo.readReply py' (net.callers k).buffer = .done a rest) :
    Conversation py py' (past ++ [.answered k a])
      (net.assign k
        { net.callers k with buffer := rest, waiting := false })
      k inputs asks := by
  have hperformed : performed k (past ++ [.answered k a]) =
      performed k past := by
    rw [performed_append]
    exact List.append_nil _
  have hanswered : answered k (past ++ [.answered k a]) =
      answered k past ++ [a] := by
    rw [answered_append]
    simp [History.answered]
  obtain ⟨first, last, hsplit, hfirst, hbuffer, hlength⟩ := h.pending
  have hnil : Demo.readReply py' [] = .more := rfl
  obtain ⟨call, rfl⟩ : ∃ call, last = [call] := by
    cases last with
    | nil =>
        have hempty : (net.callers k).buffer = [] := List.prefix_nil.mp hbuffer
        rw [hempty, hnil] at hread
        cases hread
    | cons call last =>
        rw [hwaiting] at hlength
        refine ⟨call, ?_⟩
        rw [List.eq_nil_of_length_eq_zero
          (Nat.le_zero.mp (Nat.le_of_succ_le_succ hlength))]
  have hone : repliesOf [call] = replyBytes call.2 := List.append_nil _
  rw [hone] at hbuffer
  obtain ⟨q, hq⟩ := hbuffer
  have hframe := hframes call (by rw [hsplit]; simp)
  have htakes : Demo.TakesAll (Demo.readReply py') (replyBytes call.2) :=
    Demo.takesAll_of_oneFrame hframe
  obtain ⟨rfl, rfl⟩ := htakes.whole hq hread
  rw [List.append_nil] at hq
  have hcount : (answered k past).length = first.length := by
    have hsame := congrArg List.length hfirst
    rwa [List.length_map, List.length_map] at hsame
  have hanswer : understood py' call.2 = some a := by
    rw [hq] at hread
    exact understood_of_done hread
  constructor
  · rw [hperformed]
    exact h.keeps
  · rw [asked_append]
    exact (List.append_nil _).trans h.asked
  · exact h.valid
  · simpa [assign] using h.sent
  · simpa [assign] using h.come
  · have hunread := h.unread
    rw [hsplit, hcount, List.take_left, hq, ← hone] at hunread
    rw [hperformed, hanswered, hsplit, List.length_append, hcount]
    simp only [assign, Function.update_self, hunread]
    rw [List.take_of_length_le (by simp), List.append_nil]
    exact List.flatMap_append.symm
  · have hwaits := h.waits
    rw [hwaiting] at hwaits
    rw [hanswered]
    simpa [assign] using hwaits
  · rw [hperformed, hanswered, hsplit, List.map_append, List.map_append, hfirst]
    simp [hanswer]

end Conversations

section Runs

open History

variable {J : Type} [Journal J] {py py' : Interpreter}
variable {s : KeyValueStore × J} {past : Chronicle} {net net' : Network J}

/-- What a run keeps. -/
structure Sound (py py' : Interpreter) (s : KeyValueStore × J)
    (past : Chronicle) (net : Network J) : Prop where
  linear : Linearizable
    (fun event state => (Server.handle py event).run state)
    (understood py') s past net.server.shared
  each : ∀ k, ∃ inputs asks, Conversation py py' past net k inputs asks

theorem sound_start (py py' : Interpreter) (store : KeyValueStore)
    (journal : J) :
    Sound py py' (store, journal) [] (start store journal) where
  linear := linearizable_nil _ _ _
  each k := ⟨[], [], conversation_start py py' store journal k⟩

theorem Sound.oneFrame (h : Sound py py' s past net) {k : Nat}
    {call : Server.Event × Reply} (hcall : call ∈ performed k past) :
    OneFrame (replyBytes call.2) := by
  obtain ⟨inputs, asks, hk⟩ := h.each k
  have hasked := hk.inOrder.1.subset (List.mem_map_of_mem hcall)
  obtain ⟨args, -, hargs⟩ := List.mem_map.mp hasked
  have hevent : call = (.request args, call.2) := Prod.ext hargs.symm rfl
  rw [hevent] at hcall
  exact oneFrame_of_serial h.linear.serial hcall

/-- Nothing is performed. -/
theorem Sound.quiet (h : Sound py py' s past net) {more : Chronicle}
    (hone : more.length ≤ 1) (hnone : effects more = [])
    (hshared : net'.server.shared = net.server.shared)
    (heach : ∀ k, ∃ inputs asks,
      Conversation py py' (past ++ more) net' k inputs asks) :
    Sound py py' s (past ++ more) net' where
  linear := by
    refine h.linear.extend hone ?_ fun k => ?_
    · rw [hnone, hshared]
      exact .nil _
    · obtain ⟨inputs, asks, hk⟩ := heach k
      exact hk.proper
  each := heach

/-- The server does something. -/
theorem Sound.serve (h : Sound py py' s past net) (action : Server.Action)
    (hserver : net'.server = ((Server.loop J py).step net.server action).2)
    (hcallers : ∀ k, SameReading (net.callers k) (net'.callers k))
    (hsent : ∀ k inputs stream,
      Sent inputs (net.callers k).outgoing stream →
        Sent (inputs ++ EventLoop.heard k [action])
          (net'.callers k).outgoing stream) :
    Sound py py' s
      (past ++ ((Server.loop J py).step net.server action).1.map .performed)
      net' := by
  have heach : ∀ k, ∃ inputs asks, Conversation py py'
      (past ++ ((Server.loop J py).step net.server action).1.map .performed)
      net' k inputs asks := by
    intro k
    obtain ⟨inputs, asks, hk⟩ := h.each k
    exact ⟨_, _, hk.served action net' hserver (hcallers k)
      (hsent k _ _ hk.sent)⟩
  refine ⟨h.linear.extend ?_ ?_ fun k => ?_, heach⟩
  · rw [List.length_map]
    exact EventLoop.length_step_le _ _ _
  · rw [effects_performed, hserver]
    exact EventLoop.serial_step (Server.loop J py) net.server action
  · obtain ⟨inputs, asks, hk⟩ := heach k
    exact hk.proper

theorem callers_deliver (net : Network J) (k n : Nat) :
    (net.step py py' (.deliver k n)).2.callers =
      Function.update net.callers k
        { net.callers k with outgoing := (net.callers k).outgoing.drop n } := by
  rfl

theorem Sound.step (h : Sound py py' s past net) (action : Action) :
    Sound py py' s (past ++ (net.step py py' action).1)
      (net.step py py' action).2 := by
  have hstill : Sound py py' s (past ++ []) net := by
    rwa [List.append_nil]
  cases action with
  | ask k args =>
      simp only [Network.step]
      split_ifs with hguard
      · exact hstill
      · simp only [Bool.or_eq_true, Bool.not_eq_true', not_or,
          Bool.not_eq_true, Bool.not_eq_false] at hguard
        obtain ⟨hwaiting, hargs⟩ := hguard
        refine h.quiet le_rfl rfl rfl fun j => ?_
        obtain ⟨inputs, asks, hj⟩ := h.each j
        by_cases hjk : j = k
        · subst hjk
          exact ⟨_, _, hj.ask (permitted_iff.mp hargs) hwaiting⟩
        · refine ⟨inputs, asks, hj.elsewhere rfl ?_ ?_ rfl rfl⟩
          · exact Function.update_of_ne hjk _ _
          · simp [History.asked, Ne.symm hjk]
  | deliver k n =>
      refine h.serve (.hear k (.data ((net.callers k).outgoing.take n))) rfl
        (fun j => ?_) fun j inputs stream hsent => ?_
      · by_cases hjk : j = k
        · subst hjk
          rw [callers_deliver, Function.update_self]
          exact ⟨rfl, rfl, rfl⟩
        · rw [callers_deliver, Function.update_of_ne hjk]
          exact sameReading_refl _
      · by_cases hjk : j = k
        · subst hjk
          rw [callers_deliver, Function.update_self]
          simpa [EventLoop.heard] using hsent.data n
        · rw [callers_deliver, Function.update_of_ne hjk]
          simpa [EventLoop.heard, Ne.symm hjk] using hsent
  | receive k n =>
      refine h.quiet (Nat.zero_le _) rfl rfl fun j => ?_
      obtain ⟨inputs, asks, hj⟩ := h.each j
      by_cases hjk : j = k
      · subst hjk
        have hreceived := hj.receive (List.take_prefix n _)
        rw [← List.append_nil past] at hreceived
        exact ⟨inputs, asks, hreceived⟩
      · refine ⟨inputs, asks, hj.elsewhere rfl ?_ rfl rfl rfl⟩
        exact Function.update_of_ne hjk _ _
  | answer k =>
      simp only [Network.step]
      cases hwaiting : (net.callers k).waiting with
      | false =>
          exact hstill
      | true =>
          cases hread : Demo.readReply py' (net.callers k).buffer with
          | more =>
              exact hstill
          | fail e =>
              exact hstill
          | done a rest =>
              refine h.quiet le_rfl rfl rfl fun j => ?_
              obtain ⟨inputs, asks, hj⟩ := h.each j
              by_cases hjk : j = k
              · subst hjk
                exact ⟨_, _, hj.answer (fun _ => h.oneFrame) hwaiting hread⟩
              · refine ⟨inputs, asks, hj.elsewhere rfl ?_ rfl rfl ?_⟩
                · exact Function.update_of_ne hjk _ _
                · simp [History.answered, Ne.symm hjk]
  | serve action =>
      cases action with
      | hear k input =>
          by_cases hdata : ∃ bytes, input = .data bytes
          · obtain ⟨bytes, rfl⟩ := hdata
            exact hstill
          · have hclosed : ∀ bytes, input ≠ .data bytes :=
              fun bytes hbytes => hdata ⟨bytes, hbytes⟩
            have hstep : net.step py py' (.serve (.hear k input)) =
                net.serve py (.hear k input) := by
              cases input with
              | data bytes =>
                  exact absurd rfl (hclosed bytes)
              | _ =>
                  rfl
            rw [hstep]
            refine h.serve (.hear k input) rfl (fun _ => sameReading_refl _)
              fun j inputs stream hsent => ?_
            by_cases hjk : j = k
            · subst hjk
              simpa [EventLoop.heard, Network.serve] using hsent.closed hclosed
            · simpa [EventLoop.heard, Network.serve, Ne.symm hjk] using hsent
      | wake k =>
          exact h.serve (.wake k) rfl (fun _ => sameReading_refl _)
            fun _ _ _ hsent => by
              simpa [EventLoop.heard, Network.step, Network.serve] using hsent
      | background event =>
          exact h.serve (.background event) rfl (fun _ => sameReading_refl _)
            fun _ _ _ hsent => by
              simpa [EventLoop.heard, Network.step, Network.serve] using hsent

theorem Sound.run (h : Sound py py' s past net) (actions : List Action) :
    Sound py py' s (past ++ (net.run py py' actions).1)
      (net.run py py' actions).2 := by
  induction actions generalizing past net with
  | nil =>
      simpa [run] using h
  | cons action actions ih =>
      have hrest := ih (h.step action)
      rw [List.append_assoc] at hrest
      exact hrest

/-- **One server for all.**  Whatever the clients ask and whenever, however
their bytes travel, and whatever else happens on the server: the operations
act on the store and the journal one after another, and every client gets, in
its own order, the answers to its own calls as they were performed.  A call
that returned before another one began took effect before it. -/
theorem calls_take_effect_at_once (py py' : Interpreter)
    (store : KeyValueStore) (journal : J) (actions : List Action) :
    Linearizable (fun event state => (Server.handle py event).run state)
        (understood py') (store, journal)
        ((start store journal).run py py' actions).1
        ((start store journal).run py py' actions).2.server.shared ∧
      ∀ past, past <+: ((start store journal).run py py' actions).1 →
        ∃ before after,
          effects ((start store journal).run py py' actions).1 =
            before ++ after ∧
          ∀ k, (answered k past).length ≤ (EventLoop.called k before).length ∧
            (EventLoop.called k before).length ≤
              (History.asked k past).length := by
  have hlinear := ((sound_start py py' store journal).run actions).linear
  rw [List.nil_append] at hlinear
  exact ⟨hlinear, fun past hpast => hlinear.real_time hpast⟩

end Runs

section Progress

open History

variable {J : Type} {py py' : Interpreter}
variable {s : KeyValueStore × J} {past : Chronicle} {net : Network J}
variable {k : Nat} {inputs : List Arrival} {asks : List (List Bytes)}

/-- A session at rest has performed everything that was asked, once all of it
has arrived. -/
theorem Conversation.caught_up
    (h : Conversation py py' past net k inputs asks) (hopen : Open inputs)
    (hout : (net.callers k).outgoing = [])
    (hidle : Idle py (net.server.tasks k)) :
    (performed k past).length = asks.length := by
  have hcut : ¬ CutOff inputs := by
    rintro (hreset | hsevered)
    · obtain ⟨bytes, hbytes⟩ := hopen _ hreset
      cases hbytes
    · obtain ⟨bytes, hbytes⟩ := hopen _ hsevered
      cases hbytes
  obtain ⟨commands, front, hbehind, hnone, -⟩ := h.keeps.idle hidle hcut
  have harrives := hbehind.arrives [] (Or.inr rfl)
  rw [List.append_nil, List.append_nil] at harrives
  obtain ⟨lost, hsent, hlost⟩ := h.sent
  rw [hout, hlost hopen] at hsent
  obtain ⟨later, hasks, hfront⟩ := arrives_of_frames harrives h.valid hsent
  have hcalls := congrArg List.length hbehind.calls
  rw [requests_eq_self fun args hargs => h.valid args
    (by rw [hasks]; exact List.mem_append_left _ hargs), List.length_map,
    List.length_map] at hcalls
  cases later with
  | nil =>
      rw [hcalls, hasks, List.append_nil]
  | cons args later =>
      -- A request would be there in full.
      have hargs := h.valid args (by rw [hasks]; simp)
      simp only [List.append_nil] at hfront
      have hread := readCommand_frame py hargs
        (later.flatMap Demo.frame)
      rw [← List.flatMap_cons, ← hfront] at hread
      exact absurd (congrArg Prod.fst hread) (hnone args)

/-- **A session at rest** has written the reply that a client waits for. -/
theorem Conversation.reply_written
    (h : Conversation py py' past net k inputs asks) (hopen : Open inputs)
    (hframes : ∀ call ∈ performed k past, OneFrame (replyBytes call.2))
    (hwaiting : (net.callers k).waiting = true)
    (hout : (net.callers k).outgoing = [])
    (hidle : Idle py (net.server.tasks k)) :
    Demo.readReply py' ((net.callers k).buffer ++
      (net.server.tasks k).written.drop (net.callers k).received) ≠
        .more := by
  have hcount := h.caught_up hopen hout hidle
  have hwaits := h.waits
  rw [hwaiting] at hwaits
  obtain ⟨first, last, hsplit, hfirst, -, -⟩ := h.pending
  have hsame := congrArg List.length hfirst
  rw [List.length_map, List.length_map] at hsame
  have hlast : last.length = 1 := by
    rw [hsplit, List.length_append, hwaits, hsame] at hcount
    exact Nat.add_left_cancel hcount
  obtain ⟨call, rfl⟩ := List.length_eq_one_iff.mp hlast
  have hall : (net.callers k).buffer ++
      (net.server.tasks k).written.drop (net.callers k).received =
        replyBytes call.2 := by
    have hwritten := (List.take_append_drop (net.callers k).received
      (net.server.tasks k).written).trans h.inOrder.2
    rw [h.unread, hsplit, hsame, List.take_left, List.append_assoc] at hwritten
    have hsplit' : repliesOf (first ++ [call]) =
        repliesOf first ++ (replyBytes call.2 ++ []) := List.flatMap_append
    rw [hsplit', List.append_nil] at hwritten
    exact List.append_cancel_left hwritten
  have hframe := hframes call (by rw [hsplit]; simp)
  have htakes : Demo.TakesAll (Demo.readReply py') (replyBytes call.2) :=
    Demo.takesAll_of_oneFrame hframe
  rw [hall]
  exact htakes.ends

variable [Journal J]

/-- Turns of the session change nothing on the side of the client. -/
theorem Conversation.wakes (turns : Nat) :
    ∀ {past : Chronicle} {net : Network J},
      Conversation py py' past net k inputs asks →
      Conversation py py'
        (past ++ (net.run py py'
          (List.replicate turns (.serve (.wake k)))).1)
        (net.run py py' (List.replicate turns (.serve (.wake k)))).2 k
        inputs asks ∧
      (net.run py py' (List.replicate turns (.serve (.wake k)))).2.callers =
        net.callers ∧
      (net.run py py' (List.replicate turns (.serve (.wake k)))).2.server =
        ((Server.loop J py).run net.server
          (List.replicate turns (.wake k))).2 := by
  induction turns with
  | zero =>
      intro past net h
      refine ⟨?_, rfl, rfl⟩
      simpa [Network.run] using h
  | succ turns ih =>
      intro past net h
      have hnone : EventLoop.heard k [(.wake k : Server.Action)] = [] := rfl
      have hfirst := h.served (.wake k)
        (net.step py py' (.serve (.wake k))).2 rfl
        (sameReading_refl _) (by
          rw [hnone, List.append_nil]
          exact h.sent)
      rw [hnone, List.append_nil] at hfirst
      obtain ⟨hrest, hcallers, hserver⟩ := ih hfirst
      rw [List.append_assoc] at hrest
      exact ⟨hrest, hcallers, hserver⟩

/-- What takes a call to its end: its bytes reach the server, its session is
resumed, and the reply comes back. -/
def alone (k bytes turns n : Nat) : List Action :=
  .deliver k bytes ::
    (List.replicate turns (.serve (.wake k)) ++ [.receive k n])

theorem run_append (net : Network J) (actions later : List Action) :
    (net.run py py' (actions ++ later)).2 =
      ((net.run py py' actions).2.run py py' later).2 := by
  induction actions generalizing net with
  | nil =>
      rfl
  | cons action actions ih =>
      exact ih _

theorem Sound.ends (h : Sound py py' s past net)
    (hwaiting : (net.callers k).waiting = true)
    (heof : (net.server.tasks k).eof = false)
    (hreset : (net.server.tasks k).reset = false) :
    ∃ bytes turns n, Demo.readReply py'
      ((net.run py py' (alone k bytes turns n)).2.callers k).buffer ≠
        .more := by
  obtain ⟨inputs, asks, hk⟩ := h.each k
  have hopen := hk.keeps.remembers.open_iff.mpr ⟨heof, hreset⟩
  -- Everything that the client has sent arrives.
  obtain ⟨bytes, hbytes⟩ : ∃ n, n = (net.callers k).outgoing.length :=
    ⟨_, rfl⟩
  obtain ⟨sentNet, hsentNet⟩ :
      ∃ net', net' = (net.step py py' (.deliver k bytes)).2 := ⟨_, rfl⟩
  have hcaller : sentNet.callers k =
      { net.callers k with outgoing := [] } := by
    rw [hsentNet, callers_deliver, Function.update_self, hbytes,
      List.drop_length]
  have hsent := hk.served
    (.hear k (.data ((net.callers k).outgoing.take bytes))) sentNet
    (by rw [hsentNet]; rfl) (by rw [hcaller]; exact ⟨rfl, rfl, rfl⟩)
    (by
      have hdata := hk.sent.data bytes
      rw [hbytes, List.drop_length] at hdata
      rw [hcaller, hbytes]
      simpa [EventLoop.heard] using hdata)
  have hheard : EventLoop.heard k [(.hear k
      (.data ((net.callers k).outgoing.take bytes)) : Server.Action)] =
      [.data ((net.callers k).outgoing.take bytes)] := by
    simp [EventLoop.heard]
  rw [hheard] at hsent
  -- As many turns as there is work bring the session to rest.
  obtain ⟨turns, hturns⟩ :
      ∃ n, (sentNet.server.tasks k).work ≤ n := ⟨_, le_rfl⟩
  obtain ⟨hrest, hcallers, hserver⟩ := hsent.wakes turns
  have hsound := (h.step (.deliver k bytes)).run
    (List.replicate turns (.serve (.wake k)))
  rw [← hsentNet] at hsound
  obtain ⟨doneNet, hdoneNet⟩ : ∃ net', net' =
      (sentNet.run py py' (List.replicate turns (.serve (.wake k)))).2 :=
    ⟨_, rfl⟩
  rw [← hdoneNet] at hrest hcallers hserver hsound
  have hthere := hrest.reply_written
    (open_concat.mpr ⟨hopen, _, rfl⟩) (fun _ => hsound.oneFrame)
    (by rw [hcallers, hcaller]; exact hwaiting)
    (by rw [hcallers, hcaller])
    (by
      rw [hserver]
      exact Server.idle_of_wakes turns _ (Or.inr hturns))
  -- The reply comes back.
  refine ⟨bytes, turns, (doneNet.server.tasks k).written.length, ?_⟩
  have hrun : (net.run py py' (alone k bytes turns
      (doneNet.server.tasks k).written.length)).2 =
      (doneNet.step py py'
        (.receive k (doneNet.server.tasks k).written.length)).2 := by
    rw [hdoneNet, hsentNet]
    exact run_append _ _ _
  rw [hrun]
  simp only [Network.step, assign, Function.update_self]
  rw [List.take_of_length_le (by simp)]
  exact hthere

/-- **No call waits for another client.**  Whatever has happened, a call that
waits on a connection that stands comes to its end when its own bytes and its
own session move, without any other client. -/
theorem no_call_waits_for_others (py py' : Interpreter)
    (store : KeyValueStore) (journal : J) (actions : List Action) (k : Nat)
    (hwaiting : (((start store journal).run py py' actions).2.callers
      k).waiting = true)
    (heof : (((start store journal).run py py' actions).2.server.tasks
      k).eof = false)
    (hreset : (((start store journal).run py py' actions).2.server.tasks
      k).reset = false) :
    ∃ bytes turns n, Demo.readReply py'
      ((((start store journal).run py py' actions).2.run py py'
        (alone k bytes turns n)).2.callers k).buffer ≠ .more :=
  ((sound_start py py' store journal).run actions).ends hwaiting heof hreset

/-- One client has sent half of its request, another one has called. -/
def halfAndWhole : List Action :=
  [.ask 0 [ascii "SET", ascii "a", ascii "1"], .deliver 0 9,
    .serve (.wake 0), .ask 1 [ascii "GET", ascii "a"]]

theorem whole_request_ends :
    ∃ bytes turns n, Demo.readReply .default
      ((((start (KeyValueStore.init (.frozen 0) 0 .noeviction)
          (⟨⟩ : NullJournal)).run .default .default halfAndWhole).2.run
        .default .default (alone 1 bytes turns n)).2.callers 1).buffer ≠
          .more :=
  no_call_waits_for_others .default .default
    (KeyValueStore.init (.frozen 0) 0 .noeviction) (⟨⟩ : NullJournal)
    halfAndWhole 1
    (by decide +kernel) (by decide +kernel) (by decide +kernel)

end Progress

end Network

end PyRedis
