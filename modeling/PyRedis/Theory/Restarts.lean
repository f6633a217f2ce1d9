import PyRedis.Theory.BoundedServer
import PyRedis.Theory.CrashReference

/-!
# Killed and started again

A server with a log may be killed at any moment, also in the middle of the
records of a request, and be started again on the file it leaves, any number
of times.  As long as no call of the operating system fails, it answers as the
bounded machine may that has survived: a restart shows nothing but what became
of the request that was cut short.
-/

namespace PyRedis
namespace Server

open Foundation Commands KeyValueStore Aof AppendOnlyFile

variable {outcomes : Nat → IoOutcome} {content : Bytes} {fs : List Write}
variable {maxmemory now : Int} {policy : MaxmemoryPolicy}
variable {s : KeyValueStore} {j : AppendOnlyFile} {m : Reference}

section Stories

/-- The file that is left when the process is killed. -/
def Outage.leaves (py : Interpreter) (state : KeyValueStore × AppendOnlyFile)
    (o : Outage) : Bytes :=
  match o.inFlight with
  | none => state.2.file.content
  | some parts =>
      (turn py state ⟨o.now, .request parts⟩).2.2.file.content.take
        (state.2.file.content.length + o.left)

variable (py : Interpreter) (fsync : FsyncPolicy)
variable (outcomes : Nat → IoOutcome) (maxmemory : Int)
variable (policy : MaxmemoryPolicy)

/-- A new process on what an old one has left. -/
def restart (now : Int) (content : Bytes) :
    Except Exc (KeyValueStore × AppendOnlyFile) :=
  recover py fsync outcomes (init (.frozen now) maxmemory policy)
    (LogFile.intact content)

/-- The replies along a story, or the exception with which a process could not
start. -/
def outlive (state : KeyValueStore × AppendOnlyFile) :
    List Incident → Except Exc (List (Except Exc (Option Bytes)))
  | [] => .ok []
  | .moment m :: story =>
      (outlive (turn py state m).2 story).map ((turn py state m).1 :: ·)
  | .outage o :: story =>
      (restart py fsync outcomes maxmemory policy o.wake
        (o.leaves py state)).bind fun state => outlive state story

end Stories

section Durability

/-- A working server within its limit: the file is a log of facts, from which
a new process would get what the machine holds. -/
structure Durable (outcomes : Nat → IoOutcome) (maxmemory : Int)
    (policy : MaxmemoryPolicy) (now : Int) (content : Bytes)
    (fs : List Write) (state : KeyValueStore × AppendOnlyFile)
    (m : Reference) : Prop where
  within : MatchesWithin maxmemory policy now state.1 m
  working : Working outcomes content state.2
  log : LogOf .exact content fs []
  agree : AgreeAt now state.1.keyspace (replay fs fun _ => none)

/-- A journal none of whose calls fails takes every record. -/
theorem accepting_working (hcalls : ¬ CallFails outcomes) :
    Accepting fun j => ∃ content, Working outcomes content j where
  works := by
    rintro j ⟨content, hworking⟩
    exact hworking.working
  append := by
    rintro j record ⟨content, hworking⟩
    have hwrites := AppendOnlyFile.append_run hworking record
    have happend : (Journal.append record : Fallible Exc AppendOnlyFile Unit) =
        AppendOnlyFile.append record := rfl
    rw [happend]
    generalize (AppendOnlyFile.append record).run j = result at hwrites
    cases hwrites with
    | @taken j' htaken =>
        exact ⟨j', rfl, _, htaken⟩
    | failed _ hcall _ =>
        exact absurd hcall hcalls

/-- Facts that a store took, by now, show what they make of what it showed. -/
theorem agree_evolve {t : KeyValueStore} {r : TimedMap Bytes Bytes Int}
    {facts : List Write} (hs : StandsAt now s) (he : Evolves s facts t)
    (h : AgreeAt now s.keyspace r) :
    AgreeAt now t.keyspace (replay facts r) ∧
      ∀ n, AgreeAt now (replay (facts.take n) s.keyspace)
        (replay (facts.take n) r) := by
  have hreached : t.clock.Reached now := by
    intro i _
    rw [he.clock.readings, hs]
  have hground := he.grounded
  rw [hs.now_eq] at hground
  refine ⟨?_, fun n => h.replay h (hground.take n)⟩
  exact (he.collected now hreached).agreeAt.trans (h.replay h hground)

/-- Time goes by. -/
theorem agree_later {r q : TimedMap Bytes Bytes Int} (h : AgreeAt now r q)
    {later : Int} (hle : now ≤ later) : AgreeAt later r q := by
  rw [agreeAt_iff] at h ⊢
  intro k
  have hk := congrArg (liveEntry later) (h k)
  rwa [liveEntry_idem hle, liveEntry_idem hle] at hk

/-- What an event asks for, at its time. -/
abbrev askedAt (s : KeyValueStore) (moment : Moment) : List Write :=
  asked .exact (s.atClock (.frozen moment.now)) moment.event

theorem readable_exact (event : Event) :
    ReadableEvent Interpreter.exact event := by
  cases event with
  | request parts =>
      exact readableRequest_exact parts
  | _ =>
      trivial

theorem Durable.serving
    (h : Durable outcomes maxmemory policy now content fs (s, j) m)
    (clock : Clock) : Serving .exact (s.atClock clock) :=
  ⟨h.within.resting.exact.atClock _, h.within.resting.drained,
    fun k e _ => readableEntry_exact k e⟩

/-- **One event**, and the log afterwards. -/
theorem Durable.event
    (h : Durable outcomes maxmemory policy now content fs (s, j) m)
    (hcalls : ¬ CallFails outcomes) (moment : Moment) :
    Step .exact (s.atClock (.frozen moment.now)) (askedAt s moment)
        (turn .exact (s, j) moment).2.1 ∧
      Working outcomes (content ++ encodeFacts (askedAt s moment))
        (turn .exact (s, j) moment).2.2 := by
  have hserving := h.serving (.frozen moment.now)
  have hstep : Step .exact (s.atClock (.frozen moment.now))
      (askedAt s moment)
      (onward .exact (s.atClock (.frozen moment.now)) moment.event) :=
    step_event hserving (fun _ => reads_exact _) (readable_exact _)
  obtain ⟨result, hstore, hwrites⟩ := @handle_of_working .exact _ _ _ _
    h.working hserving.exact moment.event
  constructor
  · have hturn : (turn .exact (s, j) moment).2.1 =
        onward .exact (s.atClock (.frozen moment.now)) moment.event := hstore
    rw [hturn]
    exact hstep
  · have hturn : (turn .exact (s, j) moment).2.2 =
        ((handle .exact moment.event).run
          (s.atClock (.frozen moment.now), j)).2.2 := rfl
    rw [hturn]
    generalize ((handle .exact moment.event).run
      (s.atClock (.frozen moment.now), j)).2.2 = j' at hwrites
    cases hwrites with
    | taken htaken =>
        exact htaken
    | failed _ hcall _ =>
        exact absurd hcall hcalls

/-- The machine moves on with the server. -/
theorem Durable.next
    (h : Durable outcomes maxmemory policy now content fs (s, j) m)
    (hcalls : ¬ CallFails outcomes) (moment : Moment)
    (hle : now ≤ moment.now) {m' : Reference}
    (hwithin : MatchesWithin maxmemory policy moment.now
      (turn .exact (s, j) moment).2.1 m') :
    Durable outcomes maxmemory policy moment.now
      (content ++ encodeFacts (askedAt s moment)) (fs ++ askedAt s moment)
      (turn .exact (s, j) moment).2 m' where
  within := hwithin
  working := (h.event hcalls moment).2
  log := h.log.append (h.event hcalls moment).1.facts
  agree := by
    have hstands : StandsAt moment.now (s.atClock (.frozen moment.now)) := rfl
    rw [replay_append]
    exact (agree_evolve hstands (h.event hcalls moment).1.evolves
      (agree_later h.agree hle)).1

end Durability

section Cuts

variable {parts : List Bytes} {later : Int}

/-- What is left of a request are the first of its facts: none, all, or the
removals of the first of its victims. -/
theorem cutShort_of_reports {p : Plan} {r : TimedMap Bytes Bytes Int}
    {facts : List Write} {reply : Bytes} {m' : Reference}
    (hr : AgreeAt now r m.lookup)
    (hallows : Reference.Allows maxmemory policy now m p (reply, m'))
    (hall : AgreeAt now (replay facts r) m'.lookup)
    (hreports : Reports maxmemory policy now m p facts) (n : Nat) :
    ∃ left, Reference.CutShort maxmemory policy now m p left ∧
      AgreeAt now (replay (facts.take n) r) left.lookup := by
  by_cases hn : facts.length ≤ n
  · rw [List.take_of_length_le hn]
    exact ⟨m', .done hallows, hall⟩
  rw [not_le] at hn
  rcases hreports with hshort | ⟨victims, key, value, d, m₁, hlimit, rfl,
    hwrites, hroom, hpolicy⟩
  · obtain rfl : n = 0 := by omega
    exact ⟨m, .nothing, hr⟩
  · refine ⟨_, .evicted hlimit hwrites hroom hpolicy n, ?_⟩
    rw [List.length_append, List.length_map, List.length_singleton] at hn
    have htake : (victims.map (fun k => (.drop [k] : Write)) ++
        [(.put key value d : Write)]).take n =
          (victims.take n).map fun k => .drop [k] := by
      rw [List.take_append_of_le_length (by rw [List.length_map]; omega),
        List.map_take]
    rw [htake, replay_drops, Reference.lookup_foldl_erase]
    exact hr.drop _

/-- **A request that is cut short**: the facts that are left of it make what
the machine may be left with. -/
theorem Durable.cutShort
    (h : Durable outcomes maxmemory policy now content fs (s, j) m)
    (hle : now ≤ later) (hparts : parts ≠ []) (n : Nat) :
    ∃ left, Reference.CutShort maxmemory policy later
        (Reference.purge later m) (plan .exact parts) left ∧
      AgreeAt later
        (replay ((askedAt s ⟨later, .request parts⟩).take n) s.keyspace)
        left.lookup := by
  obtain ⟨name, args, rfl⟩ := List.exists_cons_of_ne_nil hparts
  have hshows := h.within.shows hle
  have hstands : StandsAt later (s.atClock (.frozen later)) := rfl
  obtain ⟨effect, t, m', hrun, hallows, hagree⟩ :=
    within_plan hshows (plan .exact (name :: args)) fun e => plan_raise
  have hreports := reports_plan hshows h.within.resting.drained hrun
  have hmax : (s.atClock (.frozen later)).maxmemory = maxmemory :=
    h.within.resting.maxmemory
  have hpolicy : (s.atClock (.frozen later)).policy = policy :=
    h.within.resting.policy
  rw [hmax, hpolicy] at hallows hreports
  have hasked : askedAt s ⟨later, .request (name :: args)⟩ = effect.facts := by
    simp only [askedAt, asked, execute_eq_plan, hrun]
  have hsteps : Steps .exact (execute .exact (name :: args))
      (s.atClock (.frozen later)) :=
    steps_execute (h.serving _) (fun _ => reads_exact _)
      (readableRequest_exact (name :: args))
  rw [execute_eq_plan] at hsteps
  have hevolves := (hsteps.ok hrun).evolves
  have hall := (agree_evolve hstands hevolves (AgreeAt.refl later _)).1
  rw [hasked]
  exact cutShort_of_reports hshows.agree hallows (hall.symm.trans hagree)
    hreports n

end Cuts

section Outages

variable {fsync : FsyncPolicy}

/-- A new process on a log of facts. -/
theorem restart_of_log {data tail : Bytes} {gs : List Write} {wake : Int}
    (hlog : LogOf .exact data gs tail)
    (hm : AgreeAt wake (replay gs fun _ => none) m.lookup) :
    ∃ state content', restart .exact fsync outcomes maxmemory policy wake
        data = .ok state ∧
      Durable outcomes maxmemory policy wake content' gs state m := by
  have hload := load_run_of_logOf
    (exact_init (.frozen wake) maxmemory policy) hlog
  have hstart : restart .exact fsync outcomes maxmemory policy wake data =
      .ok (loaded (init (.frozen wake) maxmemory policy) gs,
        newJournal fsync (LogFile.intact
          (data.take (data.length - tail.length))) outcomes) :=
    recover_of_load hload rfl
  refine ⟨_, data.take (data.length - tail.length), hstart, ?_⟩
  have hsettings : (loaded (init (.frozen wake) maxmemory policy)
      gs).settings = (init (.frozen wake) maxmemory policy).settings := by
    simp only [loaded, settings_reclaimed, settings_withFacts]
  have hserving : Serving .exact
      (loaded (init (.frozen wake) maxmemory policy) gs) :=
    serving_loaded _ _ _ hlog.readable
  have hclock := extends_loaded (.frozen wake) maxmemory policy gs
  have hreached : (loaded (init (.frozen wake) maxmemory policy)
      gs).clock.Reached wake := by
    intro i _
    rw [hclock.readings]
    exact le_rfl
  have htracks := tracks_loaded (.frozen wake) maxmemory policy gs wake
    hreached
  exact ⟨⟨⟨hserving.exact, hserving.drained,
    congrArg Settings.maxmemory hsettings,
    congrArg Settings.policy hsettings⟩, htracks.trans hm⟩,
    ⟨rfl, rfl, rfl, rfl⟩, hlog.kept.2, htracks⟩

/-- The process is killed between two events. -/
theorem Durable.idle
    (h : Durable outcomes maxmemory policy now content fs (s, j) m)
    (fsync : FsyncPolicy) (o : Outage) (hle : now ≤ o.wake) (hidle : o.inFlight = none) :
    ∃ state content', restart .exact fsync outcomes maxmemory policy o.wake
        (o.leaves .exact (s, j)) = .ok state ∧
      Durable outcomes maxmemory policy o.wake content' fs state m := by
  have hleaves : o.leaves .exact (s, j) = content := by
    simp only [Outage.leaves, hidle]
    exact h.working.content
  rw [hleaves]
  exact restart_of_log h.log
    (agree_later (h.agree.symm.trans h.within.agree) hle)

/-- The process is killed in the middle of a request. -/
theorem Durable.killed
    (h : Durable outcomes maxmemory policy now content fs (s, j) m)
    (hcalls : ¬ CallFails outcomes) (fsync : FsyncPolicy) (o : Outage)
    {parts : List Bytes} (hflight : o.inFlight = some parts) (hparts : parts ≠ [])
    (hle : now ≤ o.now) (hwake : o.now ≤ o.wake) :
    ∃ state content' gs left,
      restart .exact fsync outcomes maxmemory policy o.wake
        (o.leaves .exact (s, j)) = .ok state ∧
      Reference.CutShort maxmemory policy o.now (Reference.purge o.now m)
        (plan .exact parts) left ∧
      Durable outcomes maxmemory policy o.wake content' gs state left := by
  obtain ⟨hstep, hworking⟩ := h.event hcalls ⟨o.now, .request parts⟩
  generalize hfacts : askedAt s ⟨o.now, .request parts⟩ = facts
    at hstep hworking
  have hleaves : o.leaves .exact (s, j) =
      content ++ (encodeFacts facts).take o.left := by
    have hcontent : j.file.content = content := h.working.content
    simp only [Outage.leaves, hflight, hworking.content, hcontent]
    rw [List.take_append, List.take_of_length_le (Nat.le_add_right _ _),
      Nat.add_sub_cancel_left]
  obtain ⟨c, hc, hmore⟩ := h.log.extend
  rw [List.append_nil] at hc
  subst hc
  have hlog := hmore facts hstep.facts o.left
  have htake := List.prefix_iff_eq_take.mp
    (Decoder.wholly_prefix encodeFact o.left facts)
  obtain ⟨left, hcut, hleft⟩ :=
    h.cutShort hle hparts (whole o.left facts).length
  rw [hfacts, ← htake] at hleft
  have hstands : StandsAt o.now (s.atClock (.frozen o.now)) := rfl
  have hagree := (agree_evolve hstands hstep.evolves
    (agree_later h.agree hle)).2 (whole o.left facts).length
  rw [← htake] at hagree
  rw [hleaves]
  have hm : AgreeAt o.wake
      (replay (fs ++ whole o.left facts) fun _ => none) left.lookup := by
    rw [replay_append]
    exact agree_later (hagree.symm.trans hleft) hwake
  obtain ⟨state, content', hrestart, hdurable⟩ := restart_of_log hlog hm
  exact ⟨state, content', _, left, hrestart, hcut, hdurable⟩

end Outages

section Runs

variable {fsync : FsyncPolicy}

/-- A turn of `_fsync_cycle` says nothing and changes nothing that shows. -/
theorem Durable.fsync_turn
    (h : Durable outcomes maxmemory policy now content fs (s, j) m)
    (hcalls : ¬ CallFails outcomes) {later : Int} (hle : now ≤ later) :
    (turn .exact (s, j) ⟨later, .fsync⟩).1 = .ok none ∧
      MatchesWithin maxmemory policy later
        (turn .exact (s, j) ⟨later, .fsync⟩).2.1
        (Reference.purge later m) := by
  have hwrites := AppendOnlyFile.sync_run h.working
  have hsync : (Journal.sync : Fallible Exc AppendOnlyFile Unit) =
      AppendOnlyFile.sync := rfl
  have hmatches : MatchesWithin maxmemory policy later
      (s.atClock (.frozen later)) (Reference.purge later m) :=
    ⟨⟨h.within.resting.exact.atClock _, h.within.resting.drained,
      h.within.resting.maxmemory, h.within.resting.policy⟩,
      (h.within.shows hle).agree⟩
  simp only [turn, atMoment, handle, fsyncCycle, Fallible.run_bind,
    Fallible.run_catching, Fallible.run_onSnd, hsync]
  generalize AppendOnlyFile.sync.run j = result at hwrites
  cases hwrites with
  | taken _ =>
      exact ⟨rfl, hmatches⟩
  | failed _ hcall _ =>
      exact absurd hcall hcalls

/-- **A whole story.** -/
theorem Durable.outlive (hcalls : ¬ CallFails outcomes)
    (story : List Incident) :
    ∀ {now : Int} {content : Bytes} {fs : List Write}
      {state : KeyValueStore × AppendOnlyFile} {m : Reference},
      Durable outcomes maxmemory policy now content fs state m →
      OnwardFrom now story → (∀ incident ∈ story, Sendable incident) →
      ∃ replies, Server.outlive .exact fsync outcomes maxmemory policy state
          story = .ok replies ∧
        Reference.Survives maxmemory policy m story replies := by
  induction story with
  | nil =>
      intro now content fs state m h _ _
      exact ⟨[], rfl, .done m⟩
  | cons incident story ih =>
      rintro now content fs ⟨s, j⟩ m h honward hsendable
      obtain ⟨hfirst, hrest⟩ := List.forall_mem_cons.mp hsendable
      rcases incident with ⟨later, event⟩ | ⟨later, inFlight, left, wake⟩
      · obtain ⟨hle, honward⟩ := honward
        cases event with
        | request parts =>
            obtain ⟨reply, s', j', m', hturn, -, hallows, hmatches⟩ :=
              h.within.request (accepting_working hcalls) ⟨_, h.working⟩ hle
                hfirst
            have hnext := h.next hcalls ⟨later, .request parts⟩ hle (by rw [hturn]; exact hmatches)
            obtain ⟨replies, hreplies, hsurvives⟩ := ih hnext honward hrest
            refine ⟨.ok (some reply) :: replies, ?_,
              .request hallows hsurvives⟩
            rw [Server.outlive, hreplies, hturn]
            rfl
        | sweep limit =>
            obtain ⟨s', hturn, hmatches⟩ :=
              @h.within.sweep _ _ _ j _ _ _ _ _ hle limit
            have hnext := h.next hcalls ⟨later, .sweep limit⟩ hle (by rw [hturn]; exact hmatches)
            obtain ⟨replies, hreplies, hsurvives⟩ := ih hnext honward hrest
            refine ⟨.ok none :: replies, ?_, .quiet (by simp) hsurvives⟩
            rw [Server.outlive, hreplies, hturn]
            rfl
        | fsync =>
            obtain ⟨hreply, hmatches⟩ := h.fsync_turn hcalls hle
            have hnext := h.next hcalls ⟨later, .fsync⟩ hle hmatches
            obtain ⟨replies, hreplies, hsurvives⟩ := ih hnext honward hrest
            refine ⟨.ok none :: replies, ?_, .quiet (by simp) hsurvives⟩
            rw [Server.outlive, hreplies, hreply]
            rfl
      · obtain ⟨hle, hwake, honward⟩ := honward
        cases inFlight with
        | none =>
            obtain ⟨state, content', hrestart, hdurable⟩ :=
              h.idle fsync ⟨later, none, left, wake⟩ (le_trans hle hwake) rfl
            obtain ⟨replies, hreplies, hsurvives⟩ := ih hdurable honward hrest
            refine ⟨replies, ?_, .idle hsurvives⟩
            rw [Server.outlive, hrestart]
            exact hreplies
        | some parts =>
            obtain ⟨state, content', gs, m', hrestart, hcut, hdurable⟩ :=
              h.killed hcalls fsync ⟨later, some parts, left, wake⟩ rfl
                hfirst hle hwake
            obtain ⟨replies, hreplies, hsurvives⟩ := ih hdurable honward hrest
            refine ⟨replies, ?_, .killed hcut hsurvives⟩
            rw [Server.outlive, hrestart]
            exact hreplies

/-- **Killed and started again, any number of times.** As long as no call of
the operating system fails, a server that starts without a log comes back after
every outage, and all its replies are some that the bounded machine may give
that has survived: whatever was answered is kept, with its deadline, expiration
and restarts cannot be observed, and of a request that was cut short nothing is
left, or all of it, or only that some keys are gone that had to make room. -/
theorem restarts_explained (hcalls : ∀ i, (outcomes i).fails = false)
    (fsync : FsyncPolicy) (maxmemory : Int) (policy : MaxmemoryPolicy)
    (now : Int) (story : List Incident) (honward : OnwardFrom now story)
    (hsendable : ∀ incident ∈ story, Sendable incident) :
    ∃ replies, Server.outlive .exact fsync outcomes maxmemory policy
        (freshStart (.frozen now) maxmemory policy fsync outcomes) story =
          .ok replies ∧
      Reference.Survives maxmemory policy .empty story replies := by
  have hnone : ¬ CallFails outcomes := by
    rintro ⟨i, hi⟩
    rw [hcalls i] at hi
    cases hi
  have hstart : Durable outcomes maxmemory policy now [] []
      (freshStart (.frozen now) maxmemory policy fsync outcomes) .empty :=
    ⟨⟨⟨exact_init _ maxmemory policy, rfl, rfl, rfl⟩, rfl⟩,
      ⟨rfl, rfl, rfl, rfl⟩, logOf_nil _, rfl⟩
  exact hstart.outlive hnone story honward hsendable

/-- Two keys are set, and while a third one takes the place of the first the
process is killed; only the removal has reached the file. -/
def thirdKeyCut : List Incident :=
  [.moment ⟨0, .request [ascii "SET", ascii "a", ascii "1"]⟩,
    .moment ⟨1, .request [ascii "SET", ascii "b", ascii "2", ascii "EX",
      ascii "60"]⟩,
    .outage ⟨2, some [ascii "SET", ascii "c", ascii "3"], 25, 3⟩,
    .moment ⟨3, .request [ascii "GET", ascii "a"]⟩,
    .moment ⟨3, .request [ascii "TTL", ascii "b"]⟩,
    .moment ⟨3, .request [ascii "GET", ascii "c"]⟩]

/-- The first key is gone, the second one keeps its deadline, and the third one
was never written. -/
theorem third_key_cut_explained :
    Reference.Survives 132 .allkeysLru .empty thirdKeyCut
      [.ok (some Resp.ok), .ok (some Resp.ok),
        .ok (some Resp.nullBulkString), .ok (some (Resp.encodeInteger 60)),
        .ok (some Resp.nullBulkString)] := by
  have hreplies : Server.outlive .exact .everysec (fun _ => ⟨0, false⟩) 132
      .allkeysLru (freshStart (.frozen 0) 132 .allkeysLru .everysec
        fun _ => ⟨0, false⟩) thirdKeyCut =
        .ok [.ok (some Resp.ok), .ok (some Resp.ok),
          .ok (some Resp.nullBulkString), .ok (some (Resp.encodeInteger 60)),
          .ok (some Resp.nullBulkString)] := by
    decide +kernel
  have hcalls : ∀ i : Nat, ((fun _ => ⟨0, false⟩ : Nat → IoOutcome) i).fails =
      false := fun _ => rfl
  obtain ⟨replies, hrun, hsurvives⟩ := restarts_explained hcalls .everysec
    132 .allkeysLru 0 thirdKeyCut (by decide +kernel) (by decide +kernel)
  rw [hreplies] at hrun
  cases hrun
  exact hsurvives

end Runs

end Server
end PyRedis
