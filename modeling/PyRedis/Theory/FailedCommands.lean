import PyRedis.Theory.Invariants
import PyRedis.Theory.Plans
import PyRedis.Theory.ServerRuns

/-!
# Commands that fail

A command is checked before it changes anything: the request is read first,
then the deadline is computed, then the value is read, then room is made, and
only then is anything written.  So a command that is answered with an error
leaves the store and the journal as they were, except that the key it asked
for is gone if it had expired.
-/

namespace PyRedis

open Foundation KeyValueStore Commands

section AtRest

open Fallible (Preserves)

/-- What holds of the store of a server between two events. -/
structure Resting (maxmemory : Int) (policy : MaxmemoryPolicy)
    (s : KeyValueStore) : Prop where
  exact : Exact s
  drained : s.evicted = []
  maxmemory : s.maxmemory = maxmemory
  policy : s.policy = policy

variable {py : Interpreter} {maxmemory : Int} {policy : MaxmemoryPolicy}
variable {s t : KeyValueStore}

theorem Resting.of_settings (hs : Resting maxmemory policy s)
    (hexact : Exact t) (h : t.settings = s.settings) :
    Resting maxmemory policy t where
  exact := hexact
  drained := (congrArg Settings.evicted h).trans hs.drained
  maxmemory := (congrArg Settings.maxmemory h).trans hs.maxmemory
  policy := (congrArg Settings.policy h).trans hs.policy

/-- An interpreter without a limit reads everything. -/
theorem reads_exact (n : Nat) : Interpreter.exact.Reads n :=
  Or.inl rfl

theorem readableEntry_exact (key : Bytes) (e : Timed Bytes Int) :
    ReadableEntry Interpreter.exact key e :=
  ⟨reads_exact _, reads_exact _, fun _ _ => reads_exact _⟩

theorem Resting.serving (hs : Resting maxmemory policy s) :
    Serving Interpreter.exact s :=
  ⟨hs.exact, hs.drained, fun k e _ => readableEntry_exact k e⟩

theorem readableRequest_exact (request : List Bytes) :
    ReadableRequest Interpreter.exact request :=
  ⟨reads_exact _, fun _ _ => reads_exact _⟩

/-- What a request does to a store at rest: it leaves one. -/
theorem steps_at_rest (hs : Resting maxmemory policy s)
    (request : List Bytes) :
    Steps Interpreter.exact (execute py request) s :=
  steps_execute hs.serving (fun _ => reads_exact _)
    (readableRequest_exact request)

theorem preserves_resting_execute (request : List Bytes) :
    Preserves (Resting maxmemory policy) (execute py request) := by
  intro s hs
  refine (steps_at_rest hs request).mono ?_ ?_
  · exact fun effect t ht => hs.of_settings ht.exact ht.settings
  · exact fun e t ht => hs.of_settings ht.exact ht.settings

theorem preserves_resting_sweep (limit : Nat) :
    Preserves (Resting maxmemory policy) (sweepExpired limit) := by
  intro s hs
  obtain ⟨n, t, hrun, ht⟩ := step_sweepExpired hs.serving limit
  exact Fallible.Triple.of_ok hrun (hs.of_settings ht.exact ht.settings)

theorem preserves_resting_load {op : Operation}
    (hop : op.isLoading = true) :
    Preserves (Resting maxmemory policy) (op.effect py) := by
  intro s hs
  have hexact := op.exact_after hs.exact py
  have hkeep : ∀ {t : KeyValueStore}, ((op.effect py).run s).2 = t →
      t.settings = s.settings → Resting maxmemory policy t := by
    rintro t rfl h
    exact hs.of_settings hexact h
  unfold Fallible.Triple
  cases op with
  | flushdb =>
      exact hkeep rfl (settings_cleared s)
  | dropExpired =>
      have hrun : (Operation.effect py .dropExpired).run s =
          (.ok (), s.reclaimed) := by
        simp only [Operation.effect, forEffect, Fallible.run_bind,
          dropExpired_run hs.exact, Fallible.run_pure]
      rw [hrun] at hkeep ⊢
      exact hkeep rfl (settings_reclaimed s)
  | dbsize =>
      have hrun : (Operation.effect py .dbsize).run s =
          (.ok (), s.reclaimed) := by
        simp only [Operation.effect, forEffect, Fallible.run_bind,
          dbsize_run hs.exact, Fallible.run_pure]
      rw [hrun] at hkeep ⊢
      exact hkeep rfl (settings_reclaimed s)
  | restore key value d =>
      exact hkeep rfl (by simp)
  | setDeadline key d =>
      have hrun : (Operation.effect py (.setDeadline key d)).run s =
          (.ok (), if key ∈ s.data then s.setExpires key d else s) :=
        setDeadline_run s key d
      rw [hrun] at hkeep ⊢
      refine hkeep rfl ?_
      split_ifs
      · exact settings_setExpires s key d
      · rfl
  | clearDeadline key =>
      exact hkeep rfl (settings_popExpires s key)
  | discard keys =>
      have hrun : (Operation.effect py (.discard keys)).run s =
          (.ok (), s.dropAll keys) :=
        discard_run s keys
      rw [hrun] at hkeep ⊢
      exact hkeep rfl (settings_dropAll s keys)
  | _ =>
      cases hop

theorem Server.AtRest.resting (hs : AtRest py maxmemory policy s) :
    Resting maxmemory policy s :=
  hs.invariant
    (fun clock => ⟨exact_init clock maxmemory policy, rfl, rfl, rfl⟩)
    preserves_resting_execute preserves_resting_sweep
    fun _ => preserves_resting_load

end AtRest

namespace KeyValueStore

variable {s : KeyValueStore}

/-- Nothing but the clock has changed, or a key that was asked for is gone
that had expired. -/
inductive Unharmed (subject : Option Bytes) (s : KeyValueStore) :
    KeyValueStore → Prop where
  | kept (clock : Clock) : Unharmed subject s (s.atClock clock)
  | collected {key : Bytes} (hkey : subject = some key)
      (h : s.isExpiredAt s.clock.now key = true) (clock : Clock) :
      Unharmed subject s ((s.drop key).atClock clock)

variable {subject : Option Bytes} {t : KeyValueStore}

theorem Unharmed.refl (subject : Option Bytes) (s : KeyValueStore) :
    Unharmed subject s s :=
  .kept s.clock

theorem Unharmed.afterReading (h : Unharmed subject s t) :
    Unharmed subject s t.afterReading := by
  cases h with
  | kept clock =>
      exact .kept clock.advance
  | collected hkey hdead clock =>
      exact .collected hkey hdead clock.advance

theorem unharmed_settled (s : KeyValueStore) (key : Bytes) :
    Unharmed (some key) s (s.settled key) := by
  unfold settled
  cases hd : s.expires.lookup key with
  | none =>
      exact .refl _ s
  | some d =>
      have hd' : s.afterReading.expires.lookup key = some d := hd
      simp only [settledAt, hd']
      split_ifs with hle
      · have hdead : s.isExpiredAt s.clock.now key = true :=
          isExpiredAt_iff.mpr ⟨d, hd, hle⟩
        exact drop_atClock s s.clock.advance key ▸
          Unharmed.collected rfl hdead _
      · exact .kept _

theorem unharmed_timing {ttlMs : Option Int}
    {r : Except Exc (Option Int)} (h : s.timing ttlMs = (r, t)) :
    Unharmed subject s t := by
  rcases timing_eq_or h with rfl | rfl
  · exact .refl _ _
  · exact .kept _

/-- A live entry is still there, and so is its access counter. -/
theorem Unharmed.live (h : Unharmed subject s t) (k : Bytes) :
    liveEntry s.clock.now (t.keyspace k) =
        liveEntry s.clock.now (s.keyspace k) ∧
      (liveEntry s.clock.now (s.keyspace k) ≠ none →
        t.access.lookup k = s.access.lookup k) := by
  cases h with
  | kept clock =>
      exact ⟨rfl, fun _ => rfl⟩
  | @collected key hkey hdead clock =>
      have hdrop : ((s.drop key).atClock clock).keyspace =
          (Fact.drop [key]).apply s.keyspace :=
        keyspace_drop s key
      by_cases hk : k = key
      · subst hk
        have hnone : liveEntry s.clock.now (s.keyspace k) = none := by
          cases he : s.keyspace k with
          | none =>
              rfl
          | some e =>
              exact liveEntry_of_dead (not_alive_of_isExpiredAt hdead he)
        refine ⟨?_, fun hlive => absurd hnone hlive⟩
        rw [hnone, hdrop]
        simp [Fact.apply, Fact.actOn]
      · refine ⟨?_, fun _ => ?_⟩
        · rw [hdrop]
          simp [Fact.apply, Fact.actOn, hk]
        · change (s.drop key).access.lookup k = _
          unfold KeyValueStore.drop
          split
          · rfl
          · exact (OrderedDict.lookup_erase _ _ _).trans (if_neg hk)

theorem Unharmed.settings (h : Unharmed subject s t) :
    t.evicted = s.evicted ∧ t.evictCursor = s.evictCursor := by
  cases h with
  | kept clock =>
      exact ⟨rfl, rfl⟩
  | collected hkey hdead clock =>
      exact ⟨(sameSettings_drop s _).evicted,
        (sameSettings_drop s _).evictCursor⟩

end KeyValueStore

namespace Commands

section Plans

/-- The key a plan is about, if it is about one. -/
def Plan.subject : Plan → Option Bytes
  | .set key _ _ => some key
  | .get key => some key
  | .expire key _ => some key
  | .ttl key => some key
  | .persist key => some key
  | .incr key => some key
  | _ => none

variable {py : Interpreter}

/-- The key is the first argument of the request. -/
theorem head_of_subject {name : Bytes} {args : List Bytes} {key : Bytes}
    (h : (plan py (name :: args)).subject = some key) :
    args.head? = some key := by
  have hplan := planOf_request py name args
  generalize plan py (name :: args) = p at h hplan
  cases hplan <;> cases h <;> simp_all

/-- A plan that ends in an error has harmed nothing and asks for no record. -/
def FailsCleanly (py : Interpreter) (p : Plan) (s : KeyValueStore) : Prop :=
  Fallible.Triple (p.effect py) s
    (fun effect t => Server.isError effect.reply = true →
      effect.facts = [] ∧ Unharmed p.subject s t)
    (fun _ t => Unharmed p.subject s t)

variable {s : KeyValueStore}

/-- A plan whose reply is no error cannot fail. -/
theorem failsCleanly_of_ok {p : Plan} {effect : Effect} {t : KeyValueStore}
    (hrun : (p.attempt py).run s = (.ok effect, t))
    (hreply : Server.isError effect.reply = false) :
    FailsCleanly py p s := by
  refine Fallible.Triple.of_ok (Plan.effect_run_ok hrun) fun herror => ?_
  rw [hreply] at herror
  cases herror

theorem failsCleanly_set (h : Exact s) (key value : Bytes)
    (ttlMs : Option Int) : FailsCleanly py (.set key value ttlMs) s := by
  obtain ⟨e, t, hruns, hrun⟩ := @set_effect_run py s h key value ttlMs
  refine Fallible.Triple.of_ok hrun fun herror => ?_
  cases hruns with
  | untimely htiming =>
      exact ⟨rfl, unharmed_timing htiming⟩
  | refused htiming hr =>
      exact ⟨rfl, unharmed_timing htiming⟩
  | stored htiming hr ha =>
      cases herror

theorem failsCleanly_incr (h : Exact s) (key : Bytes) :
    FailsCleanly py (.incr key) s := by
  obtain ⟨r, t, hruns, hrun⟩ := @incr_effect_run py s h key
  have hsettled := unharmed_settled s key
  cases hruns with
  | unread hcounter =>
      exact Fallible.Triple.of_error hrun hsettled
  | malformed hcounter =>
      exact Fallible.Triple.of_ok hrun fun _ => ⟨rfl, hsettled⟩
  | overflow hcounter hover =>
      exact Fallible.Triple.of_ok hrun fun _ => ⟨rfl, hsettled⟩
  | refused hcounter hfits hr =>
      exact Fallible.Triple.of_ok hrun fun _ => ⟨rfl, hsettled⟩
  | stored hcounter hfits hr ha =>
      refine Fallible.Triple.of_ok hrun fun herror => ?_
      cases herror

theorem failsCleanly_expire (h : Exact s) (key : Bytes) (ttlMs : Int) :
    FailsCleanly py (.expire key ttlMs) s := by
  have hrun := @expire_effect_run py s h key ttlMs
  have hsettled := unharmed_settled s key
  split_ifs at hrun
  · refine Fallible.Triple.of_ok hrun fun herror => ?_
    cases herror
  · exact Fallible.Triple.of_ok hrun fun _ => ⟨rfl, hsettled.afterReading⟩
  · refine Fallible.Triple.of_ok hrun fun herror => ?_
    cases herror
  · refine Fallible.Triple.of_ok hrun fun herror => ?_
    cases herror

theorem failsCleanly (h : Exact s) (p : Plan) : FailsCleanly py p s := by
  cases p with
  | answer reply =>
      exact Fallible.Triple.of_ok rfl fun _ => ⟨rfl, .refl _ s⟩
  | raise e =>
      unfold FailsCleanly
      cases hreply : errorReply e with
      | some reply =>
          exact Fallible.Triple.of_ok (Plan.effect_run_reply rfl hreply)
            fun _ => ⟨rfl, .refl _ s⟩
      | none =>
          exact Fallible.Triple.of_error (Plan.effect_run_raise rfl hreply)
            (.refl _ s)
  | set key value ttlMs =>
      exact failsCleanly_set h key value ttlMs
  | get key =>
      refine failsCleanly_of_ok (effect_get_run h key []) ?_
      cases (s.settled key).data.lookup key <;> rfl
  | expire key ttlMs =>
      exact failsCleanly_expire h key ttlMs
  | ttl key =>
      exact failsCleanly_of_ok (effect_ttl_run h key []) rfl
  | persist key =>
      have hrun := effect_persist_run h key []
      split_ifs at hrun
      · exact failsCleanly_of_ok hrun rfl
      · exact failsCleanly_of_ok hrun rfl
  | delete keys =>
      exact failsCleanly_of_ok (effect_delete_run h keys) rfl
  | «exists» keys =>
      exact failsCleanly_of_ok (effect_exists_run h keys) rfl
  | incr key =>
      exact failsCleanly_incr h key
  | dbsize =>
      exact failsCleanly_of_ok (effect_dbsize_run h []) rfl
  | flushdb =>
      exact @failsCleanly_of_ok py s .flushdb _ _ rfl rfl

end Plans

section Journals

/-- A journal whose `append` raises nothing but `PersistenceError`. -/
class ReportingJournal (J : Type) [Journal J] : Prop where
  append_error : ∀ {record : Bytes} {j j' : J} {e : Exc},
    (Journal.append record).run j = (.error e, j') →
      ∃ reason, e = .persistence reason

instance : ReportingJournal NullJournal where
  append_error := by
    intro record j j' e h
    cases h

theorem attempt_error {action : String}
    {x : Fallible Unit AppendOnlyFile Unit} {j j' : AppendOnlyFile} {e : Exc}
    (h : (AppendOnlyFile.attempt action x).run j = (.error e, j')) :
    ∃ reason, e = .persistence reason := by
  simp only [AppendOnlyFile.attempt, Fallible.run] at h
  split at h
  · cases h
  · cases h
    exact ⟨_, rfl⟩

instance : ReportingJournal AppendOnlyFile where
  append_error := by
    intro record j j' e h
    change (AppendOnlyFile.append record).run j = _ at h
    unfold AppendOnlyFile.append at h
    rw [Fallible.run_bind, Fallible.run_get] at h
    dsimp only at h
    by_cases hfailed : j.hasFailed
    · rw [if_pos hfailed] at h
      cases h
      exact ⟨_, rfl⟩
    · rw [if_neg hfailed] at h
      exact attempt_error h

variable {J : Type} [Journal J] [ReportingJournal J]

theorem recordAll_error {fs : List Write} {j j' : J} {e : Exc}
    (h : (recordAll fs).run j = (.error e, j')) :
    ∃ reason, e = .persistence reason := by
  induction fs generalizing j with
  | nil =>
      cases h
  | cons f fs ih =>
      simp only [recordAll, Fallible.forEach, Fallible.run_bind] at h
      rcases hf : (Journal.append (encodeFact f)).run j with ⟨e' | _, j''⟩
      · rw [hf] at h
        cases h
        exact ReportingJournal.append_error hf
      · rw [hf] at h
        exact ih h

/-- **Commands that fail change nothing.** From a store at rest, at whatever
clock value, a request that is answered with an error, other than for a record
that could not be written, leaves the journal, the live entries, their access
counters and the eviction cursor as they were, and no eviction to report; the
key it asked for may be gone, if it had expired. -/
theorem failed_command_changes_nothing (py : Interpreter) {maxmemory : Int}
    {policy : MaxmemoryPolicy} {s s' : KeyValueStore} {j j' : J}
    (hs : Server.AtRest py maxmemory policy s) (now : Int) (name : Bytes)
    (args : List Bytes) (reply : Bytes)
    (h : (dispatch py (name :: args)).run (s.atClock (.frozen now), j) =
      (.ok reply, (s', j')))
    (herror : Server.isError reply = true)
    (hcause : reply = Resp.encodeError persistenceError →
      Journal.failed j = true) :
    j' = j ∧ s.evicted = [] ∧ s'.evicted = [] ∧
      s'.evictCursor = s.evictCursor ∧
      (∀ k, liveEntry now (s'.keyspace k) = liveEntry now (s.keyspace k)) ∧
      (∀ k, liveEntry now (s.keyspace k) ≠ none →
        s'.access.lookup k = s.access.lookup k) ∧
      ∃ clock, s' = s.atClock clock ∨
        ∃ key, args.head? = some key ∧ s.isExpiredAt now key = true ∧
          s' = (s.drop key).atClock clock := by
  have hrest := hs.resting
  have hmain : j' = j ∧ Unharmed (plan py (name :: args)).subject
      (s.atClock (.frozen now)) s' := by
    rw [dispatch_run] at h
    split_ifs at h with hfailed
    · cases h
      exact ⟨rfl, .refl _ _⟩
    · have hclean := @failsCleanly py _
        (hrest.exact.atClock (.frozen now)) (plan py (name :: args))
      unfold FailsCleanly at hclean
      rw [← execute_eq_plan] at hclean
      have hasked := @Server.asking_execute py (name :: args)
        (s.atClock (.frozen now))
      rcases hrun : (execute py (name :: args)).run
        (s.atClock (.frozen now)) with ⟨e | effect, t⟩
      · rw [hrun] at h
        cases h
      · rw [hrun] at h
        rcases hrecord : (recordAll effect.facts).run j with ⟨e | _, j''⟩
        · -- A record was not written; only a mutation has records, and a
          -- failed journal would have turned the mutation away.
          obtain ⟨reason, rfl⟩ := recordAll_error hrecord
          simp only [hrecord, errorReply] at h
          cases h
          have hmutates : isMutation py (name :: args) = false := by
            rw [hcause rfl, Bool.and_true] at hfailed
            exact Bool.not_eq_true _ ▸ hfailed
          have hasks := hasked.ok hrun
          rw [hmutates] at hasks
          cases hasks with
          | nothing reply h =>
              cases hrecord
          | fact f reply h =>
              cases h
          | write victims key value d reply h =>
              cases h
        · simp only [hrecord] at h
          cases h
          obtain ⟨hfacts, hharm⟩ := hclean.ok hrun herror
          rw [hfacts] at hrecord
          cases hrecord
          exact ⟨rfl, hharm⟩
  obtain ⟨hjournal, hharm⟩ := hmain
  have hsettings := hharm.settings
  refine ⟨hjournal, hrest.drained, hsettings.1.trans hrest.drained,
    hsettings.2, fun k => (hharm.live k).1, fun k => (hharm.live k).2, ?_⟩
  cases hharm with
  | kept clock =>
      exact ⟨clock, Or.inl rfl⟩
  | @collected key hkey hdead clock =>
      refine ⟨clock, Or.inr ⟨key, head_of_subject hkey, hdead, ?_⟩⟩
      rw [drop_atClock]
      rfl

/-- A server that has been told to set `k` to `x`. -/
def holdingText : KeyValueStore :=
  ((Server.handle Interpreter.default
    (.request [ascii "SET", ascii "k", ascii "x"])).run
      (init (.frozen 0) 0 .noeviction, (⟨⟩ : NullJournal))).2.1

/-- An INCR of a text, and what is left of it. -/
theorem failed_incr_changes_nothing :
    let after := ((dispatch Interpreter.default
      [ascii "INCR", ascii "k"]).run
        (holdingText.atClock (.frozen 7), (⟨⟩ : NullJournal))).2
    after.2 = ⟨⟩ ∧ holdingText.evicted = [] ∧ after.1.evicted = [] ∧
      after.1.evictCursor = holdingText.evictCursor ∧
      liveEntry 7 (after.1.keyspace (ascii "k")) =
        liveEntry 7 (holdingText.keyspace (ascii "k")) := by
  have hreply : ((dispatch Interpreter.default
      [ascii "INCR", ascii "k"]).run
        (holdingText.atClock (.frozen 7), (⟨⟩ : NullJournal))).1 =
      .ok (storeErrorReply .notAnInteger) := by
    decide +kernel
  have hrest : Server.AtRest Interpreter.default 0 .noeviction holdingText :=
    .event (.empty (.frozen 0)) (⟨⟩ : NullJournal) _
  have hnot : storeErrorReply .notAnInteger ≠
      Resp.encodeError persistenceError := by
    decide +kernel
  obtain ⟨hjournal, hbefore, hafter, hcursor, hlive, -, -⟩ :=
    failed_command_changes_nothing Interpreter.default hrest 7
      (ascii "INCR") [ascii "k"] (storeErrorReply .notAnInteger)
      (Prod.ext hreply rfl) rfl fun h => absurd h hnot
  exact ⟨hjournal, hbefore, hafter, hcursor, hlive (ascii "k")⟩

end Journals

end Commands

end PyRedis
