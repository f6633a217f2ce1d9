import PyRedis.Theory.Plans
import PyRedis.Theory.Invariants

/-!
# Which texts are read as integers

The regular expression admits the canonical decimals and nothing else, so a
text is admitted exactly when it is the text of an integer.  The integer is
then found to be in range or not, unless `int` refuses to convert so many
digits: that is a `ValueError`, which no caller expects.
-/

namespace PyRedis

open Foundation KeyValueStore

variable {py : Interpreter} {raw : Bytes}

section Canonical

theorem isCanonical_str (n : Int) : isCanonical (str n) = true := by
  unfold str
  by_cases hn : n = 0
  · subst hn
    decide
  · obtain ⟨b, ds, htext, hb, hzero, hds⟩ :=
      Decimal.natText_eq_cons (Int.natAbs_ne_zero.mpr hn)
    unfold isCanonical
    rw [Decimal.splitSign_intText, htext, Bool.or_eq_true]
    exact Or.inr (by simp [hb, hds, hzero])

/-- A digit string that does not start with zero is a text, and so it is with
a minus sign before it. -/
theorem str_of_digits {b : UInt8} {ds : Bytes} (hb : Decimal.isDigit b = true)
    (hzero : b ≠ 48) (hds : ds.all Decimal.isDigit = true) :
    str (Decimal.digitsValue (b :: ds)) = b :: ds ∧
      str (-Decimal.digitsValue (b :: ds)) = Decimal.minus :: b :: ds := by
  have htext := Decimal.natText_digitsValue hb hzero hds
  refine ⟨htext, ?_⟩
  cases hvalue : Decimal.digitsValue (b :: ds) with
  | zero =>
      rw [hvalue] at htext
      injection htext with hfirst _
      exact absurd hfirst.symm hzero
  | succ k =>
      rw [hvalue] at htext
      exact congrArg (Decimal.minus :: ·) htext

/-- **The regular expression is the inverse of `str`.** -/
theorem isCanonical_iff : isCanonical raw = true ↔ ∃ n, raw = str n := by
  constructor
  · intro h
    unfold isCanonical at h
    rw [Bool.or_eq_true] at h
    rcases h with hzero | hdigits
    · exact ⟨0, eq_of_beq hzero⟩
    rcases raw with _ | ⟨a, l⟩
    · cases hdigits
    by_cases hminus : a = Decimal.minus
    · subst hminus
      rw [Decimal.splitSign_minus] at hdigits
      rcases l with _ | ⟨b, ds⟩
      · cases hdigits
      simp only [Bool.and_eq_true, bne_iff_ne] at hdigits
      exact ⟨_, (str_of_digits hdigits.1.1 hdigits.1.2 hdigits.2).2.symm⟩
    · have hsplit : Decimal.splitSign (a :: l) = (false, a :: l) := by
        simp [Decimal.splitSign, hminus]
      rw [hsplit] at hdigits
      simp only [Bool.and_eq_true, bne_iff_ne] at hdigits
      exact ⟨_, (str_of_digits hdigits.1.1 hdigits.1.2 hdigits.2).1.symm⟩
  · rintro ⟨n, rfl⟩
    exact isCanonical_str n

theorem str_injective : Function.Injective str := by
  intro m n h
  have hvalue := congrArg Decimal.signedValue h
  unfold str at hvalue
  rwa [Decimal.signedValue_intText, Decimal.signedValue_intText] at hvalue

end Canonical

section Parsing

/-- An integer within the signed 64-bit range. -/
def InRange (n : Int) : Prop :=
  int64Min ≤ n ∧ n ≤ int64Max

instance (n : Int) : Decidable (InRange n) :=
  inferInstanceAs (Decidable (_ ∧ _))

theorem InRange.reads {n : Int} (h : InRange n) : py.Reads n.natAbs := by
  obtain ⟨hlow, hhigh⟩ := h
  unfold int64Min at hlow
  unfold int64Max at hhigh
  refine py.reads_of_le_word ?_
  omega

theorem int_str_of_not_reads {n : Int} (h : ¬ py.Reads n.natAbs) :
    py.int (str n) = none := by
  unfold Interpreter.int str
  rw [Decimal.splitSign_intText]
  exact if_neg fun hconverts => h hconverts.2

/-- A canonical text is parsed, found out of range, or too long for `int`. -/
theorem parseInt_str (py : Interpreter) (n : Int) :
    parseInt py (str n) =
      if py.Reads n.natAbs then
        if InRange n then .ok n else .error (.store .notAnInteger)
      else .error .value := by
  unfold parseInt
  rw [if_pos (isCanonical_str n)]
  by_cases hreads : py.Reads n.natAbs
  · rw [if_pos hreads, int_str py hreads]
    rfl
  · rw [if_neg hreads, int_str_of_not_reads hreads]

theorem parseInt_of_not_text (h : ∀ n, raw ≠ str n) :
    parseInt py raw = .error (.store .notAnInteger) := by
  have hcanonical : ¬ isCanonical raw = true := by
    rw [isCanonical_iff]
    rintro ⟨n, hn⟩
    exact h n hn
  unfold parseInt
  rw [if_neg hcanonical]

/-- **What is accepted** is the text of an integer in range. -/
theorem parseInt_eq_ok_iff {n : Int} :
    parseInt py raw = .ok n ↔ InRange n ∧ raw = str n := by
  by_cases htext : ∃ m, raw = str m
  · obtain ⟨m, rfl⟩ := htext
    rw [parseInt_str]
    constructor
    · intro h
      split_ifs at h with hreads hrange
      cases h
      exact ⟨hrange, rfl⟩
    · rintro ⟨hrange, htext⟩
      obtain rfl := str_injective htext
      rw [if_pos hrange.reads, if_pos hrange]
  · rw [not_exists] at htext
    rw [parseInt_of_not_text htext]
    constructor
    · intro h
      cases h
    · rintro ⟨-, hn⟩
      exact absurd hn (htext n)

/-- **The `ValueError` escapes** exactly on a text that `int` refuses. -/
theorem parseInt_eq_value_iff :
    parseInt py raw = .error .value ↔
      ∃ n : Int, raw = str n ∧ ¬ py.Reads n.natAbs := by
  by_cases htext : ∃ m, raw = str m
  · obtain ⟨m, rfl⟩ := htext
    rw [parseInt_str]
    constructor
    · intro h
      split_ifs at h with hreads hrange
      · cases h
      · exact ⟨m, rfl, hreads⟩
    · rintro ⟨n, hn, hreads⟩
      obtain rfl := str_injective hn
      rw [if_neg hreads]
  · rw [not_exists] at htext
    rw [parseInt_of_not_text htext]
    constructor
    · intro h
      cases h
    · rintro ⟨n, hn, -⟩
      exact absurd hn (htext n)

end Parsing

namespace Commands

variable {s t : KeyValueStore} {e : Exc} {request : List Bytes}

section Requests

/-- The requests that make the server read `raw` as an integer: an INCR of a
live key that holds it, and a SET or EXPIRE with this duration. -/
inductive ReadsInteger (raw : Bytes) (s : KeyValueStore) :
    List Bytes → Prop where
  | incr {name key : Bytes} (hname : upper name = ascii "INCR")
      (hvalue : s.data.lookup key = some raw)
      (hlive : ¬ s.isExpiredAt s.clock.now key = true) :
      ReadsInteger raw s [name, key]
  | set {name key value option : Bytes} (hname : upper name = ascii "SET")
      (hoption : upper option = ascii "EX" ∨ upper option = ascii "PX") :
      ReadsInteger raw s [name, key, value, option, raw]
  | expire {name key : Bytes} (hname : upper name = ascii "EXPIRE") :
      ReadsInteger raw s [name, key, raw]

theorem plan_of_entry {name : Bytes} {args : List Bytes} {c : PlannedCommand}
    (hentry : (planTable py).lookup (upper name) = some c)
    (harity : c.wrongArity args = false) :
    plan py (name :: args) = c.plan args := by
  simp only [plan, hentry, harity, Bool.false_eq_true, if_false]

theorem effect_raise_run (e : Exc) (s : KeyValueStore) :
    ((Plan.raise e).effect py).run s = (caught e, s) := by
  unfold caught
  cases hreply : errorReply e with
  | none =>
      exact Plan.effect_run_raise rfl hreply
  | some reply =>
      exact Plan.effect_run_reply rfl hreply

theorem plan_set_duration {name key value option : Bytes}
    (hname : upper name = ascii "SET")
    (hoption : upper option = ascii "EX" ∨ upper option = ascii "PX")
    (he : parseInt py raw = .error e) :
    plan py [name, key, value, option, raw] = .raise e := by
  have hentry : (planTable py).lookup (upper name) =
      some ⟨"set", Plans.set py, 2, some 4, true⟩ := by
    rw [hname]
    rfl
  have hoptions : setOptions py [option, raw] = .error e := by
    have hdiffers : ascii "PX" ≠ ascii "EX" := by decide
    rcases hoption with hex | hpx
    · simp only [setOptions, hex, if_true, he]
      rfl
    · simp only [setOptions, hpx, if_neg hdiffers, if_true, he]
      rfl
  rw [plan_of_entry hentry rfl]
  simp only [Plans.set, hoptions]

theorem plan_expire_duration {name key : Bytes}
    (hname : upper name = ascii "EXPIRE") (he : parseInt py raw = .error e) :
    plan py [name, key, raw] = .raise e := by
  have hentry : (planTable py).lookup (upper name) =
      some ⟨"expire", Plans.expire py, 2, some 2, true⟩ := by
    rw [hname]
    rfl
  rw [plan_of_entry hentry rfl]
  simp only [Plans.expire, he]

theorem plan_incr {name key : Bytes} (hname : upper name = ascii "INCR") :
    plan py [name, key] = .incr key := by
  have hentry : (planTable py).lookup (upper name) =
      some ⟨"incr", Plans.keyed .incr, 1, some 1, true⟩ := by
    rw [hname]
    rfl
  exact plan_of_entry hentry rfl

theorem data_settled_of_live {key : Bytes}
    (hlive : ¬ s.isExpiredAt s.clock.now key = true) :
    (s.settled key).data = s.data := by
  have hlive' : ¬ s.afterReading.isExpiredAt s.clock.now key = true := hlive
  unfold settled
  cases s.expires.lookup key with
  | none =>
      rfl
  | some d =>
      simp only
      rw [settledAt_eq, if_neg hlive']
      rfl

/-- What parsing raises, the request raises, and it has changed nothing that
is reported. -/
theorem execute_of_unread (h : Exact s) (hreads : ReadsInteger raw s request)
    (he : parseInt py raw = .error e) :
    ∃ t, (execute py request).run s = (caught e, t) := by
  rw [execute_eq_plan]
  cases hreads with
  | @incr name key hname hvalue hlive =>
      have heffect : ∃ r t, IncrRuns py s key r t ∧
          ((Plan.incr key).effect py).run s = (r, t) :=
        incr_effect_run h key
      obtain ⟨r, t, hruns, hrun⟩ := heffect
      have hsettled : (s.settled key).data.lookup key = some raw := by
        rw [data_settled_of_live hlive]
        exact hvalue
      have hcounter : (s.settled key).counter py key = .error e := by
        unfold counter
        rw [hsettled]
        exact he
      obtain ⟨rfl, -⟩ := hruns.eq_of_unread hcounter
      rw [plan_incr hname, hrun]
      exact ⟨t, rfl⟩
  | set hname hoption =>
      rw [plan_set_duration hname hoption he]
      exact ⟨s, effect_raise_run e s⟩
  | expire hname =>
      rw [plan_expire_duration hname he]
      exact ⟨s, effect_raise_run e s⟩

/-- The reply to a text that is no integer; a `ValueError` is not answered. -/
theorem dispatch_of_unread {J : Type} [Journal J] (h : Exact s) (j : J)
    (hworks : Journal.failed j = false)
    (hreads : ReadsInteger raw s request) (he : parseInt py raw = .error e) :
    ((dispatch py request).run (s, j)).1 =
      match errorReply e with
      | some reply => .ok reply
      | none => .error e := by
  obtain ⟨t, hrun⟩ := execute_of_unread h hreads he
  simp only [dispatch_run, hworks, Bool.and_false, Bool.false_eq_true,
    if_false, hrun]
  unfold caught
  cases errorReply e <;> rfl

/-- What the server promises about a text: it is accepted as the integer it is
the decimal of, and otherwise it is answered that it is none. -/
structure DeclaresIntegers (raw : Bytes) : Prop where
  accepts : ∀ n, parseInt .default raw = .ok n ↔ InRange n ∧ raw = str n
  fails : ∀ e, parseInt .default raw = .error e → e = .store .notAnInteger
  answers : (∀ n, InRange n → raw ≠ str n) →
    ∀ {maxmemory : Int} {policy : MaxmemoryPolicy} {recovers : Bool}
      {s : KeyValueStore} {J : Type} [Journal J] (j : J)
      {request : List Bytes},
      Reachable .default maxmemory policy recovers s →
      Journal.failed j = false → ReadsInteger raw s request →
      ((dispatch .default request).run (s, j)).1 =
        .ok (Resp.encodeError
          "ERR value is not an integer or out of range")

/-- **The promise is kept** exactly on the texts that are not the canonical
decimal of an integer of more than 4300 digits. -/
theorem declaresIntegers_iff (raw : Bytes) :
    DeclaresIntegers raw ↔
      ∀ n : Int, raw = str n → (Decimal.natText n.natAbs).length ≤ 4300 := by
  constructor
  · intro h n hn
    by_contra hlong
    have hvalue : parseInt .default raw = .error .value := by
      refine parseInt_eq_value_iff.mpr ⟨n, hn, ?_⟩
      rintro (hzero | hshort)
      · cases hzero
      · exact hlong hshort
    have hdeclared := h.fails _ hvalue
    cases hdeclared
  · intro h
    have hfails : ∀ e, parseInt .default raw = .error e →
        e = .store .notAnInteger := by
      intro e he
      rcases parseInt_error he with rfl | rfl
      · obtain ⟨n, hn, hreads⟩ := parseInt_eq_value_iff.mp he
        exact absurd (Or.inr (h n hn)) hreads
      · rfl
    refine ⟨fun n => parseInt_eq_ok_iff, hfails, ?_⟩
    intro hnone maxmemory policy recovers s J _ j request hs hworks hreads
    rcases hraw : parseInt .default raw with e | n
    · obtain rfl := hfails e hraw
      exact dispatch_of_unread hs.exact j hworks hreads hraw
    · obtain ⟨hrange, htext⟩ := parseInt_eq_ok_iff.mp hraw
      exact absurd htext (hnone n hrange)

/-- A one with 4300 ones behind it. -/
def longOnes : Bytes :=
  List.replicate 4301 49

theorem longOnes_raises : parseInt .default longOnes = .error .value := by
  have hcanonical : isCanonical longOnes = true := by decide +kernel
  obtain ⟨n, hn⟩ := isCanonical_iff.mp hcanonical
  refine parseInt_eq_value_iff.mpr ⟨n, hn, ?_⟩
  have hlen : (Decimal.splitSign longOnes).2.length = 4301 := by
    decide +kernel
  rw [hn, str, Decimal.splitSign_intText] at hlen
  rintro (hzero | hshort)
  · cases hzero
  · rw [hlen] at hshort
    revert hshort
    decide

/-- A key that holds them. -/
def longCounter : KeyValueStore :=
  afterOperations .default (init (.frozen 0) 0 .noeviction)
    [.set (ascii "n") longOnes none]

/-- **An INCR of it is not answered.** -/
theorem longOnes_escapes :
    parseInt .default longOnes = .error .value ∧
      ((dispatch .default [ascii "INCR", ascii "n"]).run
        (longCounter, (⟨⟩ : NullJournal))).1 = .error .value ∧
      ¬ DeclaresIntegers longOnes := by
  have hreachable : Reachable .default 0 .noeviction false longCounter :=
    (Reachable.empty _).afterOperations _ (by decide)
  refine ⟨longOnes_raises, ?_, ?_⟩
  · exact dispatch_of_unread hreachable.exact _ rfl
      (.incr (by decide) rfl (by decide +kernel)) longOnes_raises
  · intro h
    have hdeclared := h.fails _ longOnes_raises
    cases hdeclared

end Requests

end Commands

end PyRedis
