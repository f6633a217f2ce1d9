import PyRedis.Foundation.Verdicts
import PyRedis.Theory.TornTails

/-!
# The grammar of the log

What the scanner of a log does with each input, told by the input alone: the
words of bulk strings and records, with what they hold; the inputs that run out
before their end; and the inputs on which `int` is asked for a number with more
digits than it converts.
-/

namespace PyRedis

open Foundation

/-- A header line whose number is too long. -/
def OverlongLine (py : Interpreter) (kind : UInt8) (x : Bytes) : Prop :=
  ∃ raw rest, x = kind :: raw ++ crlf ++ rest ∧ Overlong py raw

namespace Aof

open Resp (findCrlf)

section Grammar

variable (py : Interpreter)

/-- A bulk string and its payload. -/
inductive BulkOf : Bytes → Bytes → Prop
  | mk (head body : Bytes) (h : Header py 36 0 head body.length) :
      BulkOf (head ++ (body ++ crlf)) body

/-- A record and its parts. -/
inductive RecordOf : Bytes → List Bytes → Prop
  | mk (head : Bytes) (bulks parts : List Bytes)
      (h : Header py 42 1 head parts.length)
      (hbulks : List.Forall₂ (BulkOf py) bulks parts) :
      RecordOf (head ++ bulks.flatten) parts

/-- An input that ends before a bulk string does. -/
inductive OpenBulk : Bytes → Prop
  | header (x : Bytes) (h : findCrlf x = none) : OpenBulk x
  | payload (head rest : Bytes) (n : Nat) (h : Header py 36 0 head n)
      (hrest : rest.length < n + 2) : OpenBulk (head ++ rest)

/-- An input that ends before a record does. -/
inductive OpenRecord : Bytes → Prop
  | header (x : Bytes) (h : findCrlf x = none) : OpenRecord x
  | parts (head rest : Bytes) (n : Nat) (bulks parts : List Bytes)
      (h : Header py 42 1 head n) (hcount : parts.length < n)
      (hbulks : List.Forall₂ (BulkOf py) bulks parts)
      (hrest : OpenBulk py rest) :
      OpenRecord (head ++ (bulks.flatten ++ rest))

/-- A record in which the number of parts, or the length of one of them, is
too long. -/
inductive OverlongRecord : Bytes → Prop
  | count (x : Bytes) (h : OverlongLine py 42 x) : OverlongRecord x
  | length (head rest : Bytes) (n : Nat) (bulks parts : List Bytes)
      (h : Header py 42 1 head n) (hcount : parts.length < n)
      (hbulks : List.Forall₂ (BulkOf py) bulks parts)
      (hrest : OverlongLine py 36 rest) :
      OverlongRecord (head ++ (bulks.flatten ++ rest))

/-- Whole records, and behind them one with a number that is too long. -/
inductive OverlongLog : Bytes → Prop
  | mk (words : List Bytes) (records : List (List Bytes)) (rest : Bytes)
      (hwords : List.Forall₂ (RecordOf py) words records)
      (hrest : OverlongRecord py rest) : OverlongLog (words.flatten ++ rest)

end Grammar

variable {py : Interpreter} {raw : Bytes}

section Numbers

theorem count_eq_value_iff {offset : Nat} {reason : String} :
    count py raw offset reason = .error .value ↔ Overlong py raw := by
  constructor
  · intro h
    rcases count_verdict py raw offset reason with
      ⟨n, -, hn⟩ | ⟨hlong, -⟩ | hbad
    · rw [hn] at h
      cases h
    · exact hlong
    · rw [hbad] at h
      cases h
  · intro h
    simp only [count, h.1, if_true, int_eq_none_of_overlong h]

theorem cr_not_mem_of_overlong (h : Overlong py raw) : cr ∉ raw := by
  intro hmem
  have hvalue := (@count_eq_value_iff py raw 0 "").mpr h
  rw [count_of_line_end (Or.inl hmem)] at hvalue
  cases hvalue

variable {kind : UInt8} {wanted reason : String} {low : Int → Prop}
variable [DecidablePred low] {offset : Nat} {line : Bytes}

theorem headerNumber_eq_value_iff :
    headerNumber py kind wanted reason low offset line = .error .value ↔
      ∃ raw, line = kind :: raw ∧ Overlong py raw := by
  constructor
  · intro h
    rcases headerNumber_verdict py kind wanted reason low offset line with
      ⟨-, n, -, -, -, hn⟩ | ⟨raw, rfl, hlong, -⟩ | ⟨why, hbad⟩
    · rw [hn] at h
      cases h
    · exact ⟨raw, rfl, hlong⟩
    · rw [hbad] at h
      cases h
  · rintro ⟨raw, rfl, hlong⟩
    rw [headerNumber_cons, count_eq_value_iff.mpr hlong]
    rfl

/-- `AofCorruptError`. -/
def Corrupt (e : Exc) : Prop :=
  ∃ offset reason, e = .corrupt offset reason

/-- How reading a log may fail: it is corrupt, or `int` refuses a number. -/
def CorruptOrValue (e : Exc) : Prop :=
  Corrupt e ∨ e = .value

theorem headerNumber_error {e : Exc}
    (h : headerNumber py kind wanted reason low offset line = .error e) :
    CorruptOrValue e := by
  rcases headerNumber_verdict py kind wanted reason low offset line with
    ⟨-, n, -, -, -, hn⟩ | ⟨-, -, -, hvalue⟩ | ⟨why, hbad⟩
  · rw [hn] at h
    cases h
  · rw [hvalue] at h
    cases h
    exact Or.inr rfl
  · rw [hbad] at h
    cases h
    exact Or.inl ⟨_, _, rfl⟩

end Numbers

section Headed

variable {α : Type} {kind : UInt8} {least : Nat} {x : Bytes}
variable {sized : Bytes → Except Exc Int}
variable {rest : Int → Nat → Decoder UInt8 Exc α}
variable {B : Int → Bytes → Prop}

theorem takes_line : Decoder.Takes (lineDecoder Exc)
    (Decoder.Encodes (lineDecoder Exc)) :=
  Decoder.takes_of_incremental incremental_line

theorem halts_line_more :
    Decoder.Halts (lineDecoder Exc) .more fun x => findCrlf x = none := by
  intro x
  unfold lineDecoder
  cases hx : findCrlf x <;> simp [hx, Decoded.halt]

theorem halts_line_fail (e : Exc) :
    Decoder.Halts (lineDecoder Exc) (.fail e) fun _ => False := by
  intro x
  unfold lineDecoder
  cases hx : findCrlf x <;> simp [Decoded.halt]

/-- What follows a header runs out, or the header does. -/
theorem halts_headed_more (hkind : kind ≠ cr)
    (hsized : Sizes py kind least sized)
    (hrest : ∀ n used, Decoder.Halts (rest n used) .more (B n)) :
    Decoder.Halts (headed sized rest) .more fun x =>
      findCrlf x = none ∨ ∃ (head : Bytes) (n : Nat) (y : Bytes),
        x = head ++ y ∧ Header py kind least head n ∧ B n y := by
  have hbody := fun (line : Bytes) (used : Nat) =>
    (Decoder.halts_ofExcept_more (β := UInt8) (sized line)).andThen
      (Decoder.takes_ofExcept (sized line)) fun n _ => hrest n used
  refine (halts_line_more.andThen takes_line hbody).congr fun x => ?_
  refine or_congr_right ?_
  constructor
  · rintro ⟨c, line, -, rfl, hline, hfalse | ⟨-, m, y, rfl, ⟨rfl, hm⟩, hy⟩⟩
    · exact hfalse.elim
    · obtain ⟨raw, n, rfl, hint, hn, rfl⟩ := (hsized line m).mp hm
      exact ⟨c, n, y, rfl, (header_iff hkind).mpr ⟨raw, hline, hint, hn⟩, hy⟩
  · rintro ⟨head, n, y, rfl, hhead, hy⟩
    obtain ⟨raw, hline, hint, hn⟩ := (header_iff hkind).mp hhead
    refine ⟨head, kind :: raw, y, rfl, hline, Or.inr ⟨[], n, y, rfl, ⟨rfl, ?_⟩,
      hy⟩⟩
    exact (hsized _ _).mpr ⟨raw, n, rfl, hint, hn, rfl⟩

/-- What follows a header has a number that is too long, or the header
does. -/
theorem halts_headed_value (hkind : kind ≠ cr)
    (hsized : Sizes py kind least sized)
    (hvalue : ∀ line, sized line = .error .value ↔
      ∃ raw, line = kind :: raw ∧ Overlong py raw)
    (hrest : ∀ n used, Decoder.Halts (rest n used) (.fail .value) (B n)) :
    Decoder.Halts (headed sized rest) (.fail .value) fun x =>
      OverlongLine py kind x ∨ ∃ (head : Bytes) (n : Nat) (y : Bytes),
        x = head ++ y ∧ Header py kind least head n ∧ B n y := by
  have hbody := fun (line : Bytes) (used : Nat) =>
    (Decoder.halts_ofExcept_fail (β := UInt8) (sized line) .value).andThen
      (Decoder.takes_ofExcept (sized line)) fun n _ => hrest n used
  refine ((halts_line_fail .value).andThen takes_line hbody).congr
    fun x => ?_
  constructor
  · rintro (hfalse | ⟨c, line, y, rfl, hline,
      hbad | ⟨-, m, y, rfl, ⟨rfl, hm⟩, hy⟩⟩)
    · exact hfalse.elim
    · obtain ⟨raw, rfl, hraw⟩ := (hvalue line).mp hbad
      rw [eq_line_of_encodes hline]
      exact Or.inl ⟨raw, y, rfl, hraw⟩
    · obtain ⟨raw, n, rfl, hint, hn, rfl⟩ := (hsized line m).mp hm
      exact Or.inr ⟨c, n, y, rfl,
        (header_iff hkind).mpr ⟨raw, hline, hint, hn⟩, hy⟩
  · rintro (⟨raw, y, rfl, hraw⟩ | ⟨head, n, y, rfl, hhead, hy⟩)
    · have hline : cr ∉ kind :: raw := by
        simp only [List.mem_cons, not_or]
        exact ⟨hkind.symm, cr_not_mem_of_overlong hraw⟩
      exact Or.inr ⟨_, _, y, rfl, encodes_line hline,
        Or.inl ((hvalue _).mpr ⟨raw, rfl, hraw⟩)⟩
    · obtain ⟨raw, hline, hint, hn⟩ := (header_iff hkind).mp hhead
      refine Or.inr ⟨head, kind :: raw, y, rfl, hline,
        Or.inr ⟨[], n, y, rfl, ⟨rfl, ?_⟩, hy⟩⟩
      exact (hsized _ _).mpr ⟨raw, n, rfl, hint, hn, rfl⟩

end Headed

section Records

/-- A payload of a negative length would be read as an empty one. -/
theorem bodyDecoder_toNat (offset : Nat) (n : Int) :
    bodyDecoder offset n.toNat = bodyDecoder offset n := by
  simp only [bodyDecoder, payload, Int.toNat_natCast]

theorem halts_body_more (offset : Nat) (n : Int) :
    Decoder.Halts (bodyDecoder offset n) .more
      fun x => x.length < n.toNat + 2 := by
  intro x
  rw [← bodyDecoder_toNat]
  by_cases hroom : x.length < n.toNat + 2
  · rw [bodyDecoder_more hroom]
    simp [Decoded.halt, hroom]
  · rw [bodyDecoder_of_room (not_lt.mp hroom)]
    split_ifs <;> simp [Decoded.halt, hroom]

theorem halts_body_value (offset : Nat) (n : Int) :
    Decoder.Halts (bodyDecoder offset n) (.fail .value) fun _ => False := by
  intro x
  rw [← bodyDecoder_toNat]
  by_cases hroom : x.length < n.toNat + 2
  · rw [bodyDecoder_more hroom]
    simp [Decoded.halt]
  · rw [bodyDecoder_of_room (not_lt.mp hroom)]
    split_ifs <;> simp [Decoded.halt]

theorem takes_part (offset : Nat) :
    Decoder.Takes (partDecoder py offset) (BulkOf py) := by
  refine (Decoder.takes_of_incremental (incremental_part offset)).congr
    fun c part => ?_
  rw [partDecoder_eq_headed, encodes_headed_iff (by decide)
    (sizes_bulkLength offset) fun n _ => incremental_body offset n]
  simp only [encodes_body_iff]
  constructor
  · rintro ⟨head, n, y, rfl, hhead, rfl, rfl⟩
    exact BulkOf.mk head part hhead
  · rintro ⟨head, body, hhead⟩
    exact ⟨head, part.length, _, rfl, hhead, rfl, rfl⟩

theorem halts_part_more (offset : Nat) :
    Decoder.Halts (partDecoder py offset) .more (OpenBulk py) := by
  rw [partDecoder_eq_headed]
  refine (halts_headed_more (by decide) (sizes_bulkLength offset)
    fun n _ => halts_body_more offset n).congr fun x => ?_
  constructor
  · rintro (hx | ⟨head, n, y, rfl, hhead, hy⟩)
    · exact OpenBulk.header x hx
    · exact OpenBulk.payload head y n hhead hy
  · intro h
    cases h with
    | header x hx =>
        exact Or.inl hx
    | payload head rest n hhead hrest =>
        exact Or.inr ⟨head, n, rest, rfl, hhead, hrest⟩

theorem halts_part_value (offset : Nat) :
    Decoder.Halts (partDecoder py offset) (.fail .value)
      (OverlongLine py 36) := by
  rw [partDecoder_eq_headed]
  refine (halts_headed_value (by decide) (sizes_bulkLength offset)
    (fun _ => headerNumber_eq_value_iff)
    fun n _ => halts_body_value offset n).congr fun x => ?_
  simp

theorem takes_record (offset : Nat) :
    Decoder.Takes (recordDecoder py offset) (RecordOf py) := by
  refine (Decoder.takes_of_incremental (incremental_record offset)).congr
    fun c parts => ?_
  rw [recordDecoder_eq_headed, encodes_headed_iff (by decide)
    (sizes_multibulkLength offset) fun n used =>
      Decoder.incremental_times incremental_part n.toNat (offset + used)]
  simp only [(Decoder.takes_times takes_part _ _).encodes_iff]
  constructor
  · rintro ⟨head, n, y, rfl, hhead, hlen, bulks, hbulks, rfl⟩
    rw [Int.toNat_natCast] at hlen
    subst hlen
    exact RecordOf.mk head bulks parts hhead hbulks
  · rintro ⟨head, bulks, parts, hhead, hbulks⟩
    exact ⟨head, parts.length, _, rfl, hhead, rfl, bulks, hbulks, rfl⟩

theorem halts_record_more (offset : Nat) :
    Decoder.Halts (recordDecoder py offset) .more (OpenRecord py) := by
  rw [recordDecoder_eq_headed]
  refine (halts_headed_more (by decide) (sizes_multibulkLength offset)
    fun n used => Decoder.halts_times takes_part halts_part_more n.toNat
      (offset + used)).congr fun x => ?_
  constructor
  · rintro (hx | ⟨head, n, -, rfl, hhead, bulks, parts, rest, rfl, hcount,
      hbulks, hrest⟩)
    · exact OpenRecord.header x hx
    · exact OpenRecord.parts head rest n bulks parts hhead hcount hbulks hrest
  · intro h
    cases h with
    | header x hx =>
        exact Or.inl hx
    | parts head rest n bulks parts hhead hcount hbulks hrest =>
        exact Or.inr ⟨head, n, _, rfl, hhead, bulks, parts, rest, rfl, hcount,
          hbulks, hrest⟩

theorem halts_record_value (offset : Nat) :
    Decoder.Halts (recordDecoder py offset) (.fail .value)
      (OverlongRecord py) := by
  rw [recordDecoder_eq_headed]
  refine (halts_headed_value (by decide) (sizes_multibulkLength offset)
    (fun _ => headerNumber_eq_value_iff)
    fun n used => Decoder.halts_times takes_part halts_part_value n.toNat
      (offset + used)).congr fun x => ?_
  constructor
  · rintro (hx | ⟨head, n, -, rfl, hhead, bulks, parts, rest, rfl, hcount,
      hbulks, hrest⟩)
    · exact OverlongRecord.count x hx
    · exact OverlongRecord.length head rest n bulks parts hhead hcount hbulks
        hrest
  · intro h
    cases h with
    | count x hx =>
        exact Or.inl hx
    | length head rest n bulks parts hhead hcount hbulks hrest =>
        exact Or.inr ⟨head, n, _, rfl, hhead, bulks, parts, rest, rfl, hcount,
          hbulks, hrest⟩

end Records

section Scans

variable {data : Bytes}

theorem not_recordOf_nil (parts : List Bytes) : ¬ RecordOf py [] parts := by
  intro h
  generalize hnil : ([] : Bytes) = word at h
  cases h with
  | mk head bulks parts hhead hbulks =>
      obtain ⟨raw, rfl, -⟩ := hhead
      cases hnil

theorem not_overlongRecord_nil : ¬ OverlongRecord py [] := by
  intro h
  generalize hnil : ([] : Bytes) = x at h
  cases h with
  | count x hx =>
      obtain ⟨raw, rest, rfl, -⟩ := hx
      cases hnil
  | length head rest n bulks parts hhead hcount hbulks hrest =>
      obtain ⟨raw, rfl, -⟩ := hhead
      cases hnil

theorem failsOnly_line :
    Decoder.FailsOnly (lineDecoder Exc) CorruptOrValue :=
  fun x e h => (((halts_line_fail e) x).mp (Decoder.halt_eq_fail.mpr h)).elim

theorem failsOnly_part (offset : Nat) :
    Decoder.FailsOnly (partDecoder py offset) CorruptOrValue := by
  refine failsOnly_line.andThen fun line _ => ?_
  refine (Decoder.failsOnly_ofExcept fun _ => headerNumber_error).andThen
    fun n _ => ?_
  refine (Decoder.failsOnly_take _).andThen fun body _ => ?_
  refine Decoder.failsOnly_ofExcept fun e h => ?_
  unfold payload at h
  split_ifs at h
  cases h
  exact Or.inl ⟨_, _, rfl⟩

theorem failsOnly_record (offset : Nat) :
    Decoder.FailsOnly (recordDecoder py offset) CorruptOrValue := by
  refine failsOnly_line.andThen fun line _ => ?_
  refine (Decoder.failsOnly_ofExcept fun _ => headerNumber_error).andThen
    fun n _ => ?_
  exact Decoder.failsOnly_times failsOnly_part _ _

theorem scan_error {e : Exc} (h : scan py data = .error e) :
    Decoder.Fails (recordDecoder py) 0 data e := by
  rcases scans_or_fails py data with ⟨items, tail, hscans⟩ | ⟨e', hfails⟩
  · rw [scan_of_scans hscans] at h
    cases h
  · rw [scan_of_fails hfails] at h
    cases h
    exact hfails

theorem fails_value_iff :
    Decoder.Fails (recordDecoder py) 0 data .value ↔ OverlongLog py data := by
  rw [Decoder.fails_iff takes_record halts_record_value not_recordOf_nil
    not_overlongRecord_nil]
  constructor
  · rintro ⟨words, records, rest, hwords, hrest, rfl⟩
    exact OverlongLog.mk words records rest hwords hrest
  · rintro ⟨words, records, rest, hwords, hrest⟩
    exact ⟨words, records, rest, hwords, hrest, rfl⟩

/-- A scan raises `ValueError` exactly on a number that is too long. -/
theorem scan_eq_value_iff :
    scan py data = .error .value ↔ OverlongLog py data := by
  rw [← fails_value_iff]
  exact ⟨scan_error, scan_of_fails⟩

/-- Nothing else but corruption stops a scan. -/
theorem scan_corruptOrValue {e : Exc} (h : scan py data = .error e) :
    CorruptOrValue e :=
  (scan_error h).only failsOnly_record

/-- What a scan that returns has found. -/
theorem scan_eq_ok_iff {records : List (List Bytes)} :
    (∃ scanned, scan py data = .ok scanned ∧
      scanned.records.map Record.parts = records) ↔
      ∃ words rest, List.Forall₂ (RecordOf py) words records ∧
        OpenRecord py rest ∧ data = words.flatten ++ rest := by
  have hopen : OpenRecord py [] := OpenRecord.header [] rfl
  constructor
  · rintro ⟨scanned, hscan, rfl⟩
    obtain ⟨items, tail, hscans, hitems, -⟩ := scans_of_scan hscan
    have hmap : items.map Prod.snd = scanned.records.map Record.parts := by
      rw [hitems, List.map_map]
      rfl
    obtain ⟨words, hwords, rfl, htail⟩ := (Decoder.scans_iff takes_record
      halts_record_more not_recordOf_nil).mp ⟨items, hmap, hscans⟩
    refine ⟨words, tail, hwords, ?_, rfl⟩
    rcases htail with rfl | htail
    · exact hopen
    · exact htail
  · rintro ⟨words, rest, hwords, hrest, rfl⟩
    have hitems : ∃ items, items.map Prod.snd = records ∧
        Decoder.Scans (recordDecoder py) 0 (words.flatten ++ rest) items
          rest :=
      (Decoder.scans_iff takes_record halts_record_more
        not_recordOf_nil).mpr ⟨words, hwords, rfl, Or.inr hrest⟩
    obtain ⟨items, rfl, hscans⟩ := hitems
    refine ⟨_, scan_of_scans hscans, ?_⟩
    rw [List.map_map]
    rfl

end Scans

end Aof
end PyRedis
