import PyRedis.Core.Clients
import PyRedis.Theory.RequestGrammar

/-!
# Reading requests that arrive in pieces

`read_command` is suspended wherever a line or a payload is not complete yet.
Cut at these points it is a segmented reader: each segment settles as soon as
what it awaits is there, and the segments make up the reader of the whole
stream.  So it does not matter how a stream is cut into packets.
-/

namespace PyRedis
namespace Resp

open Foundation Fallible

section Settling

variable {x : Bytes}

theorem findCrlf_longer {i : Nat} (h : findCrlf x = some i) (y : Bytes) :
    findCrlf (x ++ y) = some i := by
  have hfront := findCrlf_take_append h (x.drop (i + 2) ++ y)
  rwa [← List.append_assoc, List.take_append_drop] at hfront

/-- A line is awaited when its terminator is not in sight and may still
come. -/
theorem incomplete_readuntil_iff :
    incomplete readuntil x = true ↔ LineFits x ∧ findCrlf x = none := by
  cases hfind : findCrlf x with
  | some i =>
      by_cases hi : i ≤ streamLimit
      · simp [incomplete, readuntil, Fallible.run, hfind, hi]
      · simp [incomplete, readuntil, Fallible.run, hfind, hi]
  | none =>
      have hfits : LineFits x ↔ ¬ streamLimit < x.length - 1 := by
        simp only [LineFits, hfind]
        omega
      by_cases hlong : streamLimit < x.length - 1
      · simp [incomplete, readuntil, Fallible.run, hfind, hfits, hlong]
      · simp [incomplete, readuntil, Fallible.run, hfind, hfits, hlong]

theorem settles_readLine (h : incomplete readuntil x = false)
    (allowEof : Bool) : Settles (readLine allowEof) x := by
  intro y
  by_cases hx : LineFits x
  · cases hfind : findCrlf x with
    | none =>
        rw [incomplete_readuntil_iff.mpr ⟨hx, hfind⟩] at h
        cases h
    | some i =>
        have hlonger := findCrlf_longer hfind y
        have hle := findCrlf_le hfind
        have hxy : LineFits (x ++ y) := by
          simp only [LineFits, hfind] at hx
          simpa only [LineFits, hlonger] using hx
        rw [readLine_of_line hx (lineDecoder_of_some hfind),
          readLine_of_line hxy (lineDecoder_of_some hlonger),
          List.take_append_of_le_length (by omega),
          List.drop_append_of_le_length hle]
  · rw [readLine_overrun hx, readLine_overrun (not_lineFits_append hx y)]

theorem incomplete_readexactly_iff {n : Nat} :
    incomplete (readexactly n) x = true ↔ x.length < n := by
  unfold incomplete readexactly Fallible.run
  by_cases hlen : x.length < n <;> simp [hlen]

end Settling

section Segments

variable {py : Interpreter} {q : Reading} {x rest : Bytes}

/-- The last segment of a bulk string: its payload, and what follows. -/
theorem segment_bulkBody (length left : Nat) (parts : List Bytes) :
    segment py (.bulkBody length left parts) =
      readBody length >>= fun body =>
        pure (afterPart left (parts ++ [body])) := by
  refine Fallible.ext fun x => ?_
  rw [Fallible.run_bind, readBody_run]
  simp only [segment, Fallible.run]
  rcases readexactly (length + crlf.length) x with ⟨e | body, rest⟩
  · rfl
  · by_cases hend : crlf <:+ body
    · simp only [if_pos hend]
      rfl
    · simp only [if_neg hend]

/-- **A segment settles when what it awaits is there.** -/
theorem settles_segment (h : awaits q x = false) :
    Settles (segment py q) x := by
  cases q with
  | header =>
      refine (settles_readLine h true).bind fun line rest _ => ?_
      cases line with
      | none =>
          exact Settles.pure _
      | some header =>
          refine Settles.ite _ (Settles.raise _) ?_
          refine (Settles.ofExcept _).bind fun count rest' _ => ?_
          exact Settles.ite _ (Settles.raise _)
            (Settles.ite _ (Settles.pure _) (Settles.pure _))
  | bulkHeader left parts =>
      refine (settles_readLine h false).bind fun line rest _ => ?_
      cases line with
      | none =>
          exact Settles.raise _
      | some header =>
          refine Settles.ite _ (Settles.raise _) ?_
          refine (Settles.ofExcept _).bind fun length rest' _ => ?_
          exact Settles.ite _ (Settles.raise _) (Settles.pure _)
  | bulkBody length left parts =>
      have hroom : length + 2 ≤ x.length := by
        by_contra hshort
        have hwaits : awaits (.bulkBody length left parts) x = true :=
          incomplete_readexactly_iff.mpr (not_le.mp hshort)
        rw [h] at hwaits
        cases hwaits
      have hbody : Settles (readBody length) x := readBody_append hroom
      rw [segment_bulkBody]
      exact hbody.bind fun body rest _ => Settles.pure _

/-- What is left of `read_command` at one of its awaits. -/
def remaining (py : Interpreter) :
    Reading → Fallible ReadError Bytes (Option (List Bytes))
  | .header => readCommand py
  | .bulkHeader left parts => do
      let more ← readBulkStrings py (left + 1)
      pure (some (parts ++ more))
  | .bulkBody length left parts => do
      let body ← readBody length
      let more ← readBulkStrings py left
      pure (some (parts ++ body :: more))

theorem remaining_header :
    remaining py .header =
      segment py .header >>= Sum.elim (remaining py) pure := by
  refine Fallible.ext fun x => ?_
  simp only [remaining, readCommand, segment, Fallible.run_bind]
  rcases (readLine true).run x with ⟨e | _ | header, rest⟩
  · rfl
  · rfl
  · by_cases hhead : header.head? = some 42
    · simp only [hhead, ne_eq, not_true_eq_false, if_false,
        Fallible.run_bind]
      rcases parseLength py header.tail "invalid multibulk length" with
        e | count
      · rfl
      · by_cases hmost : maxMultibulkLength < count
        · simp [hmost]
        · by_cases hsign : count ≤ 0
          · simp [hmost, hsign]
          · obtain ⟨n, hn⟩ : ∃ n, count.toNat = n + 1 :=
              ⟨count.toNat - 1, by omega⟩
            simp only [Fallible.run_ofExcept_ok, hmost, if_false,
              hsign, hn, Nat.add_sub_cancel, Fallible.run_pure,
              Sum.elim_inl, remaining, Fallible.run_bind, List.nil_append]
    · simp [hhead]

theorem remaining_bulkHeader (left : Nat) (parts : List Bytes) :
    remaining py (.bulkHeader left parts) =
      segment py (.bulkHeader left parts) >>=
        Sum.elim (remaining py) pure := by
  refine Fallible.ext fun x => ?_
  simp only [remaining, readBulkStrings, readBulkString_eq, segment,
    Fallible.run_bind]
  rcases (readLine false).run x with ⟨e | _ | header, rest⟩
  · rfl
  · rfl
  · by_cases hhead : header.head? = some 36
    · simp only [hhead, ne_eq, not_true_eq_false, if_false,
        Fallible.run_bind]
      rcases parseLength py header.tail "invalid bulk length" with
        e | length
      · rfl
      · by_cases hbound : length < 0 ∨ maxBulkLength < length
        · simp [hbound]
        · simp only [Fallible.run_ofExcept_ok, hbound, if_false,
            Fallible.run_pure, Sum.elim_inl, remaining, Fallible.run_bind]
          rcases (readBody length.toNat).run rest with ⟨e | body, rest'⟩
          · rfl
          · simp only
            rcases (readBulkStrings py left).run rest' with ⟨e | more, r⟩
            · rfl
            · rfl
    · simp [hhead]

theorem remaining_bulkBody (length left : Nat) (parts : List Bytes) :
    remaining py (.bulkBody length left parts) =
      segment py (.bulkBody length left parts) >>=
        Sum.elim (remaining py) pure := by
  refine Fallible.ext fun x => ?_
  rw [segment_bulkBody]
  simp only [remaining, Fallible.run_bind]
  rcases (readBody length).run x with ⟨e | body, rest⟩
  · rfl
  · cases left with
    | zero =>
        simp [readBulkStrings, afterPart]
    | succ left =>
        simp only [Fallible.run_pure, afterPart, Sum.elim_inl, remaining,
          Fallible.run_bind, List.append_assoc, List.singleton_append]

/-- **`read_command` is a segmented reader.** -/
def commandReader (py : Interpreter) :
    Segmented ReadError UInt8 Reading (Option (List Bytes)) where
  waits := awaits
  segment := segment py
  whole := remaining py
  settles _ _ := settles_segment
  unfolds q := by
    cases q with
    | header =>
        exact remaining_header
    | bulkHeader left parts =>
        exact remaining_bulkHeader left parts
    | bulkBody length left parts =>
        exact remaining_bulkBody length left parts

/-- Where the reader waits, the end of the stream would find it at its end or
in the middle of a frame. -/
theorem remaining_of_awaits (h : awaits q x = true) :
    ((remaining py q).run x).1 = .ok none ∨
      ((remaining py q).run x).1 = .error .connection := by
  cases q with
  | header =>
      obtain ⟨hfits, hnone⟩ := incomplete_readuntil_iff.mp h
      simp only [remaining, readCommand, Fallible.run_bind,
        readLine_of_more hfits hnone]
      by_cases hx : x = []
      · exact Or.inl (by simp [hx])
      · exact Or.inr (by simp [hx])
  | bulkHeader left parts =>
      obtain ⟨hfits, hnone⟩ := incomplete_readuntil_iff.mp h
      right
      simp [remaining, readBulkStrings, readBulkString_eq,
        readLine_of_more hfits hnone]
  | bulkBody length left parts =>
      right
      have hshort := incomplete_readexactly_iff.mp h
      simp only [remaining, Fallible.run_bind, readBody_short hshort]

end Segments

section Consumption

variable {py : Interpreter} {q : Reading} {x rest : Bytes}

theorem readLine_shrinks (allowEof : Bool) (x : Bytes) :
    Triple (readLine allowEof) x
      (fun line rest => ∀ header, line = some header →
        rest.length < x.length)
      (fun _ _ => True) := by
  by_cases hx : LineFits x
  · cases hfind : findCrlf x with
    | none =>
        have hrun := readLine_of_more hx hfind allowEof
        split_ifs at hrun
        · exact Triple.of_ok hrun fun _ h => by cases h
        · exact Triple.of_error hrun trivial
    | some i =>
        have hle := findCrlf_le hfind
        refine Triple.of_ok
          (readLine_of_line hx (lineDecoder_of_some hfind) allowEof) ?_
        intro header _
        rw [List.length_drop]
        omega
  · exact Triple.of_error (readLine_overrun hx allowEof) trivial

theorem readBody_shrinks (n : Nat) (x : Bytes) :
    Triple (readBody n) x (fun _ rest => rest.length < x.length)
      (fun _ _ => True) := by
  by_cases hshort : x.length < n + 2
  · exact Triple.of_error (readBody_short hshort) trivial
  · have hread : (readexactly (n + crlf.length)).run x =
        (.ok (x.take (n + 2)), x.drop (n + 2)) := if_neg hshort
    have hrun := readBody_run n x
    simp only [hread] at hrun
    split_ifs at hrun
    · refine Triple.of_ok hrun ?_
      rw [List.length_drop]
      omega
    · exact Triple.of_error hrun trivial

/-- **A segment takes something off the stream**, unless the stream has
ended. -/
theorem segment_shrinks (py : Interpreter) (q : Reading) (x : Bytes) :
    Triple (segment py q) x
      (fun r rest => r = .inr none ∨ rest.length < x.length)
      (fun _ _ => True) := by
  -- Behind the line that was read, nothing more is taken.
  have hkept : ∀ {c : Fallible ReadError Bytes
        (Reading ⊕ Option (List Bytes))} {rest : Bytes},
      Preserves (fun z => z.length < x.length) c → rest.length < x.length →
        Triple c rest (fun r z => r = .inr none ∨ z.length < x.length)
          (fun _ _ => True) :=
    fun hc hrest => (hc _ hrest).mono (fun _ _ => Or.inr)
      (fun _ _ _ => trivial)
  cases q with
  | header =>
      refine Triple.bind (readLine_shrinks true x) ?_
      rintro (_ | header) rest hrest
      · exact Triple.pure (Or.inl rfl)
      · refine hkept ?_ (hrest header rfl)
        refine Preserves.ite (Preserves.raise _) ?_
        refine (Preserves.ofExcept _).bind fun count => ?_
        exact Preserves.ite (Preserves.raise _)
          (Preserves.ite (Preserves.pure _) (Preserves.pure _))
  | bulkHeader left parts =>
      refine Triple.bind (readLine_shrinks false x) ?_
      rintro (_ | header) rest hrest
      · exact Triple.raise trivial
      · refine hkept ?_ (hrest header rfl)
        refine Preserves.ite (Preserves.raise _) ?_
        refine (Preserves.ofExcept _).bind fun length => ?_
        exact Preserves.ite (Preserves.raise _) (Preserves.pure _)
  | bulkBody length left parts =>
      rw [segment_bulkBody]
      refine Triple.bind (readBody_shrinks length x) ?_
      intro body rest hrest
      exact Triple.pure (Or.inr hrest)

end Consumption

end Resp
end PyRedis
