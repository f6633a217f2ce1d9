import PyRedis.Theory.LogReplay

/-!
# Every crash point is recoverable

A process may die while a record is being written, so the log that is found
afterwards is any byte prefix of the one that was meant.  Wherever the cut
falls, be it in a header, in a length, between the two bytes of a CRLF, or in
a payload that looks like a record itself, the load keeps the records that lie
wholly before it and drops the rest.
-/

namespace PyRedis
namespace Aof

open Foundation KeyValueStore Commands

variable {py : Interpreter}

/-- A cut of a log is a log of the facts left whole, and of the left-over
bytes. -/
theorem logOf_cut {fs : List Write} (hfs : ∀ f ∈ fs, ReadableFact py f)
    (n : Nat) :
    ∃ leftover,
      (encodeFacts fs).take n = encodeFacts (whole n fs) ++ leftover ∧
        LogOf py ((encodeFacts fs).take n) (whole n fs) leftover := by
  obtain ⟨c, hc, hmore⟩ := (logOf_nil py).extend
  rw [List.append_nil] at hc
  subst hc
  have hcut := hmore fs hfs n
  refine ⟨_, ?_, hcut⟩
  have hwhole := Decoder.wholly_flatMap_prefix encodeFact n fs
  exact (List.prefix_iff_eq_append.mp hwhole).symm

/-- The records a scan finds, with the offsets they start at. -/
def recordsOf (fs : List Write) : List Record :=
  (Decoder.located encodeRecord 0 (fs.map factParts)).map toRecord

theorem parts_recordsOf (fs : List Write) :
    (recordsOf fs).map Record.parts = fs.map factParts := by
  have hparts : (Record.parts ∘ toRecord) =
      (Prod.snd : Nat × List Bytes → List Bytes) := rfl
  rw [recordsOf, List.map_map, hparts, Decoder.located_map_snd]

/-- The scan of a cut, exactly. -/
theorem scan_cut {fs : List Write} (hfs : ∀ f ∈ fs, ReadableFact py f)
    (n : Nat) {leftover : Bytes}
    (hcut : (encodeFacts fs).take n =
      encodeFacts (whole n fs) ++ leftover) :
    scan py ((encodeFacts fs).take n) =
      .ok ⟨recordsOf (whole n fs), (encodeFacts (whole n fs)).length,
        leftover.length⟩ := by
  have hwords : ∀ parts ∈ fs.map factParts, ∀ offset,
      Decoder.Encodes (recordDecoder py offset) (encodeRecord parts)
        parts := by
    intro parts hparts offset
    obtain ⟨f, hf, rfl⟩ := List.mem_map.mp hparts
    exact encodes_fact (hfs f hf) offset
  have hscan := Decoder.scans_take incremental_record hwords
    (fun parts _ => encodeRecord_ne_nil parts) n 0
  have hwhole : Decoder.wholly encodeRecord n (fs.map factParts) =
      (whole n fs).map factParts := Decoder.wholly_map encodeRecord _ n fs
  rw [hwhole, flatMap_map_factParts, flatMap_map_factParts, hcut,
    List.drop_left] at hscan
  rw [hcut, scan_of_scans hscan, List.length_append, Nat.add_sub_cancel]
  rfl

/-- **Every crash point is recoverable.**  The load of any cut of a log
applies exactly the records wholly within it, reports the bytes left over and
leaves the file equal to those records; loading that file again changes
nothing, and what is appended to it is loaded behind them. -/
theorem every_crash_point_recoverable (py : Interpreter) (fs : List Write)
    (hfs : ∀ f ∈ fs, ReadableFact py f) (n : Nat)
    (maxmemory : Int) (policy : MaxmemoryPolicy) :
    ∃ leftover,
      (encodeFacts fs).take n = encodeFacts (whole n fs) ++ leftover ∧
      scan py ((encodeFacts fs).take n) =
        .ok ⟨recordsOf (whole n fs), (encodeFacts (whole n fs)).length,
          leftover.length⟩ ∧
      (recordsOf (whole n fs)).map Record.parts =
        (whole n fs).map factParts ∧
      ∀ clock : Clock,
        (load py).run (init clock maxmemory policy,
            LogFile.intact ((encodeFacts fs).take n)) =
          (.ok (loadReport (init clock maxmemory policy) (whole n fs)
              leftover.length),
            (loaded (init clock maxmemory policy) (whole n fs),
              LogFile.intact (encodeFacts (whole n fs)))) ∧
        (load py).run (init clock maxmemory policy,
            LogFile.intact (encodeFacts (whole n fs))) =
          (.ok (loadReport (init clock maxmemory policy) (whole n fs) 0),
            (loaded (init clock maxmemory policy) (whole n fs),
              LogFile.intact (encodeFacts (whole n fs)))) ∧
        ∀ later : List Write, (∀ f ∈ later, ReadableFact py f) →
          (load py).run (init clock maxmemory policy,
              LogFile.intact
                (encodeFacts (whole n fs) ++ encodeFacts later)) =
            (.ok (loadReport (init clock maxmemory policy)
                (whole n fs ++ later) 0),
              (loaded (init clock maxmemory policy) (whole n fs ++ later),
                LogFile.intact
                  (encodeFacts (whole n fs) ++ encodeFacts later))) := by
  obtain ⟨leftover, hcut, hlog⟩ := logOf_cut hfs n
  refine ⟨leftover, hcut, scan_cut hfs n hcut, parts_recordsOf _, ?_⟩
  intro clock
  have hexact := exact_init clock maxmemory policy
  have hkept : ((encodeFacts fs).take n).take
      (((encodeFacts fs).take n).length - leftover.length) =
      encodeFacts (whole n fs) := by
    rw [hcut, List.length_append, Nat.add_sub_cancel, List.take_left]
  have hwhole : LogOf py (encodeFacts (whole n fs)) (whole n fs) [] := by
    have := hlog.kept.2
    rwa [hkept] at this
  refine ⟨?_, ?_, ?_⟩
  · rw [load_run_of_logOf hexact hlog, hkept]
  · exact load_run_of_clean hexact hwhole
  · intro later hlater
    exact load_run_of_clean hexact (hwhole.append hlater)

/-- A cut inside a payload that looks like a record itself: the first record
survives, the 29 bytes of the second are dropped. -/
theorem crash_inside_payload :
    ∃ leftover : Bytes, leftover.length = 29 ∧
      scan .default ((encodeFacts
        [.put (ascii "k") (ascii "v") none,
          .put (ascii "j") (ascii "*1\r\n$1\r\nx") none]).take 56) =
        .ok ⟨recordsOf [.put (ascii "k") (ascii "v") none], 27,
          leftover.length⟩ := by
  have hreadable : ∀ f ∈ ([.put (ascii "k") (ascii "v") none,
      .put (ascii "j") (ascii "*1\r\n$1\r\nx") none] : List Write),
      ReadableFact .default f := by
    intro f hf
    simp only [List.mem_cons, List.not_mem_nil, or_false] at hf
    rcases hf with rfl | rfl
    · exact ⟨by decide, by decide, by simp⟩
    · exact ⟨by decide, by decide, by simp⟩
  obtain ⟨leftover, hcut, hscan, -⟩ :=
    every_crash_point_recoverable .default _ hreadable 56 0 .noeviction
  have hwhole : whole 56 ([.put (ascii "k") (ascii "v") none,
      .put (ascii "j") (ascii "*1\r\n$1\r\nx") none] : List Write) =
      [.put (ascii "k") (ascii "v") none] := by
    decide +kernel
  rw [hwhole] at hcut hscan
  have hkept : (encodeFacts
      ([.put (ascii "k") (ascii "v") none] : List Write)).length = 27 := by
    decide +kernel
  have htaken : ((encodeFacts ([.put (ascii "k") (ascii "v") none,
      .put (ascii "j") (ascii "*1\r\n$1\r\nx") none] :
      List Write)).take 56).length = 56 := by
    decide +kernel
  have hlength := congrArg List.length hcut
  rw [htaken, List.length_append, hkept] at hlength
  rw [hkept] at hscan
  exact ⟨leftover, by omega, hscan⟩

end Aof
end PyRedis
