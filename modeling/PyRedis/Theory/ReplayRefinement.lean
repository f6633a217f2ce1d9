import PyRedis.Theory.ServerRuns

/-!
# The log refines the server

As long as every append succeeds, the log can be loaded at any point of a run,
and shows what the server shows.  Some entries that the server has collected
may come back with the load, but they are dead by then and nothing shows them.
-/

namespace PyRedis
namespace Server

open Foundation Commands KeyValueStore Aof AppendOnlyFile

variable {py : Interpreter}

/-- **Replaying the log refines the running server.**  From an empty store, or
from one that recovered an earlier log, after any events, the log loads into
any fresh store without an exception and shows what the server shows, at every
time that both have reached. -/
theorem replay_refines_server {fsync : FsyncPolicy}
    {outcomes : Nat → IoOutcome} {clock : Clock} {maxmemory : Int}
    {policy : MaxmemoryPolicy} {log : LogFile}
    {start : KeyValueStore × AppendOnlyFile} {events : List Event}
    (hmono : clock.Monotone) (hprint : Printable py clock)
    (hcalls : ∀ i, (outcomes i).fails = false)
    (hstart : recover py fsync outcomes (init clock maxmemory policy) log =
      .ok start)
    (hevents : ∀ event ∈ events, ReadableEvent py event) :
    Reloads py (afterEvents py start events).2.file.content
      (afterEvents py start events).1.clock.Reached
      (afterEvents py start events).1.keyspace := by
  have hworks : ¬ CallFails outcomes := by
    rintro ⟨i, hi⟩
    rw [hcalls i] at hi
    cases hi
  obtain ⟨fs, hlogged⟩ := logged_of_recover hmono hprint hstart
  obtain ⟨-, gs, hafter⟩ := hlogged.run_events hworks hevents
  rw [hafter.working.content]
  exact reloads_of_logOf hafter.log fun v hv => (hafter.tracks v hv).symm

/-- The key that was evicted does not come back. -/
theorem replay_of_threeWrites :
    Reloads .default
        (afterEvents .default (freshStart (.frozen 0) 132 .allkeysLru .no
          fun _ => ⟨0, false⟩) threeWrites).2.file.content
        (afterEvents .default (freshStart (.frozen 0) 132 .allkeysLru .no
          fun _ => ⟨0, false⟩) threeWrites).1.clock.Reached
        (afterEvents .default (freshStart (.frozen 0) 132 .allkeysLru .no
          fun _ => ⟨0, false⟩) threeWrites).1.keyspace ∧
      (afterEvents .default (freshStart (.frozen 0) 132 .allkeysLru .no
        fun _ => ⟨0, false⟩) threeWrites).1.keyspace (ascii "a") = none :=
  ⟨replay_refines_server (monotone_frozen 0) (printable_frozen (by decide))
    (fun _ => rfl) (recover_absent _ _ _ _) readable_threeWrites,
    by decide +kernel⟩

end Server
end PyRedis
