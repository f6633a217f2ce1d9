import PyRedis.Core.Aof
import PyRedis.Core.Clients
import PyRedis.Core.Commands
import PyRedis.Core.Connection
import PyRedis.Core.Demo
import PyRedis.Core.Disk
import PyRedis.Core.Python
import PyRedis.Core.Resp
import PyRedis.Core.Server
import PyRedis.Core.Store
import PyRedis.Foundation.CodeWords
import PyRedis.Foundation.Decimal
import PyRedis.Foundation.Decoder
import PyRedis.Foundation.Equivariance
import PyRedis.Foundation.EventLoop
import PyRedis.Foundation.Fallible
import PyRedis.Foundation.Linearizability
import PyRedis.Foundation.Mirrors
import PyRedis.Foundation.OrderedDict
import PyRedis.Foundation.Replacement
import PyRedis.Foundation.Segments
import PyRedis.Foundation.TimedMap
import PyRedis.Foundation.Unwinding
import PyRedis.Foundation.Verdicts
import PyRedis.Theory.Admission
import PyRedis.Theory.AdmissionLaws
import PyRedis.Theory.AlikeStores
import PyRedis.Theory.Bookkeeping
import PyRedis.Theory.BoundedReference
import PyRedis.Theory.BoundedServer
import PyRedis.Theory.CallerReplies
import PyRedis.Theory.ClientDurability
import PyRedis.Theory.ColdestKeys
import PyRedis.Theory.CommandAtomicity
import PyRedis.Theory.CommandEffects
import PyRedis.Theory.CommandSteps
import PyRedis.Theory.Conversations
import PyRedis.Theory.CounterDeadlines
import PyRedis.Theory.CrashPoints
import PyRedis.Theory.CrashReference
import PyRedis.Theory.DamagedLogs
import PyRedis.Theory.DamagedRecords
import PyRedis.Theory.DeclaredErrors
import PyRedis.Theory.Eviction
import PyRedis.Theory.EvictionRuns
import PyRedis.Theory.FailedCommands
import PyRedis.Theory.FlushResidue
import PyRedis.Theory.FreshReads
import PyRedis.Theory.Garbage
import PyRedis.Theory.IntegerParsing
import PyRedis.Theory.Interleaving
import PyRedis.Theory.Introspection
import PyRedis.Theory.Invariants
import PyRedis.Theory.Isolation
import PyRedis.Theory.JournalChoice
import PyRedis.Theory.JournalFailure
import PyRedis.Theory.JournalRuns
import PyRedis.Theory.Keyspace
import PyRedis.Theory.LastingReplies
import PyRedis.Theory.LazyExpiration
import PyRedis.Theory.Lives
import PyRedis.Theory.LogGrammar
import PyRedis.Theory.LogReplay
import PyRedis.Theory.Moments
import PyRedis.Theory.Plans
import PyRedis.Theory.PowerFailure
import PyRedis.Theory.RecencyOrder
import PyRedis.Theory.RecordFraming
import PyRedis.Theory.ReferenceMachine
import PyRedis.Theory.RefusedLogs
import PyRedis.Theory.ReplayIdempotence
import PyRedis.Theory.ReplayRefinement
import PyRedis.Theory.ReplyFraming
import PyRedis.Theory.RequestFraming
import PyRedis.Theory.RequestGrammar
import PyRedis.Theory.Restarts
import PyRedis.Theory.Sampling
import PyRedis.Theory.SegmentedReading
import PyRedis.Theory.ServerRuns
import PyRedis.Theory.Sessions
import PyRedis.Theory.StoreEffects
import PyRedis.Theory.StoreInvariant
import PyRedis.Theory.StoreOperations
import PyRedis.Theory.SweepCoverage
import PyRedis.Theory.TornTails
