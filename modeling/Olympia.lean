import Olympia.Lib.Run
import Olympia.Lib.Pool
import Olympia.Lib.Journal
import Olympia.Lib.Credit
import Olympia.Lib.Latest
import Olympia.Lib.Event
import Olympia.Lib.Pipeline
import Olympia.Inst
import Olympia.FlushManager
import Olympia.MemoryAccessInfo
import Olympia.Rename.Model
import Olympia.Rename.Accounting
import Olympia.Rename.Record
import Olympia.Rename.Tables
import Olympia.Rename.Runs
import Olympia.Rename.Flush
import Olympia.Rob
import Olympia.Dispatch
import Olympia.DispatchEvent
import Olympia.DecodeEvent
import Olympia.UopGeneration
import Olympia.UopSequences
import Olympia.RobCredits
import Olympia.InStep
import Olympia.VectorUopGenerator
import Olympia.Fetch
import Olympia.Decode
import Olympia.FetchCredits
import Olympia.FetchOrder
import Olympia.FetchOccupancy
import Olympia.Overflow
import Olympia.UnitCredits
import Olympia.Execute.ExecutePipe
import Olympia.Execute.IssueQueue
import Olympia.Lsu.Model
import Olympia.Lsu.Held
import Olympia.Execute.Units
import Olympia.Execute.Held
import Olympia.Core
import Olympia.RetireEvent
import Olympia.OperandsReady
import Olympia.ScoreboardTruth
import Olympia.Mss.L2Cache
import Olympia.Mss.L2System
import Olympia.Mss.L2Room
import Olympia.Mss.L2Answers
import Olympia.Mss.L2Merge
import Olympia.Mss.L2Progress
import Olympia.Lib.Port
import Olympia.Mss.Biu
import Olympia.Mss.BusSystem
import Olympia.Mss.BusOrder
import Olympia.Mss.MemSystem
import Olympia.Lsu.DCache
import Olympia.Lsu.DCacheSystem
import Olympia.Lsu.Mshr
import Olympia.ICache.Model
import Olympia.ICache.System
import Olympia.ICache.Moves
import Olympia.ICache.Answers
import Olympia.ICache.Progress
import Olympia.Lsu.Refills
import Olympia.Lsu.System
import Olympia.Lsu.Moves
import Olympia.Lsu.Invariant
import Olympia.Lsu.ReadyQueue
import Olympia.Lsu.Writeback
import Olympia.Lsu.Forwarding
import Olympia.Lsu.FlushTrace
import Olympia.Lsu.Addresses
import Olympia.Lsu.OlderStores
import Olympia.DecodeVsets
import Olympia.RetiredInsts
import Olympia.Unexecuted
import Olympia.DecodeCore
import Olympia.VectorConfigs
import Olympia.Execute.PipePasses
import Olympia.Execute.IssueOnce
import Olympia.IssueEvent
import Olympia.FlushRequests
import Olympia.DispatchSession
import Olympia.RobTargeted
import Olympia.Lib.Mask
import Olympia.Lsu.Coverage
import Olympia.Rename.Counts
import Olympia.Rename.Whole
import Olympia.Lib.StableQueue
import Olympia.Execute.IssueOrder
import Olympia.Lsu.Abort
import Olympia.Lsu.Uncached
import Olympia.Rename.LoadProducer
import Olympia.InStepFlow
import Olympia.InstGenerator
import Olympia.ProgramIds
import Olympia.ProgramSequence
import Olympia.StoreBuffer
import Olympia.Cpu
import Olympia.UopOperands
import Olympia.UopRegisters
import Olympia.Execute.VintPasses
import Olympia.Fusion.Matching
import Olympia.VsetRules
import Olympia.Fusion.Windows
import Olympia.Fusion.Session
import Olympia.BranchPredictor
import Olympia.Rename.SanityCheck
import Olympia.Lib.Dataflow
import Olympia.Rename.Values
import Olympia.ProgramValues
import Olympia.PreciseState
import Olympia.TraceExecution
import Olympia.UopValues
import Olympia.Mss.L2Holds
import Olympia.Mss.MemBus
import Olympia.Mss.MemAnswers
import Olympia.ICache.Requests
import Olympia.InstMemory
import Olympia.Lsu.MshrRequests
import Olympia.DataMemory
import Olympia.MemoryHierarchy
import Olympia.FetchEvent
import Olympia.FrontEnd
