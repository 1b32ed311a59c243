import OpenUH.Libcaf.BruckTermination
import OpenUH.Libcaf.SymmetricOffsets
import OpenUH.Libopenmp.ListDeque
import OpenUH.Libopenmp.LocklessSafety
import OpenUH.Libopenmp.CollapsedSchedule
import OpenUH.Libopenmp.TaskDeletion
import OpenUH.Libcaf.TeamBarrierSafety
import OpenUH.Libopenmp.TaskConstraint
import OpenUH.Libcaf.SyncImagesSafety
import OpenUH.Libcaf.GetCacheCoherence
import OpenUH.Libcaf.LockSafety
import OpenUH.Lno.SystemMarking
import OpenUH.Libcaf.HeapUsage
import OpenUH.Libcaf.TeamLeaders
import OpenUH.Libopenmp.ChunkTransfer
import OpenUH.Libopenmp.SingleConstruct
import OpenUH.Lno.SystemBaseChange
import OpenUH.Lno.SystemStorageRuns
import OpenUH.Libcaf.CharReductionOutcome
import OpenUH.Libcaf.GatherToAllTermination
import OpenUH.Libcaf.StridedCopy
import OpenUH.Lno.Blockability
import OpenUH.Lno.FractionRuns
import OpenUH.Lno.DependenceListEdits
import OpenUH.Libcaf.CollectiveBufferResults
import OpenUH.Cg.PartialDominators
import OpenUH.Cg.PseudoInverseCalls
import OpenUH.Cg.RemainderResults
import OpenUH.Common.PriorityQueueResults
import OpenUH.Libcaf.OutsideTransferSafety
import OpenUH.Libcaf.RemoteAtomicOrders
import OpenUH.Libopenmp.LoopSequence
