import ParcoachRma.Lib.Run
import ParcoachRma.Lib.AvlTree
import ParcoachRma.Lib.AvlDelete
import ParcoachRma.Lib.AvlRanges
import ParcoachRma.Lib.AvlSize
import ParcoachRma.Lib.SearchTree
import ParcoachRma.Lib.AvlBalance
import ParcoachRma.Lib.AvlMap
import ParcoachRma.Lib.AvlInsert
import ParcoachRma.Lib.LockOrder
import ParcoachRma.Lib.LockedStore
import ParcoachRma.Lib.Counting
import ParcoachRma.Lib.SymbolTable
import ParcoachRma.Lib.LinkedHeap
import ParcoachRma.Lib.HeapFrame
import ParcoachRma.Lib.TreeHeap
import ParcoachRma.Lib.TreeHeapSpec
import ParcoachRma.Lib.Simulation
import ParcoachRma.Lib.Typemap
import ParcoachRma.Lib.DoubleList
import ParcoachRma.UtHash
import ParcoachRma.UtHashSpec
import ParcoachRma.Interval
import ParcoachRma.IntervalStores
import ParcoachRma.TreeOperations
import ParcoachRma.NotifOperations
import ParcoachRma.TreeRelease
import ParcoachRma.TreeSizes
import ParcoachRma.IntervalList
import ParcoachRma.State
import ParcoachRma.SaveInterval
import ParcoachRma.Detection
import ParcoachRma.PlainTree
import ParcoachRma.NotifCoupling
import ParcoachRma.StoreMemory
import ParcoachRma.StoreMemoryRun
import ParcoachRma.NotifLifetime
import ParcoachRma.UnregisteredClears
import ParcoachRma.LockScripts
import ParcoachRma.Epoch
import ParcoachRma.Barrier
import ParcoachRma.Start
import ParcoachRma.Lifecycle
import ParcoachRma.TagSeparation
import ParcoachRma.TagSlots
import ParcoachRma.TagAgreement
import ParcoachRma.Transfer
import ParcoachRma.Footprint
import ParcoachRma.ByteEncoding
import ParcoachRma.WriteEpochs
import ParcoachRma.WindowFilter
import ParcoachRma.WinAllocate
import ParcoachRma.FortranWrappers
import ParcoachRma.Instrumentation
import ParcoachRma.InstrumentationCoverage
import ParcoachRma.Protocol
import ParcoachRma.ProtocolInvariant
import ParcoachRma.ProtocolAppSteps
import ParcoachRma.ProtocolThreadSteps
import ParcoachRma.ProtocolRun
import ParcoachRma.SystemRun
import ParcoachRma.Alike
import ParcoachRma.ProtocolProgress
import ParcoachRma.SystemDetection
import ParcoachRma.PutEpochs
import ParcoachRma.Windows
import ParcoachRma.WindowsProjection
import ParcoachRma.WindowTable
import ParcoachRma.WindowTableSpec
import ParcoachRma.WindowTableRun
