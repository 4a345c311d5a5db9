import Slimmer.Merge
import Slimmer.Machine
import Slimmer.Padding
import Slimmer.Layout
import Slimmer.Lib.Turns
import Slimmer.Writer
import Slimmer.TraceIter
import Slimmer.Ring
import Slimmer.RingInvariant
import Slimmer.RingFifo
import Slimmer.RingClose
import Slimmer.SegmentTree
import Slimmer.MemoryDependency
import Slimmer.Atomic
import Slimmer.Unneeded
import Slimmer.PassSteps
import Slimmer.Naming
import Slimmer.MemoryClosed
import Slimmer.Reading
import Slimmer.Arrangement
import Slimmer.Stacks
import Slimmer.TerminatorUsed
import Slimmer.OperandClosed
import Slimmer.Threads
import Slimmer.Brackets
import Slimmer.Lib.Graph
import Slimmer.PostDominator
import Slimmer.PostDominatorRight
import Slimmer.GroupMemory
import Slimmer.GroupConsistent
import Slimmer.MergeInst
import Slimmer.GroupBlocks
import Slimmer.Twins
import Slimmer.Exchange
import Slimmer.GroupUnion
import Slimmer.SegmentMap
import Slimmer.DependencyOrder
import Slimmer.Rescans
import Slimmer.InstFile
import Slimmer.InstDecodes
import Slimmer.OperandPositions
import Slimmer.PinRecorder
import Slimmer.PinAgrees
import Slimmer.PinDepth
import Slimmer.Callers
import Slimmer.ArgumentLabels
import Slimmer.CompressBuffer
import Slimmer.DamagedTrace
import Slimmer.Lib.Loops
import Slimmer.PinEnds
import Slimmer.Lib.Search
import Slimmer.BugReports
import Slimmer.Inefficacious
import Slimmer.Classified
import Slimmer.AddressLinks
import Slimmer.CollectCalls
import Slimmer.MergedReading
import Slimmer.PhiPredecessor
import Slimmer.LabelsApart
import Slimmer.ArgumentRuns
import Slimmer.TreeShape
import Slimmer.LabelsLive
import Slimmer.EitherEnd
import Slimmer.Lib.Packing
import Slimmer.RingRecords
import Slimmer.RingReading
import Slimmer.RingProgress
import Slimmer.Instrument
import Slimmer.InstrumentedRuns
import Slimmer.InstrumentedTables
import Slimmer.InstrumentedSteps
import Slimmer.InstrumentedTraces
import Slimmer.AnalysisCompletes
import Slimmer.InstrumentedReports
import Slimmer.ControlFlow
import Slimmer.ReportLines
import Slimmer.PrintBugMain
