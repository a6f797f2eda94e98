import Alkali.Pipeline.Interleave
import Alkali.Pipeline.EventSides
import Alkali.LiftLLVM.ReplaceCorrect
import Alkali.LiftLLVM.Dataflow
import Alkali.MLIRGen.IfElse
import Alkali.MLIRGen.StraightLineRun
import Alkali.Atomic.Sync
import Alkali.Purity.MergeCorrect
import Alkali.Mapping.Replicas
import Alkali.Mapping.Carriers
import Alkali.Context.Pipeline
import Alkali.Context.Arguments
import Alkali.Lowering.Arithmetic
import Alkali.Lowering.Conversion
import Alkali.Fpga.Select
import Alkali.Fpga.GuardPred
import Alkali.Fpga.Barrier
import Alkali.Fpga.CtrlSelector
import Alkali.Fpga.Emit
import Alkali.Fpga.CamProgress
import Alkali.Fpga.Dispatcher
import Alkali.Fpga.PredicateRuns
import Alkali.Fpga.ArgDemuxRounds
import Alkali.Fpga.TablePorts
import Alkali.Mapping.TablePolicy
import Alkali.Lowering.BufferGrowth
import Alkali.Lowering.RuntimeTable
import Alkali.Lowering.GlobalPartition
import Alkali.Lowering.TypeSizes
import Alkali.Mapping.KCutStages
import Alkali.Mapping.ArchMapping
import Alkali.Mapping.BufferToRef
import Alkali.Netronome.Names
import Alkali.Netronome.ContextRing
import Alkali.Context.Promotion
import Alkali.Netronome.BulkMemcpy
import Alkali.Lowering.SyncMutex
import Alkali.Netronome.TableMemory
import Alkali.Lowering.WrapperTypes
import Alkali.Pipeline.CollapseOrder
import Alkali.Lowering.DeadField
