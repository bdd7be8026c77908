import MonoRuntime.Proofs.Liveness
import MonoRuntime.Proofs.BasicBlockLiveness
import MonoRuntime.Proofs.TypeDefLocator
import MonoRuntime.Proofs.CodeManager
import MonoRuntime.Proofs.TypeHash
import MonoRuntime.Proofs.BranchLoop
import MonoRuntime.Proofs.MethodBody
import MonoRuntime.Proofs.JitInfoOwnership
import MonoRuntime.Proofs.ClassBitmap
import MonoRuntime.Proofs.Inflation
import MonoRuntime.Proofs.SignatureEquality
import MonoRuntime.Proofs.MonoDebug
import MonoRuntime.Proofs.GHashTable
import MonoRuntime.Proofs.AotExceptionInfo
import MonoRuntime.Proofs.AotKlassInfo
import MonoRuntime.Proofs.AotPatches
import MonoRuntime.Proofs.GMarkup
import MonoRuntime.Proofs.OpcodeSize
import MonoRuntime.Proofs.StrEnc
import MonoRuntime.Proofs.AbcEvaluation
import MonoRuntime.Proofs.AbcRelations
import MonoRuntime.Proofs.MonitorWakeup
import MonoRuntime.Proofs.MonitorPulses
import MonoRuntime.Proofs.MonitorObjects
import MonoRuntime.Proofs.DecomposeLongOpts
import MonoRuntime.Proofs.ConstantFold
import MonoRuntime.Proofs.DecimalIncr
import MonoRuntime.Proofs.DominanceFrontier
import MonoRuntime.Proofs.LiveInterval
import MonoRuntime.Proofs.MonoBitsetOps
import MonoRuntime.Proofs.NaturalLoops
import MonoRuntime.Proofs.UnwindFde
import MonoRuntime.Proofs.DecimalDiv
import MonoRuntime.Proofs.DecimalDouble
import MonoRuntime.Proofs.DecimalRound
import MonoRuntime.Proofs.UnlinkBlocks
import MonoRuntime.Proofs.CompressedValue
import MonoRuntime.Proofs.TableRow
import MonoRuntime.Proofs.GShell
import MonoRuntime.Proofs.GUri
import MonoRuntime.Proofs.MonoPath
