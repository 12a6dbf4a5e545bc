import TensorIR.Text
import TensorIR.NameMap
import TensorIR.Shape
import TensorIR.Shape.Stretching
import TensorIR.Shape.MultiIndex
import TensorIR.Shape.Walk
import TensorIR.Ty
import TensorIR.Decimal
import TensorIR.Tensor.Basic
import TensorIR.Source.Syntax
import TensorIR.Source.Annotation
import TensorIR.Source.Scope
import TensorIR.Source.DataType
import TensorIR.Source.Module
import TensorIR.Source.IndexedModule
import TensorIR.Lowered.Syntax
import TensorIR.Lowered.Equality
import TensorIR.Lowered.Checked
import TensorIR.Lowered.Table
import TensorIR.Lowered.IndexedTable
import TensorIR.Lowered.Layout
import TensorIR.Value.Basic
import TensorIR.Value.Conformance
import TensorIR.Value.Equality
import TensorIR.Matching.Coverage
import TensorIR.Matching.Binding
import TensorIR.Kernel.Basic
import TensorIR.Kernel.Elementwise
import TensorIR.Kernel.Joining
import TensorIR.Kernel.Builtin
import TensorIR.Lowering.Error
import TensorIR.Lowering.State
import TensorIR.Lowering.Inference
import TensorIR.Lowering.Clause
import TensorIR.Lowering.Body
import TensorIR.Lowering.Unit
import TensorIR.Run.Error
import TensorIR.Run.State
import TensorIR.Run.Evaluator
import TensorIR.Run.Invocation
import TensorIR.Report.Diagnostic
import TensorIR.Report.Log
import TensorIR.Proofs.Steps
import TensorIR.Proofs.Modules
import TensorIR.Proofs.PatternTyping
import TensorIR.Proofs.LoweringSteps
import TensorIR.Proofs.Coverage
import TensorIR.Proofs.Frames
import TensorIR.Proofs.DataValues
import TensorIR.Proofs.NodeTyping
import TensorIR.Proofs.ValueTyping
import TensorIR.Proofs.TypeSoundness
import TensorIR.Proofs.Naming
import TensorIR.Proofs.Translation
import TensorIR.Proofs.LoweringTranslates
import TensorIR.Proofs.FreeVariables
import TensorIR.Proofs.LexicalScope
import TensorIR.Proofs.ScopeLeaks
import TensorIR.Proofs.OperandLets
import TensorIR.Proofs.KernelData
import TensorIR.Proofs.SourceEvaluation
import TensorIR.Proofs.BindOnce
import TensorIR.Proofs.KernelMeanings
import TensorIR.Proofs.FunctionTables
import TensorIR.Proofs.UnitTranslation
import TensorIR.Proofs.Representation
import TensorIR.Proofs.Agreement
import TensorIR.Proofs.Simulation
import TensorIR.Proofs.MeaningPreserved
import TensorIR.Proofs.MissingShapes
import TensorIR.Proofs.EveryNode
import TensorIR.Proofs.GuardedRuns
import TensorIR.Proofs.LoweringOutcomes
import TensorIR.Proofs.ScopedCode
import TensorIR.Proofs.LinkedCode
import TensorIR.Proofs.UnitHistory
import TensorIR.Proofs.LinkedPrograms
import TensorIR.Proofs.BoundNames
import TensorIR.Proofs.KernelCalls
import TensorIR.Proofs.TypeInference
import TensorIR.Proofs.References
import TensorIR.Proofs.Lockstep
import TensorIR.Proofs.UnitSteps
import TensorIR.Proofs.Requests
import TensorIR.Proofs.ReachableGlobals
import TensorIR.Proofs.DeclaredUnits
import TensorIR.Proofs.RequestOrder
import TensorIR.Proofs.DistinctBinders
import TensorIR.Proofs.NoClashes
import TensorIR.Proofs.CheckedMatches
import TensorIR.Proofs.TwinRuns
import TensorIR.Proofs.DepthLimit
import TensorIR.Proofs.FlatFrames
import TensorIR.Proofs.KernelChecks
import TensorIR.Proofs.SharedFunctions
import TensorIR.Proofs.Broadcasting
import TensorIR.Proofs.StampedTypes
import TensorIR.Proofs.OperandFit
import TensorIR.Proofs.IndexWalks
import TensorIR.Proofs.ElementwiseKernels
import TensorIR.Proofs.IntegerElements
import TensorIR.Proofs.IntegerDivision
import TensorIR.Proofs.IntegerSums
import TensorIR.Proofs.Concatenation
import TensorIR.Proofs.TableCalls
import TensorIR.Proofs.NameIndexes
import TensorIR.Proofs.IndexedTables
import TensorIR.Proofs.ConstructorNames
import TensorIR.Proofs.PrintedTexts
import TensorIR.Proofs.PrintedTypes
import TensorIR.Proofs.PrintedLeaves
import TensorIR.Proofs.PlainCode
import TensorIR.Proofs.PlainRuns
import TensorIR.Proofs.PrintedNodes
import TensorIR.Proofs.NeatCode
import TensorIR.Proofs.PrintedPrograms
import TensorIR.Proofs.FreeOccurrences
import TensorIR.Proofs.FlatLets
import TensorIR.Proofs.InferenceEnds
import TensorIR.Proofs.ModuleHistory
import TensorIR.Proofs.IndexedModules
import TensorIR.Proofs.SearchRuns
import TensorIR.Proofs.PatternPositions
