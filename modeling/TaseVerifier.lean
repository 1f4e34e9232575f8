import TaseVerifier.Library.Forest
import TaseVerifier.Library.Support
import TaseVerifier.Library.Ensures
import TaseVerifier.Expr.CreateCall
import TaseVerifier.Expr.CreateDepth
import TaseVerifier.Constraints.AddSpec
import TaseVerifier.Constraints.Termination
import TaseVerifier.Constraints.Classes
import TaseVerifier.Constraints.DestroyArray
import TaseVerifier.Constraints.CheatConstraints
import TaseVerifier.Constraints.Slicing
import TaseVerifier.Constraints.PathState
import TaseVerifier.Solver.Ideal
import TaseVerifier.Solver.Independent
import TaseVerifier.Solver.Caching
import TaseVerifier.Executor.ToUnique
import TaseVerifier.Executor.MavlinkWrite
import TaseVerifier.Executor.Worker
import TaseVerifier.Memory.Memcpy
import TaseVerifier.Memory.TaintScan
import TaseVerifier.Executor.SymbolicOffset
import TaseVerifier.Executor.KleeInterp
import TaseVerifier.Executor.ValuesCache
import TaseVerifier.ADT.MapOfSets
import TaseVerifier.Expr.Evaluator
import TaseVerifier.Solver.CexCaching
import TaseVerifier.Solver.CexCachingSpec
import TaseVerifier.Solver.Copies
import TaseVerifier.Solver.CanonicalQuery
import TaseVerifier.Memory.PoisonedWrite
import TaseVerifier.Memory.PoisonValue
import TaseVerifier.Memory.ObjectFlat
import TaseVerifier.Basic.KTest
import TaseVerifier.Executor.CVAssignment
import TaseVerifier.Executor.TrainingCluster
import TaseVerifier.Executor.SolveForBindings
import TaseVerifier.Executor.TetriNETLog
import TaseVerifier.Executor.SynthLog
import TaseVerifier.Solver.InitialArray
import TaseVerifier.Solver.InitialValues
import TaseVerifier.Solver.TrivialSolution
import TaseVerifier.Solver.IndependentSweep
import TaseVerifier.ADT.TreeStream
import TaseVerifier.Memory.MapBuf
import TaseVerifier.Manager.Replay
import TaseVerifier.Manager.InfoCache
import TaseVerifier.Manager.Slots
import TaseVerifier.Manager.BranchIds
import TaseVerifier.Solver.RangeExact
import TaseVerifier.ADT.MapOfSetsSpec
import TaseVerifier.Expr.EvaluatorExact
import TaseVerifier.Constraints.SimplifyExpr
import TaseVerifier.EditDistance.Prefixes
import TaseVerifier.EditDistance.Ukkonen
import TaseVerifier.EditDistance.Agreement
import TaseVerifier.EditDistance.PhiN
import TaseVerifier.Memory.Resolve
import TaseVerifier.Library.BinarySearch
import TaseVerifier.Solver.GetRange
import TaseVerifier.Library.Nearest
import TaseVerifier.Cluster.Clusterer
import TaseVerifier.Cluster.KMedoids
import TaseVerifier.Cluster.KMeans
import TaseVerifier.Memory.HeapModels
import TaseVerifier.Memory.GuardedHeap
import TaseVerifier.Memory.Realloc
import TaseVerifier.Library.Worklist
import TaseVerifier.Expr.ExprUtil
import TaseVerifier.Executor.ConstraintBOW
import TaseVerifier.Basic.KTestVector
import TaseVerifier.Library.Comparison
import TaseVerifier.Expr.Compare
import TaseVerifier.Expr.CompareMemo
import TaseVerifier.Library.MagicDivision
import TaseVerifier.Library.LowestBit
import TaseVerifier.Solver.ConstantDivision
import TaseVerifier.Solver.STPBuilder
import TaseVerifier.Executor.ConcreteInterpreter
import TaseVerifier.Executor.Interpreter
import TaseVerifier.Executor.Machine
import TaseVerifier.Library.Branching
import TaseVerifier.Module.KModule
import TaseVerifier.Module.TypeCheck
import TaseVerifier.Solver.CoreSolver
import TaseVerifier.Solver.BuilderExact
import TaseVerifier.Executor.RunFunction
import TaseVerifier.Manager.Exploration
