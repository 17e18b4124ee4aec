import LazyDispatch.Args
import LazyDispatch.Arithmetic
import LazyDispatch.Builtin
import LazyDispatch.Coercion
import LazyDispatch.Demo.Options
import LazyDispatch.Demo.Program
import LazyDispatch.Demo.Report
import LazyDispatch.Eval.Apply
import LazyDispatch.Eval.Arguments
import LazyDispatch.Eval.Attributes
import LazyDispatch.Eval.Basic
import LazyDispatch.Eval.Classes
import LazyDispatch.Eval.Closure
import LazyDispatch.Eval.Control
import LazyDispatch.Eval.Identity
import LazyDispatch.Eval.Invocation
import LazyDispatch.Eval.Lookup
import LazyDispatch.Eval.MethodLookup
import LazyDispatch.Eval.NextMethod
import LazyDispatch.Eval.OperatorDispatch
import LazyDispatch.Eval.Override
import LazyDispatch.Eval.Run
import LazyDispatch.Eval.Special
import LazyDispatch.Eval.StandardGeneric
import LazyDispatch.Eval.Task
import LazyDispatch.Eval.UseMethod
import LazyDispatch.Eval.Vectors
import LazyDispatch.EvalError
import LazyDispatch.Expr.Basic
import LazyDispatch.Expr.Form
import LazyDispatch.Expr.Term
import LazyDispatch.Expr.Text
import LazyDispatch.Fault
import LazyDispatch.Frame
import LazyDispatch.Heap.Basic
import LazyDispatch.Heap.Pool
import LazyDispatch.Heap.Settings
import LazyDispatch.Interpreter.Start
import LazyDispatch.Interpreter.State
import LazyDispatch.Main
import LazyDispatch.Matching
import LazyDispatch.MethodCache
import LazyDispatch.MethodSearch
import LazyDispatch.Object
import LazyDispatch.Ref
import LazyDispatch.RootStack
import LazyDispatch.Symbol
import LazyDispatch.Text.Affix
import LazyDispatch.Text.Combining
import LazyDispatch.Text.Decimal
import LazyDispatch.Text.Quoted
import LazyDispatch.Text.Runs
import LazyDispatch.Text.Unprintable
import LazyDispatch.Proofs.FreeList
import LazyDispatch.Proofs.Accounts
import LazyDispatch.Proofs.HeapCells
import LazyDispatch.Proofs.Tracing
import LazyDispatch.Proofs.Collection
import LazyDispatch.Proofs.Reference
import LazyDispatch.Proofs.ReferenceWords
import LazyDispatch.Proofs.Allocation
import LazyDispatch.Proofs.HeapRun
import LazyDispatch.Proofs.HeapRoom
import LazyDispatch.Proofs.Aliasing
import LazyDispatch.Proofs.Placement
import LazyDispatch.Proofs.Effects
import LazyDispatch.Proofs.HeapLaw
import LazyDispatch.Proofs.SymbolIdentity
import LazyDispatch.Proofs.EvalLaw
import LazyDispatch.Proofs.Balance
import LazyDispatch.Proofs.Generations
import LazyDispatch.Proofs.Persistence
import LazyDispatch.Proofs.Promises
import LazyDispatch.Proofs.MethodOrder
import LazyDispatch.Proofs.DispatchFrame
import LazyDispatch.Proofs.MethodWalk
import LazyDispatch.Proofs.OperatorPlaces
import LazyDispatch.Proofs.OperatorWalk
import LazyDispatch.Proofs.MatchingRule
import LazyDispatch.Proofs.Resolution
import LazyDispatch.Proofs.ArgumentMatching
import LazyDispatch.Proofs.MethodCaching
import LazyDispatch.Proofs.BindingShapes
import LazyDispatch.Proofs.ChainsEnd
import LazyDispatch.Proofs.DispatchScopes
import LazyDispatch.Proofs.Rooting
import LazyDispatch.Proofs.OrderLaw
import LazyDispatch.Proofs.SearchSequence
import LazyDispatch.Proofs.ArgumentOrder
import LazyDispatch.Proofs.DispatchArgument
import LazyDispatch.Proofs.PassedArguments
import LazyDispatch.Proofs.Handover
import LazyDispatch.Proofs.RootTokens
import LazyDispatch.Proofs.FunctionLookup
import LazyDispatch.Proofs.PausedCalls
import LazyDispatch.Proofs.DotsForwarding
import LazyDispatch.Proofs.ArgumentMerging
import LazyDispatch.Proofs.LinkPaths
import LazyDispatch.Proofs.SuperAssignment
import LazyDispatch.Proofs.ObjectIdentity
import LazyDispatch.Proofs.VectorCoercion
import LazyDispatch.Proofs.Combination
import LazyDispatch.Proofs.IntegerArithmetic
import LazyDispatch.Proofs.Startup
import LazyDispatch.Proofs.CallStack
import LazyDispatch.Proofs.MethodNames
