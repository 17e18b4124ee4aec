import LazyDispatch.Args
import LazyDispatch.EvalError
import LazyDispatch.Expr.Term
import LazyDispatch.Heap.Basic
import LazyDispatch.MethodCache
import LazyDispatch.RootStack

/-!
# The state of an interpreter

Everything that evaluation reads and writes: the heap with its roots, the calls
in progress, the names, the method cache and the warnings.
-/

namespace LazyDispatch

/-- What a call in progress is. -/
inductive ContextKind where
  /-- The call of a closure. -/
  | function
  /-- A builtin that dispatches, so that methods see a caller. -/
  | internal
deriving DecidableEq

/-- A call in progress. -/
structure CallContext where
  kind : ContextKind
  call : Expr
  /-- The function that is called. -/
  fn : Ref
  /-- The environment of the caller. -/
  caller : Ref
  /-- The environment that the function works in, once it is allocated. -/
  env : Option Ref
  args : List Arg
  /-- The depth of the root stack at the start of the call. -/
  rootDepth : Nat

/-- The references that a call holds. -/
def CallContext.edges (context : CallContext) : List Ref :=
  context.fn :: context.caller :: (context.env.toList ++ Args.values context.args)

/-- Whether a call is the call of a closure that works in `env`. -/
def CallContext.worksIn (env : Ref) (context : CallContext) : Bool :=
  context.kind = .function && context.env = some env

/-- The objects that exist once and for all. -/
structure Fixed where
  null : Ref
  /-- The environment of the builtins. -/
  base : Ref
  /-- The environment of top-level evaluation, inside the base. -/
  global : Ref
  /-- The table of registered methods. -/
  methods : Ref
  /-- What a generic returns to let the builtin run. -/
  deferred : Ref

/-- The references of the fixed objects. -/
def Fixed.edges (fixed : Fixed) : List Ref :=
  [fixed.null, fixed.base, fixed.global, fixed.methods, fixed.deferred]

/-- The state of an interpreter. -/
structure Interpreter where
  heap : Heap
  roots : RootStack
  /-- The calls in progress, the innermost first. -/
  contexts : List CallContext
  naming : Naming
  reserved : Reserved
  fixed : Fixed
  cache : MethodCache
  /-- Whether `standardGeneric` calls plain functions when the host has no hook
  for it. -/
  plainStandardGeneric : Bool
  /-- The evaluations counted so far, while they are counted. -/
  meter : Option Nat
  warnings : List String
  /-- The most calls that may be in progress. -/
  maxDepth : Nat

namespace Interpreter

/-- The references that a collection starts from. -/
def rootRefs (state : Interpreter) : List Ref :=
  state.fixed.edges ++ state.roots.edges ++ state.contexts.flatMap CallContext.edges ++
    state.cache.edges

/-- The innermost closure call that works in `env`. -/
def functionWithEnv? (state : Interpreter) (env : Ref) : Option CallContext :=
  state.contexts.find? (CallContext.worksIn env)

/-- The name of a symbol for texts and for matching.  These only meet symbols of
the interpreter's own table; others would read as the empty text. -/
def symbolName (state : Interpreter) (symbol : Symbol) : String :=
  (state.naming.symbols.name? symbol).getD ""

/-- A summary of the state. -/
def summary (state : Interpreter) : String :=
  "Interpreter \x7b contexts: " ++ toString state.contexts.length ++ ", roots: " ++
    toString state.roots.depth ++ ", cells: " ++ toString state.heap.allocatedCells ++ " \x7d"

end Interpreter

end LazyDispatch
