import LazyDispatch.Eval.Lookup
import LazyDispatch.MethodSearch

/-!
# Starting an interpreter

A new interpreter holds five fixed objects and one object for each builtin,
which the base environment binds to its name.  Everything that is allocated on
the way is kept alive by the objects before it, so a collection at any point
reclaims nothing.
-/

namespace LazyDispatch

/-- The configuration of an interpreter. -/
structure Config where
  heap : HeapSettings := {}
  /-- The most calls that may be in progress. -/
  maxDepth : Nat := 512

/-- The reasons why a configuration is refused. -/
inductive ConfigError where
  | heap (cause : SettingsError)
  | maxDepth
deriving DecidableEq

/-- The text of a reason. -/
def ConfigError.message : ConfigError → String
  | heap cause => "invalid arena settings: " ++ cause.message
  | maxDepth => "max_depth must be > 0"

/-- Checks a configuration. -/
def Config.validate (config : Config) : Except ConfigError Unit :=
  match config.heap.validate with
  | .error cause => .error (.heap cause)
  | .ok () => if config.maxDepth = 0 then .error .maxDepth else .ok ()

/-- Why an interpreter does not start. -/
inductive StartError where
  | config (cause : ConfigError)
  | stopped (cause : Stop)

namespace Interpreter

/-- Allocates a fixed object, which joins the roots. -/
def allocateFixed (payload : Object) (roots : List Ref) :
    EStateM Fault Heap (Ref × List Ref) := fun heap =>
  match heap.allocate { payload } roots with
  | .ok ref heap => .ok (ref, roots ++ [ref]) heap
  | .error fault heap => .error fault heap

/-- Allocates the fixed objects. -/
def allocateAllFixed (reserved : Reserved) : EStateM Fault Heap Fixed := do
  let (null, roots) ← allocateFixed .null []
  let (base, roots) ← allocateFixed (.environment (.inside none)) roots
  let (global, roots) ← allocateFixed (.environment (.inside (some base))) roots
  let (methods, roots) ← allocateFixed (.environment (.inside none)) roots
  let (deferred, _) ← allocateFixed (.symbol reserved.deferredDefault) roots
  return { null, base, global, methods, deferred }

/-- Allocates a builtin and binds its name in the base environment. -/
def installBuiltin (builtin : Builtin) : Eval Unit := do
  let ref ← Eval.allocPayload (.builtin builtin)
  let name ← Eval.intern builtin.name
  Eval.defineVar (← get).fixed.base name ref

/-- Binds the names of the base environment. -/
def installBase : Eval Unit := do
  Builtin.all.forM installBuiltin
  let state ← get
  Eval.defineVar state.fixed.base state.reserved.deferredDefault state.fixed.deferred

/-- An interpreter with its fixed objects only. -/
def withFixed (config : Config) (symbols : SymbolTable) (reserved : Reserved)
    (fixed : Fixed) (heap : Heap) : Interpreter where
  heap
  roots := .empty
  contexts := []
  naming := { symbols, nextSite := 1 }
  reserved
  fixed
  cache := .empty
  plainStandardGeneric := false
  meter := none
  warnings := []
  maxDepth := config.maxDepth

/-- Starts an interpreter with names that are interned already. -/
def start (config : Config) (symbols : SymbolTable) : Except StartError Interpreter := do
  match config.validate with
  | .error cause => throw (.config cause)
  | .ok () =>
    match Heap.create config.heap with
    | .error cause => throw (.config (.heap cause))
    | .ok heap =>
      let (reserved, symbols) := Reserved.intern.run symbols
      match (allocateAllFixed reserved).run heap with
      | .error fault _ => throw (.stopped (.fault fault))
      | .ok fixed heap =>
        match installBase.run (withFixed config symbols reserved fixed heap) with
        | .error cause _ => throw (.stopped cause)
        | .ok () state => return state

/-- The registered name of a method of a generic for a class is bound to a
function. -/
def registerMethod (generic cls : String) (fn : Ref) : Eval Unit := do
  let symbol ← Eval.intern (methodName generic cls)
  Eval.defineVar (← get).fixed.methods symbol fn

/-- Binds a name in the global environment. -/
def defineGlobal (name : String) (value : Ref) : Eval Unit := do
  let symbol ← Eval.intern name
  Eval.defineVar (← get).fixed.global symbol value

end Interpreter

end LazyDispatch
