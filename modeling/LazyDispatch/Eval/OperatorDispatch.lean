import LazyDispatch.Eval.UseMethod

/-!
# Dispatch of builtins

An operator dispatches on its operands that have a class attribute, to a method
of its own or of its group.  An internal generic dispatches on its first
argument like any generic.  In both cases the builtin itself runs when there is
no method.
-/

namespace LazyDispatch.Eval

/-- The names of the method for each operand: empty for an operand without the
class that selected the method. -/
def operandNames (name cls : String) (classes : List (Option (List String))) :
    List String :=
  classes.map fun
    | some classes => if classes.contains cls then name else ""
    | none => ""

section OperandNames

variable {name cls : String} {operands : List (Option (List String))}

theorem mem_operandNames {classes : List String}
    (hoperand : some classes ∈ operands) (hcls : cls ∈ classes) :
    name ∈ operandNames name cls operands :=
  List.mem_map.mpr ⟨some classes, hoperand, if_pos (List.contains_iff_mem.mpr hcls)⟩

/-- There are no other names. -/
theorem eq_of_mem_operandNames {entry : String}
    (hentry : entry ∈ operandNames name cls operands) :
    entry = "" ∨ entry = name := by
  obtain ⟨operand, -, rfl⟩ := List.mem_map.mp hentry
  cases operand with
  | none => exact Or.inl rfl
  | some classes =>
      dsimp only
      split
      · exact Or.inr rfl
      · exact Or.inl rfl

end OperandNames

/-- The method for an operator and the classes of the operand that it is for,
given what was found for the operands: the left operand is preferred. -/
def chooseMethod (operator : String) :
    List (Option (List String) × Option MethodMatch) → Eval (Option (List String × MethodMatch))
  | (lhs, some left) :: (_, some right) :: _ => do
    if left.method ≠ right.method then
      warn ("Incompatible methods (\"" ++ left.name ++ "\", \"" ++ right.name ++ "\") for \"" ++
        operator ++ "\"")
    return some (lhs.getD [], left)
  | (lhs, some left) :: _ => return some (lhs.getD [], left)
  | (_, none) :: (rhs, some right) :: _ => return some (rhs.getD [], right)
  | _ => return none

/-- Gets the method of an operator ready, given the classes of all operands and
those of the operand that it was found for. -/
def selectOperator (operator group : String) (classes : List (Option (List String)))
    (dispatched : List String) (found : MethodMatch) (env : Ref) : Eval Selection := do
  let _ ← protect found.method
  let cls := (dispatched[found.index]?).getD ""
  let suffix ← dispatchClasses dispatched found.index false
  let generic ← protectedStrings [operator]
  let method ← protectedStrings (operandNames found.name cls classes)
  let groupName ← protectedStrings [if found.groupMatch then group else ""]
  return {
    name := found.name, method := found.method,
    vars := {
      classes := suffix, generic, method, group := groupName,
      callEnv := env, defEnv := (← get).fixed.base } }

variable (run : Runner)

/-- The method for one operand. -/
def operandMethod (operator group : String) (env : Ref) (classes : Option (List String)) :
    Eval (Option MethodMatch) := do
  match classes with
  | none => return none
  | some classes =>
    let search := MethodSearch.start operator (some group) classes
    return (← findMethod run search env (← get).fixed.base 0 false).1

/-- Dispatches an operator on the classes of its operands, if there is a method. -/
def groupDispatch (group : String) (call : Expr) (builtin : Builtin) (args : List Arg) (env : Ref) :
    Eval (Option Ref) := do
  let operator := builtin.name
  if args.isEmpty || 2 < args.length then return none
  else
    let classes : List (Option (List String)) ← args.mapM fun arg =>
      match arg.value with
      | some ref => explicitClass? ref
      | none => return none
    if classes.all Option.isNone then return none
    else
      let found ← classes.mapM (operandMethod run operator group env)
      match ← chooseMethod operator (classes.zip found) with
      | none => return none
      | some (dispatched, found) =>
        withRoots do
          let selection ← selectOperator operator group classes dispatched found env
          let args ← forcedPromiseArgs call args
          return some (← applyMethod run selection call args env)

/-- The function that the base environment binds to the name of a builtin, or
`NULL`. -/
def baseFunction (builtin : Builtin) : Query Ref := do
  let state ← read
  let binding? ← match state.naming.symbols.find? builtin.name with
    | some symbol => pure ((← environmentAt state.fixed.base).frame.find? symbol)
    | none => pure none
  return (binding?.bind (·.value)).getD state.fixed.null

/-- Dispatches an internal generic on its first argument if that has a class
attribute and there is a method.  The method sees the builtin as its caller. -/
def internalDispatch (call : Expr) (builtin : Builtin) (args : List Arg) (env : Ref) :
    Eval (Option Ref) := do
  match args.head?.bind (·.value) with
  | none => return none
  | some first =>
    if (← explicitClass? first).isNone then return none
    else
      let fn ← baseFunction builtin
      withRoots do
        let mark ← rootDepth
        let args ← forcedPromiseArgs call args
        withContext {
          kind := .internal, call, fn, caller := env, env := some env, args, rootDepth := mark } do
          useMethod run builtin.name first call args env (← get).fixed.base

end LazyDispatch.Eval
