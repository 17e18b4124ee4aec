import LazyDispatch.Expr.Basic

/-!
# Terms

A term is an expression as it is written: names are text and nodes have no
sites.  Resolving a term interns its names in the order in which they are
written, and gives every node and the formals of every function a new site.
-/

namespace LazyDispatch

/-- An expression as it is written. -/
inductive Term where
  | literal (value : Literal)
  | symbol (name : String)
  | missing
  | call (head : Term) (args : List (Option String × Term))
  | function (formals : List (String × Option Term)) (body : Term)
  | block (terms : List Term)
  | branch (condition yes : Term) (no : Option Term)
  | assign (scope : AssignScope) (name : String) (value : Term)

/-- What resolving terms draws on: the symbol table and the next unused site. -/
structure Naming where
  symbols : SymbolTable
  nextSite : Nat

namespace Naming

/-- Interns a name. -/
def intern (name : String) : StateM Naming Symbol := fun naming =>
  let (symbol, symbols) := naming.symbols.intern name
  (symbol, { naming with symbols })

/-- Interns a name that may be absent. -/
def intern? : Option String → StateM Naming (Option Symbol)
  | none => return none
  | some name => return some (← intern name)

/-- Takes the next unused site. -/
def freshSite : StateM Naming Nat := fun naming =>
  (naming.nextSite, { naming with nextSite := naming.nextSite + 1 })

end Naming

namespace Term

open Naming

mutual

/-- The expression that a term denotes.  The operator of a call comes before its
arguments, a tag before its value, the name of an assignment before its value,
and formals before the body. -/
def resolve : Term → StateM Naming Expr
  | literal value => return .literal (← freshSite) value
  | symbol name => return .symbol (← freshSite) (← intern name)
  | missing => return .missing (← freshSite)
  | call head args => return .call (← freshSite) (← head.resolve) (← resolveArgs args)
  | function formals body =>
    return .function (← freshSite) (← freshSite) (← resolveFormals formals)
      (← body.resolve)
  | block terms => return .block (← freshSite) (← resolveAll terms)
  | branch condition yes no =>
    return .branch (← freshSite) (← condition.resolve) (← yes.resolve) (← resolve? no)
  | assign scope name value =>
    return .assign (← freshSite) scope (← intern name) (← value.resolve)

/-- Resolves the arguments of a call. -/
def resolveArgs : List (Option String × Term) → StateM Naming (List ExprArg)
  | [] => return []
  | (tag, value) :: rest => do
    let tag ← intern? tag
    let value ← value.resolve
    return ⟨tag, value⟩ :: (← resolveArgs rest)

/-- Resolves formals, each name before its default. -/
def resolveFormals : List (String × Option Term) → StateM Naming (List Formal)
  | [] => return []
  | (name, default) :: rest => do
    let name ← intern name
    let default ← resolve? default
    return ⟨name, default⟩ :: (← resolveFormals rest)

/-- Resolves terms one after the other. -/
def resolveAll : List Term → StateM Naming (List Expr)
  | [] => return []
  | term :: rest => return (← term.resolve) :: (← resolveAll rest)

/-- Resolves a term that may be absent. -/
def resolve? : Option Term → StateM Naming (Option Expr)
  | none => return none
  | some term => return some (← term.resolve)

end

end Term

end LazyDispatch
