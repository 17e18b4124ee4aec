import LazyDispatch.Expr.Basic

/-!
# Expressions of the same form

Two expressions have the same form when they differ in their sites only.
Doubles are compared as numbers: a NaN differs from itself, and the two zeros
are equal.
-/

namespace LazyDispatch.Expr

mutual

/-- Whether two expressions are equal up to their sites. -/
def sameForm : Expr → Expr → Bool
  | literal _ a, literal _ b => a == b
  | symbol _ a, symbol _ b => a == b
  | missing _, missing _ => true
  | call _ head args, call _ head' args' => head.sameForm head' && sameArgs args args'
  | function _ _ formals body, function _ _ formals' body' =>
    sameFormals formals formals' && body.sameForm body'
  | block _ exprs, block _ exprs' => sameForms exprs exprs'
  | branch _ condition yes no, branch _ condition' yes' no' =>
    condition.sameForm condition' && yes.sameForm yes' && sameOptional no no'
  | assign _ scope name value, assign _ scope' name' value' =>
    scope == scope' && name == name' && value.sameForm value'
  | _, _ => false

/-- Whether two argument lists have the same tags and values of the same form. -/
def sameArgs : List (Tagged Expr) → List (Tagged Expr) → Bool
  | [], [] => true
  | ⟨tag, value⟩ :: rest, ⟨tag', value'⟩ :: rest' =>
    tag == tag' && value.sameForm value' && sameArgs rest rest'
  | _, _ => false

/-- Whether two lists of formals have the same names and defaults of the same
form. -/
def sameFormals : List (Param Expr) → List (Param Expr) → Bool
  | [], [] => true
  | ⟨name, default⟩ :: rest, ⟨name', default'⟩ :: rest' =>
    name == name' && sameOptional default default' && sameFormals rest rest'
  | _, _ => false

/-- Whether two lists hold expressions of the same form. -/
def sameForms : List Expr → List Expr → Bool
  | [], [] => true
  | expr :: rest, expr' :: rest' => expr.sameForm expr' && sameForms rest rest'
  | _, _ => false

/-- Whether two expressions are both absent or have the same form. -/
def sameOptional : Option Expr → Option Expr → Bool
  | none, none => true
  | some expr, some expr' => expr.sameForm expr'
  | _, _ => false

end

end LazyDispatch.Expr
