import LazyDispatch.Symbol

/-!
# Expressions

The trees that are evaluated.  Every node carries its site, a number that tells
apart two nodes of the same form, and so do the formals of a function: quoted
expressions and closures are compared by the sites they came from.
-/

namespace LazyDispatch

/-- The constants of the language. -/
inductive Literal where
  | null
  | logical (value : Bool)
  | integer (value : Int64)
  | double (value : Float)
  | string (value : String)
deriving BEq

/-- A value with an optional tag, as in `f(tag = value)`. -/
structure Tagged (α : Type) where
  tag : Option Symbol
  value : α
deriving DecidableEq

/-- A parameter of a function with an optional default. -/
structure Param (α : Type) where
  name : Symbol
  default : Option α

/-- Which frame an assignment writes to. -/
inductive AssignScope where
  /-- The frame in which the assignment is evaluated. -/
  | here
  /-- The nearest enclosing frame that has the name, or else the global one. -/
  | enclosing
deriving DecidableEq

/-- An expression; the first field of every node is its site.  The formals of a
function are shared by its closures, and have a site of their own. -/
inductive Expr where
  | literal (site : Nat) (value : Literal)
  | symbol (site : Nat) (name : Symbol)
  /-- The empty argument, as in `f(x, )`. -/
  | missing (site : Nat)
  | call (site : Nat) (head : Expr) (args : List (Tagged Expr))
  | function (site formalsSite : Nat) (formals : List (Param Expr)) (body : Expr)
  | block (site : Nat) (exprs : List Expr)
  | branch (site : Nat) (condition yes : Expr) (no : Option Expr)
  | assign (site : Nat) (scope : AssignScope) (name : Symbol) (value : Expr)

/-- A formal argument of a closure. -/
abbrev Formal := Param Expr

/-- An argument of a call, not yet evaluated. -/
abbrev ExprArg := Tagged Expr

namespace Expr

/-- The site of a node. -/
def site : Expr → Nat
  | literal site _ | symbol site _ | missing site | call site _ _
  | function site _ _ _ | block site _ | branch site _ _ _ | assign site _ _ _ => site

/-- The same node at another site; its children keep theirs. -/
def atSite (site : Nat) : Expr → Expr
  | literal _ value => literal site value
  | symbol _ name => symbol site name
  | missing _ => missing site
  | call _ head args => call site head args
  | function _ formalsSite formals body => function site formalsSite formals body
  | block _ exprs => block site exprs
  | branch _ condition yes no => branch site condition yes no
  | assign _ scope name value => assign site scope name value

/-- The operator of a call, if it is a plain name. -/
def callHead? : Expr → Option Symbol
  | call _ (symbol _ name) _ => some name
  | _ => none

/-- The arguments of a call; other expressions have none. -/
def callArgs : Expr → List ExprArg
  | call _ _ args => args
  | _ => []

/-- The call of `head` on the arguments of an expression, as a node at `site`. -/
def withHead (site : Nat) (head : Symbol) (expr : Expr) : Expr :=
  call site (symbol site head) expr.callArgs

end Expr

end LazyDispatch
