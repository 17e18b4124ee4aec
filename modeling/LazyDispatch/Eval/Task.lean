import LazyDispatch.Eval.Basic

/-!
# Tasks and hooks

The functions of the evaluator call each other in a circle.  Each of them is
defined for an arbitrary runner, a way to carry out the two tasks through which
every circle goes; the circle is closed in one place, by recursion on a nesting
budget.

A host can take part in dispatch through hooks.  A hook receives the runner, so
it can evaluate.
-/

namespace LazyDispatch

/-- What the evaluator can be asked to do. -/
inductive Task where
  /-- Evaluate an expression in an environment. -/
  | eval (expr : Expr) (env : Ref)
  /-- Apply a function to arguments on behalf of `env`; a closure also gets the
  supplied bindings where its formals leave them open. -/
  | apply (call : Expr) (fn : Ref) (args : List Arg) (env : Ref) (supplied : List (Symbol × Ref))

/-- A way to carry out tasks. -/
abbrev Runner := Task → Eval Ref

/-- The answer of a quick check of a builtin call. -/
inductive QuickCheck where
  | method (method : Ref)
  | useDefault
  | search

/-- What a host may do at calls of builtins and generics. -/
structure Hooks where
  /-- Given the evaluated arguments, the methods of a builtin and the builtin:
  chooses a method without a full search. -/
  quickCheck : Option (Runner → List Arg → Ref → Builtin → Eval QuickCheck) := none
  /-- Given a builtin and the environment of its call: the methods of the
  builtin. -/
  methodProvider : Option (Runner → Builtin → Ref → Eval Ref) := none
  /-- Given a name, the environment of the generic and the generic: calls the
  standard generic. -/
  standardGeneric : Option (Runner → String → Ref → Ref → Eval Ref) := none

end LazyDispatch
