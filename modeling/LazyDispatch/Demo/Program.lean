import LazyDispatch.Eval.Run

/-!
# The demonstration program

A generic with two methods, the more specific of which goes on to the other, is
dispatched over and over again to exercise the heap.
-/

namespace LazyDispatch.Demo

/-- A call of a named function with untagged arguments. -/
def callTerm (name : String) (args : List Term) : Term :=
  .call (.symbol name) (args.map fun arg => (none, arg))

/-- A function with the formals `x` and `...`. -/
def methodTerm (body : Term) : Term :=
  .function [("x", none), ("...", none)] body

/-- A string constant. -/
def stringTerm (text : String) : Term :=
  .literal (.string text)

/-- The definitions of the generic, its methods and the object. -/
def definitions : List (String × Term) :=
  [("speak", methodTerm (callTerm "UseMethod" [stringTerm "speak"])),
    ("speak.A", methodTerm (stringTerm "A")),
    ("speak.B", methodTerm (callTerm "c" [stringTerm "B", callTerm "NextMethod" []])),
    ("obj", callTerm "class<-"
      [.literal (.integer 1), callTerm "c" [stringTerm "B", stringTerm "A"]])]

/-- The dispatch that is repeated. -/
def speakTerm : Term :=
  callTerm "speak" [.symbol "obj"]

variable (run : Runner)

/-- Evaluates the definitions. -/
def install : Eval Unit :=
  definitions.forM fun (name, value) => do
    let _ ← Eval.evalTopLevel run (← Eval.resolve (.assign .here name value))

/-- The texts of a character vector in brackets. -/
def bracketed (texts : List String) : String :=
  "[" ++ ", ".intercalate (texts.map Text.quote) ++ "]"

/-- Evaluates the definitions and one dispatch, and reports its value. -/
def firstDispatch : Eval (Expr × String) := do
  install run
  let expr ← Eval.resolve speakTerm
  let value ← Eval.evalTopLevel run expr
  return (expr, "speak(obj) = " ++ bracketed ((← Eval.asStrings? value).getD []))

/-- Repeats a dispatch. -/
def repeatDispatch (expr : Expr) : Nat → Eval Unit
  | 0 => return ()
  | n + 1 => do
    let _ ← Eval.evalTopLevel run expr
    repeatDispatch expr n

/-- The lines about warnings and the heap at the end. -/
def closingLines (state : Interpreter) : List String :=
  let stats := state.heap.stats
  state.warnings.map ("warning: " ++ ·) ++
    ["collections: " ++ toString stats.collections ++ ", last reclaimed: " ++
        toString stats.lastReclaimed ++ ", total reclaimed: " ++ toString stats.totalReclaimed,
      "cells: " ++ toString state.heap.allocatedCells ++ " allocated, " ++
        toString state.heap.freeCells ++ " free, " ++ toString state.heap.totalCells ++ " total"]

end LazyDispatch.Demo
