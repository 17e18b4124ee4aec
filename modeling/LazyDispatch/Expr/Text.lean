import LazyDispatch.Expr.Basic
import LazyDispatch.Text.Decimal
import LazyDispatch.Text.Quoted

/-!
# The text of expressions

Expressions appear in messages in call syntax.  Bodies of functions and arms of
conditionals are left out.
-/

namespace LazyDispatch

/-- The text of a truth value. -/
def logicalText (b : Bool) : String :=
  if b then "TRUE" else "FALSE"

/-- The text of an integer. -/
def integerText (i : Int64) : String :=
  toString i.toInt

/-- The text of a constant: integers end in `L`, strings are quoted. -/
def Literal.text : Literal → String
  | null => "NULL"
  | logical b => logicalText b
  | integer i => integerText i ++ "L"
  | double d => Text.doubleText d
  | string s => Text.quote s

/-- A text with its tag, if any, in front. -/
def tagged (names : Symbol → String) (tag : Option Symbol) (text : String) :
    String :=
  match tag with
  | some tag => names tag ++ " = " ++ text
  | none => text

namespace Expr

mutual

/-- The text of an expression, its symbols read through `names`. -/
def text (names : Symbol → String) : Expr → String
  | literal _ value => value.text
  | symbol _ name => names name
  | missing _ => ""
  | call _ head args => head.text names ++ "(" ++ ", ".intercalate (argTexts names args) ++ ")"
  | function _ _ formals _ =>
    "function(" ++ ", ".intercalate (formals.map fun formal => names formal.name) ++ ") ..."
  | block _ exprs => "\x7b " ++ String.join (statementTexts names exprs) ++ "\x7d"
  | branch _ condition _ _ => "if (" ++ condition.text names ++ ") ..."
  | assign _ scope name value =>
    let arrow := match scope with
      | .here => " <- "
      | .enclosing => " <<- "
    names name ++ arrow ++ value.text names

/-- The texts of the arguments of a call. -/
def argTexts (names : Symbol → String) : List (Tagged Expr) → List String
  | [] => []
  | ⟨tag, value⟩ :: rest => tagged names tag (value.text names) :: argTexts names rest

/-- The texts of the statements of a block, each with its semicolon. -/
def statementTexts (names : Symbol → String) : List Expr → List String
  | [] => []
  | expr :: rest => (expr.text names ++ "; ") :: statementTexts names rest

end

end Expr

end LazyDispatch
