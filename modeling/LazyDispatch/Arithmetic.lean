import LazyDispatch.Coercion
import LazyDispatch.EvalError

/-!
# Arithmetic and comparison

Operators work element by element on vectors, with the shorter operand repeated.
Logical values count as integers.  Integer arithmetic is exact or fails;
division, and arithmetic with a double on either side, is arithmetic of doubles.
-/

namespace LazyDispatch

/-- Combines two vectors element by element and repeats the shorter one; with an
empty vector the result is empty. -/
def recycle {α β γ : Type} (f : α → β → γ) (xs : List α) (ys : List β) :
    List γ :=
  if h : 0 < xs.length ∧ 0 < ys.length then
    (List.range (max xs.length ys.length)).map fun i =>
      f (xs.get ⟨i % xs.length, Nat.mod_lt i h.1⟩) (ys.get ⟨i % ys.length, Nat.mod_lt i h.2⟩)
  else []

/-- The integer of a value, if the value is in the range of integers. -/
def fitting? (value : Int) : Option Int64 :=
  if Int64.minValue.toInt ≤ value ∧ value ≤ Int64.maxValue.toInt then some (Int64.ofInt value)
  else none

/-- The operands of arithmetic. -/
inductive Numbers where
  | integers (values : List Int64)
  | doubles (values : List Float)

namespace Numbers

/-- The numbers of a vector. -/
def ofObject? : Object → Option Numbers
  | .double values => some (doubles values)
  | .integer values => some (integers values)
  | .logical values => some (integers (values.map integerOfLogical))
  | _ => none

/-- The numbers as a vector. -/
def toObject : Numbers → Object
  | integers values => .integer values
  | doubles values => .double values

/-- The numbers as doubles. -/
def toDoubles : Numbers → List Float
  | integers values => values.map Int64.toFloat
  | doubles values => values

/-- The numbers that all values fit into. -/
def ofExact (values : List (Option Int64)) : Except TypeError Numbers :=
  match values.mapM id with
  | some values => .ok (integers values)
  | none => .error .integerOverflow

end Numbers

/-- The arithmetic operators. -/
inductive ArithmeticOp where
  | add
  | subtract
  | multiply
  | divide
deriving DecidableEq

namespace ArithmeticOp

/-- The operator on integers; division is not one. -/
def onIntegers? : ArithmeticOp → Option (Int → Int → Int)
  | add => some (· + ·)
  | subtract => some (· - ·)
  | multiply => some (· * ·)
  | divide => none

/-- The operator on doubles. -/
def onDoubles : ArithmeticOp → Float → Float → Float
  | add => (· + ·)
  | subtract => (· - ·)
  | multiply => (· * ·)
  | divide => (· / ·)

/-- The operator on doubles, for operands of any kind. -/
def inexact (op : ArithmeticOp) (lhs rhs : Numbers) : Numbers :=
  .doubles (recycle op.onDoubles lhs.toDoubles rhs.toDoubles)

/-- The operator with two operands. -/
def binary (op : ArithmeticOp) (lhs rhs : Numbers) : Except TypeError Numbers :=
  match lhs, rhs, op.onIntegers? with
  | .integers xs, .integers ys, some f =>
    Numbers.ofExact (recycle (fun x y => fitting? (f x.toInt y.toInt)) xs ys)
  | _, _, _ => .ok (op.inexact lhs rhs)

/-- The operator with one operand. -/
def unary (op : ArithmeticOp) (operand : Numbers) : Except TypeError Numbers :=
  match op, operand with
  | add, operand => .ok operand
  | subtract, .integers values => Numbers.ofExact (values.map fun x => fitting? (-x.toInt))
  | subtract, .doubles values => .ok (.doubles (values.map fun x => -x))
  | _, _ => .error .invalidUnary

/-- The operator on one or two operands. -/
def apply (op : ArithmeticOp) (lhs : Numbers) : Option Numbers → Except TypeError Numbers
  | some rhs => op.binary lhs rhs
  | none => op.unary lhs

end ArithmeticOp

/-- The comparisons. -/
inductive Comparison where
  | equal
  | notEqual
  | less
  | greater
deriving DecidableEq

namespace Comparison

/-- A comparison of two elements, given their equality and order. -/
def holds {α : Type} (eq lt : α → α → Bool) : Comparison → α → α → Bool
  | equal, x, y => eq x y
  | notEqual, x, y => !eq x y
  | less, x, y => lt x y
  | greater, x, y => lt y x

/-- A comparison of integers. -/
def onIntegers (op : Comparison) : List Int64 → List Int64 → List Bool :=
  recycle (op.holds (· == ·) fun x y => decide (x < y))

/-- A comparison of doubles. -/
def onDoubles (op : Comparison) : List Float → List Float → List Bool :=
  recycle (op.holds (· == ·) fun x y => decide (x < y))

/-- A comparison of text, character by character. -/
def onTexts (op : Comparison) : List String → List String → List Bool :=
  recycle (op.holds (· == ·) fun x y => decide (x < y))

/-- A comparison of atomic vectors; next to text, everything is compared as
text. -/
def onObjects (op : Comparison) (lhs rhs : Object) :
    Except TypeError (List Bool) :=
  if lhs.mode = .character ∨ rhs.mode = .character then
    match lhs.texts?, rhs.texts? with
    | some xs, some ys => .ok (op.onTexts xs ys)
    | _, _ => .error .notAtomic
  else
    match Numbers.ofObject? lhs, Numbers.ofObject? rhs with
    | some (.integers xs), some (.integers ys) => .ok (op.onIntegers xs ys)
    | some xs, some ys => .ok (op.onDoubles xs.toDoubles ys.toDoubles)
    | _, _ => .error .notAtomic

end Comparison

end LazyDispatch
