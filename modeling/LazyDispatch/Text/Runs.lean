/-!
# Runs of code points

A property of characters is a table of run lengths: how many code points from
zero on do not have it, how many after those do, and so on by turns.
-/

namespace LazyDispatch.Text

/-- The lengths of the runs of code points that are by turns outside of a set
and inside of it. -/
abbrev Runs := List Nat

/-- Whether a code point lies in the set, when the first run is inside of it or
not. -/
def Runs.holds (inside : Bool) : Runs → Nat → Bool
  | [], _ => false
  | run :: runs, code =>
      if code < run then inside else Runs.holds (!inside) runs (code - run)

/-- Whether a code point lies in the set. -/
def Runs.contains (runs : Runs) (code : Nat) : Bool :=
  runs.holds false code

end LazyDispatch.Text
