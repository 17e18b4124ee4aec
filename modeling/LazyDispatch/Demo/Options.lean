import LazyDispatch.Heap.Settings

/-!
# Options of the demonstration

The command line sets the shape of the heap and the number of dispatches.  An
option is followed by its value, or joined to it by an equals sign.
-/

namespace LazyDispatch.Demo

/-- The options of the demonstration. -/
structure Options where
  heap : HeapSettings := {}
  iterations : Nat := 1000

/-- A number in decimal digits below 2^64, with an optional plus sign. -/
def readNumber? (text : String) : Option Nat :=
  let digits := match text.toList with
    | '+' :: rest => rest
    | chars => chars
  if digits.isEmpty || !digits.all Char.isDigit then none
  else
    let number := digits.foldl (fun n c => 10 * n + (c.toNat - '0'.toNat)) 0
    if number < 18446744073709551616 then some number else none

/-- The options as they are read; absent ones are open. -/
structure Given where
  cellSizes : Option (List Nat) := none
  superblockSize : Option Nat := none
  maxSuperblocks : Option Nat := none
  torture : Bool := false
  iterations : Option Nat := none

/-- Reads the value of an option; only cell sizes may be given more than once. -/
def Given.add? (given : Given) (name value : String) : Option Given := do
  match name with
  | "--cell-sizes" =>
    let sizes ← ((value.splitOn ",").mapM readNumber?)
    return { given with cellSizes := some (given.cellSizes.getD [] ++ sizes) }
  | "--superblock-size" =>
    if given.superblockSize.isSome then none
    else return { given with superblockSize := some (← readNumber? value) }
  | "--max-superblocks" =>
    if given.maxSuperblocks.isSome then none
    else return { given with maxSuperblocks := some (← readNumber? value) }
  | "--iterations" =>
    if given.iterations.isSome then none
    else return { given with iterations := some (← readNumber? value) }
  | _ => none

/-- Splits an option from a value that is written after an equals sign. -/
def splitOption (arg : String) : String × Option String :=
  let chars := arg.toList
  match chars.dropWhile (· ≠ '=') with
  | [] => (arg, none)
  | _ :: value => (String.ofList (chars.takeWhile (· ≠ '=')), some (String.ofList value))

/-- Reads the command line. -/
def Given.read? (given : Given) : List String → Option Given
  | [] => some given
  | ["--"] => some given
  | "--torture" :: rest =>
    if given.torture then none else Given.read? { given with torture := true } rest
  | [arg] => do
    let (name, value) := splitOption arg
    given.add? name (← value)
  | arg :: next :: rest => do
    match splitOption arg with
    | (name, some value) => (← given.add? name value).read? (next :: rest)
    | (name, none) => (← given.add? name next).read? rest

/-- The options that a command line asks for. -/
def Options.ofArgs? (args : List String) : Option Options := do
  let given ← Given.read? {} args
  let defaults : Options := {}
  return {
    heap := {
      cellSizes := given.cellSizes.getD defaults.heap.cellSizes
      superblockSize := given.superblockSize.getD defaults.heap.superblockSize
      maxSuperblocks := given.maxSuperblocks
      torture := given.torture }
    iterations := given.iterations.getD defaults.iterations }

end LazyDispatch.Demo
