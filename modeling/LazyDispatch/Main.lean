import LazyDispatch.Demo.Report

/-!
# The command line

Runs the demonstration with the given options.
-/

open LazyDispatch in
/-- Prints the report of the demonstration and returns its exit code. -/
def main (args : List String) : IO UInt32 := do
  match Demo.Options.ofArgs? args with
  | none =>
    IO.eprintln "Error: unknown or malformed arguments"
    return 2
  | some options =>
    let report := Demo.report (Eval.perform {} Eval.defaultBudget) options
    IO.print report.output
    IO.eprint report.ending.errorText
    return report.ending.exitCode.toUInt32
