import LazyDispatch.Demo.Options
import LazyDispatch.Demo.Program
import LazyDispatch.Interpreter.Start

/-!
# The report of the demonstration

What the demonstration prints, and how it ends.
-/

namespace LazyDispatch.Demo

/-- How the demonstration ends. -/
inductive Ending where
  | done
  | refused (cause : ConfigError)
  | failed (message : String)
  /-- The program is aborted. -/
  | aborted (cause : Stop)

/-- What the demonstration prints, and how it ends. -/
structure Report where
  lines : List String
  ending : Ending

/-- How evaluation ends that stops. -/
def Ending.ofStop : Stop → Ending
  | .error err => failed err.message
  | cause => aborted cause

/-- The exit code. -/
def Ending.exitCode : Ending → Nat
  | done => 0
  | refused _ => 2
  | failed _ => 1
  | aborted _ => 101

/-- The error output. -/
def Ending.errorText : Ending → String
  | done => ""
  | refused cause => "Error: " ++ cause.message ++ "\n"
  | failed message => "Error: " ++ message ++ "\n"
  | aborted cause => "Aborted: " ++ cause.message ++ "\n"

/-- The standard output. -/
def Report.output (report : Report) : String :=
  String.join (report.lines.map (· ++ "\n"))

/-- Reports on the heap, if it is consistent. -/
def conclude (first : String) (state : Interpreter) : Report :=
  match state.heap.verify with
  | .ok () => ⟨first :: closingLines state, .done⟩
  | .error found =>
    ⟨first :: state.warnings.map ("warning: " ++ ·), .failed found.message⟩

/-- Runs the demonstration. -/
def report (run : Runner) (options : Options) : Report :=
  match Interpreter.start { heap := options.heap } .empty with
  | .error (.config cause) => ⟨[], .refused cause⟩
  | .error (.stopped cause) => ⟨[], .aborted cause⟩
  | .ok state =>
    match (firstDispatch run).run state with
    | .error cause _ => ⟨[], .ofStop cause⟩
    | .ok (expr, line) state =>
      match (repeatDispatch run expr options.iterations).run state with
      | .error cause _ => ⟨[line], .ofStop cause⟩
      | .ok () state => conclude line state

end LazyDispatch.Demo
