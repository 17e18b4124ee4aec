/-!
# Builtins

The functions that every interpreter starts with.  Their role says how a call
reaches them.
-/

namespace LazyDispatch

/-- The builtin functions, in the order of their table. -/
inductive Builtin where
  | quote
  | missing
  | useMethod
  | nextMethod
  | standardGeneric
  | add
  | subtract
  | multiply
  | divide
  | equal
  | notEqual
  | less
  | greater
  | combine
  | list
  | length
  | classOf
  | oldClass
  | setClass
  | unclass
  | inherits
  | identical
  | invisible
  | returnValue
  | stop
  | warning
  | environment
  | parentFrame
  | sysCall
  | sysFunction
  | isFunction
  | gc
deriving DecidableEq

/-- How a call reaches a builtin. -/
inductive Builtin.Role where
  /-- It receives its arguments evaluated. -/
  | plain
  /-- It receives the call unevaluated. -/
  | special
  /-- It dispatches on a first argument with a class before it runs. -/
  | internalGeneric
  /-- It belongs to the group `Ops` and dispatches on both operands before it
  runs. -/
  | operator
deriving DecidableEq

namespace Builtin

/-- All builtins, each at the place of its index. -/
def all : List Builtin :=
  [quote, missing, useMethod, nextMethod, standardGeneric, add, subtract, multiply, divide, equal,
    notEqual, less, greater, combine, list, length, classOf, oldClass, setClass, unclass, inherits,
    identical, invisible, returnValue, stop, warning, environment, parentFrame, sysCall,
    sysFunction, isFunction, gc]

/-- The place of a builtin in the table. -/
def index (builtin : Builtin) : Nat :=
  all.idxOf builtin

/-- The name that a builtin is bound to. -/
def name : Builtin → String
  | quote => "quote"
  | missing => "missing"
  | useMethod => "UseMethod"
  | nextMethod => "NextMethod"
  | standardGeneric => "standardGeneric"
  | add => "+"
  | subtract => "-"
  | multiply => "*"
  | divide => "/"
  | equal => "=="
  | notEqual => "!="
  | less => "<"
  | greater => ">"
  | combine => "c"
  | list => "list"
  | length => "length"
  | classOf => "class"
  | oldClass => "oldClass"
  | setClass => "class<-"
  | unclass => "unclass"
  | inherits => "inherits"
  | identical => "identical"
  | invisible => "invisible"
  | returnValue => "return"
  | stop => "stop"
  | warning => "warning"
  | environment => "environment"
  | parentFrame => "parent.frame"
  | sysCall => "sys.call"
  | sysFunction => "sys.function"
  | isFunction => "is.function"
  | gc => "gc"

/-- The role of a builtin. -/
def role : Builtin → Role
  | quote | missing | useMethod | nextMethod | standardGeneric => .special
  | add | subtract | multiply | divide | equal | notEqual | less | greater => .operator
  | length => .internalGeneric
  | _ => .plain

/-- The builtin of a name. -/
def ofName? (name : String) : Option Builtin :=
  all.find? (·.name == name)

end Builtin

end LazyDispatch
