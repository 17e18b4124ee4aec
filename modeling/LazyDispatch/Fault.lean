import LazyDispatch.Ref

/-!
# Faults

A fault is a breach of discipline by the interpreter or its host: a reference
that outlived its object, a root taken off out of turn, a heap that may not
grow.  Programs cannot catch faults.
-/

namespace LazyDispatch

/-- The ways in which the interpreter or its host can break their discipline. -/
inductive Fault where
  | staleReference (ref : Ref)
  | notAnEnvironment (typeName : String)
  | enclosingNotAnEnvironment (ref : Ref)
  | notAPromise (typeName : String)
  /-- A binding of origin `promise` holds nothing. -/
  | promiseBindingEmpty
  /-- A binding of origin `bound` holds nothing. -/
  | boundBindingEmpty
  | unknownSizeClass (sizeClass : Nat)
  | outOfMemory (sizeClass limit : Nat)
  | unaddressableCells (sizeClass : Nat)
  | emptyFreeList
  | liveCellInFreeList (sizeClass : Nat)
  | rootUnderflow (count depth : Nat)
  | foreignRoot (context owner : Nat)
  | staleToken (slot serial : Nat)
  | notProtected (ref : Ref)
  | truncateAboveDepth (target depth : Nat)
  | contextUnderflow
  /-- A symbol of another table is asked for its name. -/
  | foreignSymbol

/-- The text of a fault. -/
def Fault.message : Fault → String
  | staleReference ref => "stale object reference " ++ ref.text
  | notAnEnvironment typeName => "expected environment, got " ++ typeName
  | enclosingNotAnEnvironment ref => "enclosing reference " ++ ref.text ++ " is not an environment"
  | notAPromise typeName => "expected promise, got " ++ typeName
  | promiseBindingEmpty =>
    "internal error: entered unreachable code: promise binding without a promise"
  | boundBindingEmpty => "bound variables have a value"
  | unknownSizeClass sizeClass => "unknown size class " ++ toString sizeClass
  | outOfMemory sizeClass limit =>
    "out of memory: pool " ++ toString sizeClass ++ " exhausted " ++ toString limit ++
      " superblocks"
  | unaddressableCells sizeClass => "pool " ++ toString sizeClass ++ " exceeds addressable cells"
  | emptyFreeList => "free list must not be empty"
  | liveCellInFreeList sizeClass =>
    "free list of pool " ++ toString sizeClass ++ " points at a live cell"
  | rootUnderflow count depth =>
    "unprotect(" ++ toString count ++ ") underflows a root stack of depth " ++ toString depth
  | foreignRoot context owner =>
    "unprotect from context " ++ toString context ++ " would pop a root of context " ++
      toString owner
  | staleToken slot serial =>
    "reprotect with a stale root token RootToken \x7b slot: " ++ toString slot ++ ", serial: " ++
      toString serial ++ " \x7d"
  | notProtected ref => "find_and_remove: " ++ ref.text ++ " is not protected"
  | truncateAboveDepth target depth =>
    "root stack truncated to " ++ toString target ++ " above its depth " ++ toString depth
  | contextUnderflow => "context stack underflow"
  | foreignSymbol => "symbol was interned by this table"

end LazyDispatch
