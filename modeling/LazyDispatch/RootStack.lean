import LazyDispatch.Fault

/-!
# The root stack

References that must survive a collection are protected on a stack.  Every
entry remembers the depth of the call that protected it, and only a call of
that depth may take it off again.  Protecting returns a token, through which
the protected reference can be replaced while the entry is on the stack.  An
operation that is rejected reports a fault together with the stack that it
leaves.  Beside the stack stands a list of references that the host preserves
for longer.
-/

namespace LazyDispatch

/-- A protected reference, the depth of the call that protected it, and its
serial number. -/
structure RootEntry where
  ref : Ref
  context : Nat
  serial : Nat
deriving DecidableEq

/-- Names an entry by its place and its serial number. -/
structure RootToken where
  slot : Nat
  serial : Nat
deriving DecidableEq

/-- The protected and the preserved references. -/
structure RootStack where
  entries : Array RootEntry
  nextSerial : Nat
  preserved : Array Ref

namespace RootStack

/-- The stack without entries. -/
def empty : RootStack := ⟨#[], 0, #[]⟩

instance : Inhabited RootStack := ⟨empty⟩

/-- The number of protected references. -/
def depth (roots : RootStack) : Nat := roots.entries.size

/-- Protects a reference on behalf of a call of the given depth. -/
def protect (roots : RootStack) (ref : Ref) (context : Nat) :
    RootToken × RootStack :=
  (⟨roots.depth, roots.nextSerial⟩, { roots with
    entries := roots.entries.push ⟨ref, context, roots.nextSerial⟩
    nextSerial := roots.nextSerial + 1 })

/-- What became of an operation on a root stack: a result or a fault, and the
stack after it. -/
abbrev Outcome (α : Type) := EStateM.Result Fault RootStack α

/-- Drops the entries above a depth, whoever owns them. -/
def truncate (roots : RootStack) (depth : Nat) : Outcome Unit :=
  if depth ≤ roots.depth then
    .ok () { roots with entries := roots.entries.shrink depth }
  else .error (.truncateAboveDepth depth roots.depth) roots

/-- Takes off entries that a call of the given depth owns. -/
def unprotect (roots : RootStack) (count context : Nat) : Outcome Unit :=
  if roots.depth < count then .error (.rootUnderflow count roots.depth) roots
  else
    let start := roots.depth - count
    match (roots.entries.toList.drop start).find? (·.context ≠ context) with
    | some foreign => .error (.foreignRoot context foreign.context) roots
    | none => .ok () { roots with entries := roots.entries.shrink start }

/-- Replaces the reference of the entry that a token names. -/
def reprotect (roots : RootStack) (token : RootToken) (ref : Ref) :
    Outcome Unit :=
  match roots.entries[token.slot]? with
  | some entry =>
    if entry.serial = token.serial then
      .ok () { roots with
        entries := roots.entries.setIfInBounds token.slot { entry with ref } }
    else .error (.staleToken token.slot token.serial) roots
  | none => .error (.staleToken token.slot token.serial) roots

/-- The place of the last element that satisfies a predicate. -/
def lastIdx? {α : Type} (p : α → Bool) (items : Array α) : Option Nat :=
  (items.toList.reverse.findIdx? p).map (items.size - 1 - ·)

/-- Removes the topmost entry of a reference. -/
def findAndRemove (roots : RootStack) (ref : Ref) : Outcome Unit :=
  match lastIdx? (·.ref = ref) roots.entries with
  | some slot =>
    .ok () { roots with entries := roots.entries.eraseIdxIfInBounds slot }
  | none => .error (.notProtected ref) roots

/-- Preserves a reference. -/
def preserve (roots : RootStack) (ref : Ref) : RootStack :=
  { roots with preserved := roots.preserved.push ref }

/-- Releases the last preserved occurrence of a reference; the last preserved
reference of all takes its place. -/
def release (roots : RootStack) (ref : Ref) : RootStack :=
  match lastIdx? (· = ref) roots.preserved with
  | some slot =>
    let last := roots.preserved.back?.getD ref
    { roots with preserved := (roots.preserved.setIfInBounds slot last).pop }
  | none => roots

/-- Whether a reference is protected or preserved. -/
def isProtected (roots : RootStack) (ref : Ref) : Bool :=
  roots.entries.any (·.ref = ref) || roots.preserved.any (· = ref)

/-- The protected references from the bottom up, then the preserved ones. -/
def edges (roots : RootStack) : List Ref :=
  (roots.entries.toList.map (·.ref)) ++ roots.preserved.toList

end RootStack

end LazyDispatch
