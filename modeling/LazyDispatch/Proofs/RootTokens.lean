import LazyDispatch.Eval.Basic
import Mathlib.Algebra.Group.Nat.Defs
import Mathlib.Data.List.Pairwise

/-!
# Root tokens

A token names an entry of the root stack by the slot into which it was pushed
and by its serial number.  Entries do not stay in their slots: the removal of an
entry from the middle of the stack moves the ones above it down.  So a token is
not always good for as long as its entry is on the stack, and this module says
exactly how long it is.

An entry is followed by its place, without regard to serial numbers:
`RootCall.move` says where a call takes the entry at a place, and
`RootStack.follow` where a sequence of calls takes it.  A removal from below
undermines it.  Serial numbers grow along the stack and are never given out
twice (`RootStack.Ordered`), so the serial number of the token is found in its
slot exactly if the entry was followed to that slot, that is, if nothing
undermined it.
-/

namespace LazyDispatch

/-- What a host may ask of a root stack. -/
inductive RootCall where
  | protect (ref : Ref) (context : Nat)
  | unprotect (count context : Nat)
  | reprotect (token : RootToken) (ref : Ref)
  | findAndRemove (ref : Ref)
  | truncate (depth : Nat)

namespace RootCall

/-- Whether a call pushes an entry. -/
def isProtect : RootCall → Bool
  | protect _ _ => true
  | _ => false

/-- What became of a call that returns no token. -/
def withoutToken : RootStack.Outcome Unit → RootStack.Outcome (Option RootToken)
  | .ok _ after => .ok none after
  | .error fault after => .error fault after

/-- Makes a call.  Protecting returns a token. -/
def apply (call : RootCall) (roots : RootStack) :
    RootStack.Outcome (Option RootToken) :=
  match call with
  | protect ref context =>
    .ok (some (roots.protect ref context).1) (roots.protect ref context).2
  | unprotect count context => withoutToken (roots.unprotect count context)
  | reprotect token ref => withoutToken (roots.reprotect token ref)
  | findAndRemove ref => withoutToken (roots.findAndRemove ref)
  | truncate depth => withoutToken (roots.truncate depth)

/-- The stack after a call, rejected or not. -/
def advance (call : RootCall) (roots : RootStack) : RootStack :=
  match call.apply roots with
  | .ok _ after => after
  | .error _ after => after

/-- The place from which a call removes an entry out of order. -/
def removed? (call : RootCall) (roots : RootStack) : Option Nat :=
  match call with
  | findAndRemove ref => RootStack.lastIdx? (·.ref = ref) roots.entries
  | _ => none

/-- Where a call takes the entry at a place, if it leaves it on the stack.  All
entries above one that is removed move down; all other calls that drop entries
drop them from the top. -/
def move (call : RootCall) (roots : RootStack) (place : Nat) : Option Nat :=
  match call.removed? roots with
  | some slot =>
    if place = slot then none else if slot < place then some (place - 1) else some place
  | none => if place < (call.advance roots).depth then some place else none

/-- Whether a call removes an entry from below a place. -/
def undermines (call : RootCall) (roots : RootStack) (place : Nat) : Bool :=
  (call.removed? roots).any (· < place)

end RootCall

namespace RootStack

variable {roots : RootStack}

/-- The stack after a sequence of calls. -/
def after (roots : RootStack) (calls : List RootCall) : RootStack :=
  calls.foldl (fun roots call => call.advance roots) roots

/-- Where a sequence of calls takes the entry at a place, if it leaves it on the
stack. -/
def follow (roots : RootStack) (place : Nat) : List RootCall → Option Nat
  | [] => some place
  | call :: calls =>
    (call.move roots place).bind fun next => (call.advance roots).follow next calls

/-- Whether a sequence of calls removes an entry from below the one at a place,
while that is on the stack. -/
def undermined (roots : RootStack) (place : Nat) : List RootCall → Bool
  | [] => false
  | call :: calls =>
    call.undermines roots place ||
      (call.move roots place).any fun next => (call.advance roots).undermined next calls

/-- The owner and the serial number of every entry: what `reprotect` leaves
alone. -/
def labels (roots : RootStack) : List (Nat × Nat) :=
  roots.entries.toList.map fun entry => (entry.context, entry.serial)

/-- Serial numbers grow from the bottom up, and the next one is new. -/
structure Ordered (roots : RootStack) : Prop where
  ascending : roots.labels.Pairwise (·.2 < ·.2)
  below : ∀ label ∈ roots.labels, label.2 < roots.nextSerial

/-! ## One call -/

/-- There is a label for each entry. -/
theorem length_labels (roots : RootStack) :
    roots.labels.length = roots.depth := by
  simp [labels, depth]

/-- A slot holds a label if its entry does. -/
theorem getElem?_labels_eq_some {place context serial : Nat} :
    roots.labels[place]? = some (context, serial) ↔
      ∃ ref, roots.entries[place]? = some ⟨ref, context, serial⟩ := by
  rw [labels, List.getElem?_map, Array.getElem?_toList, Option.map_eq_some_iff]
  constructor
  · intro hlabel
    obtain ⟨⟨ref, _, _⟩, hentry, heq⟩ := hlabel
    cases heq
    exact ⟨ref, hentry⟩
  · intro hentry
    obtain ⟨ref, hentry⟩ := hentry
    exact ⟨_, hentry, rfl⟩

/-- The labels of the lowest entries. -/
theorem labels_shrink (roots : RootStack) (count : Nat) :
    labels { roots with entries := roots.entries.shrink count } = roots.labels.take count := by
  rw [labels, Array.toList_shrink, List.map_take, labels]

/-- What an accepted `reprotect` has done. -/
theorem reprotect_eq_ok_iff {changed : RootStack} {token : RootToken} {ref : Ref} :
    roots.reprotect token ref = .ok () changed ↔
      ∃ held context, roots.entries[token.slot]? = some ⟨held, context, token.serial⟩ ∧
        changed = { roots with
          entries := roots.entries.setIfInBounds token.slot ⟨ref, context, token.serial⟩ } := by
  unfold reprotect
  split
  · next entry hentry =>
      obtain ⟨held, context, serial⟩ := entry
      by_cases hserial : serial = token.serial
      · subst hserial
        rw [if_pos rfl]
        constructor
        · intro hok
          cases hok
          exact ⟨held, context, hentry, rfl⟩
        · intro hfound
          obtain ⟨_, _, hsame, rfl⟩ := hfound
          cases hentry.symm.trans hsame
          rfl
      · rw [if_neg hserial]
        simp [hentry, hserial]
  · next hnone => simp [hnone]

/-- A `reprotect` that is not accepted is rejected as stale. -/
theorem reprotect_eq_error {token : RootToken} {ref : Ref}
    (hnone : ∀ held context, roots.entries[token.slot]? ≠ some ⟨held, context, token.serial⟩) :
    roots.reprotect token ref =
      .error (.staleToken token.slot token.serial) roots := by
  unfold reprotect
  split
  · next entry hentry =>
      rw [if_neg]
      intro hserial
      apply hnone entry.ref entry.context
      rw [hentry, ← hserial]
  · rfl

/-- **What an accepted call does to the labels:** it removes one from the
middle, keeps the lowest ones, or pushes a new one. -/
theorem labels_apply {call : RootCall} {changed : RootStack}
    {token? : Option RootToken} (hok : call.apply roots = .ok token? changed) :
    (∃ slot, call.removed? roots = some slot ∧
        changed.labels = roots.labels.eraseIdx slot ∧
        changed.nextSerial = roots.nextSerial) ∨
      (∃ count, call.removed? roots = none ∧
        changed.labels = roots.labels.take count ∧
        changed.nextSerial = roots.nextSerial) ∨
      ∃ context, call.removed? roots = none ∧
        changed.labels = roots.labels ++ [(context, roots.nextSerial)] ∧
        changed.nextSerial = roots.nextSerial + 1 := by
  cases call with
  | protect ref context =>
      cases hok
      refine Or.inr (Or.inr ⟨context, rfl, ?_, rfl⟩)
      simp [RootStack.protect, labels]
  | unprotect count context =>
      refine Or.inr (Or.inl ⟨roots.depth - count, rfl, ?_⟩)
      simp only [RootCall.apply, unprotect] at hok
      split at hok
      · cases hok
      · split at hok
        · cases hok
        · cases hok
          exact ⟨labels_shrink _ _, rfl⟩
  | reprotect token ref =>
      refine Or.inr (Or.inl ⟨roots.labels.length, rfl, ?_⟩)
      rw [List.take_length]
      cases hchanged : roots.reprotect token ref with
      | error fault after =>
          simp only [RootCall.apply, hchanged] at hok
          cases hok
      | ok done after =>
          simp only [RootCall.apply, hchanged] at hok
          cases hok
          obtain ⟨held, context, hentry, rfl⟩ := reprotect_eq_ok_iff.mp hchanged
          have hlabel := getElem?_labels_eq_some.mpr ⟨held, hentry⟩
          obtain ⟨hlt, hlabel⟩ := List.getElem?_eq_some_iff.mp hlabel
          refine ⟨?_, rfl⟩
          rw [labels, Array.toList_setIfInBounds, List.map_set]
          show roots.labels.set token.slot (context, token.serial) = roots.labels
          rw [← hlabel]
          exact List.set_getElem_self hlt
  | findAndRemove ref =>
      simp only [RootCall.apply, findAndRemove] at hok
      split at hok
      · next slot hslot =>
          cases hok
          refine Or.inl ⟨slot, hslot, ?_, rfl⟩
          rw [labels, Array.toList_eraseIdxIfInBounds, labels, List.eraseIdx_eq_take_drop_succ,
            List.eraseIdx_eq_take_drop_succ, List.map_append, List.map_take, List.map_drop]
      · cases hok
  | truncate depth =>
      refine Or.inr (Or.inl ⟨depth, rfl, ?_⟩)
      simp only [RootCall.apply, truncate] at hok
      split at hok
      · cases hok
        exact ⟨labels_shrink _ _, rfl⟩
      · cases hok

end RootStack

namespace RootCall

/-- **A call that is rejected returns the stack as it was.** -/
theorem eq_of_error {call : RootCall} {roots after : RootStack} {fault : Fault}
    (herror : call.apply roots = .error fault after) : after = roots := by
  cases call with
  | protect ref context => cases herror
  | unprotect count context =>
      -- Both checks are made before anything is dropped.
      simp only [apply, RootStack.unprotect] at herror
      split at herror
      · cases herror
        rfl
      · split at herror
        · cases herror
          rfl
        · cases herror
  | reprotect token ref =>
      simp only [apply, RootStack.reprotect] at herror
      split at herror
      · split at herror
        · cases herror
        · cases herror
          rfl
      · cases herror
        rfl
  | findAndRemove ref =>
      simp only [apply, RootStack.findAndRemove] at herror
      split at herror
      · cases herror
      · cases herror
        rfl
  | truncate depth =>
      simp only [apply, RootStack.truncate] at herror
      split at herror
      · cases herror
      · cases herror
        rfl

/-- A call is rejected and changes nothing, or it is accepted. -/
theorem advance_cases (call : RootCall) (roots : RootStack) :
    (∃ fault, call.apply roots = .error fault roots ∧ call.advance roots = roots) ∨
      ∃ token?, call.apply roots = .ok token? (call.advance roots) := by
  unfold advance
  cases happly : call.apply roots with
  | error fault after =>
      cases eq_of_error happly
      exact Or.inl ⟨fault, rfl, rfl⟩
  | ok token? after => exact Or.inr ⟨token?, rfl⟩

/-- A call that is rejected removes nothing. -/
theorem removed?_of_error {call : RootCall} {roots after : RootStack}
    {fault : Fault} (herror : call.apply roots = .error fault after) :
    call.removed? roots = none := by
  cases call with
  | findAndRemove ref =>
      simp only [apply, RootStack.findAndRemove] at herror
      split at herror
      · cases herror
      · next hnone => exact hnone
  | _ => rfl

end RootCall

namespace RootStack

/-- **What a call can do to the labels**, rejected or not. -/
theorem labels_advance (call : RootCall) (roots : RootStack) :
    (∃ slot, call.removed? roots = some slot ∧
        (call.advance roots).labels = roots.labels.eraseIdx slot ∧
        (call.advance roots).nextSerial = roots.nextSerial) ∨
      (∃ count, call.removed? roots = none ∧
        (call.advance roots).labels = roots.labels.take count ∧
        (call.advance roots).nextSerial = roots.nextSerial) ∨
      ∃ context, call.removed? roots = none ∧
        (call.advance roots).labels = roots.labels ++ [(context, roots.nextSerial)] ∧
        (call.advance roots).nextSerial = roots.nextSerial + 1 := by
  rcases call.advance_cases roots with ⟨fault, herror, hsame⟩ | ⟨token?, hok⟩
  · refine Or.inr (Or.inl ⟨roots.labels.length, RootCall.removed?_of_error herror, ?_, ?_⟩)
    · rw [hsame, List.take_length]
    · rw [hsame]
  · exact labels_apply hok

/-- Every label after a call was there before it or carries the next serial
number. -/
theorem mem_labels_advance {call : RootCall} {roots : RootStack}
    {label : Nat × Nat} (hlabel : label ∈ (call.advance roots).labels) :
    label ∈ roots.labels ∨
      label.2 = roots.nextSerial ∧
        (call.advance roots).nextSerial = roots.nextSerial + 1 := by
  rcases labels_advance call roots with ⟨slot, -, hlabels, -⟩ | ⟨count, -, hlabels, -⟩ |
    ⟨context, -, hlabels, hserial⟩
  · rw [hlabels] at hlabel
    exact Or.inl (List.mem_of_mem_eraseIdx hlabel)
  · rw [hlabels] at hlabel
    exact Or.inl (List.mem_of_mem_take hlabel)
  · rw [hlabels, List.mem_append, List.mem_singleton] at hlabel
    rcases hlabel with hold | rfl
    · exact Or.inl hold
    · exact Or.inr ⟨rfl, hserial⟩

/-- Only a `protect` uses a serial number up. -/
theorem nextSerial_advance (call : RootCall) (roots : RootStack) :
    (call.advance roots).nextSerial =
      roots.nextSerial + call.isProtect.toNat := by
  cases call with
  | protect ref context => rfl
  | unprotect count context =>
      grind [RootCall.advance, RootCall.apply, RootCall.withoutToken, unprotect,
        RootCall.isProtect]
  | reprotect token ref =>
      grind [RootCall.advance, RootCall.apply, RootCall.withoutToken, reprotect,
        RootCall.isProtect]
  | findAndRemove ref =>
      grind [RootCall.advance, RootCall.apply, RootCall.withoutToken, findAndRemove,
        RootCall.isProtect]
  | truncate depth =>
      grind [RootCall.advance, RootCall.apply, RootCall.withoutToken, truncate,
        RootCall.isProtect]

/-- The next serial number never falls. -/
theorem nextSerial_le_advance (call : RootCall) (roots : RootStack) :
    roots.nextSerial ≤ (call.advance roots).nextSerial := by
  rw [nextSerial_advance]
  exact Nat.le_add_right _ _

/-- **One call keeps the serial numbers in order.** -/
theorem Ordered.advance {roots : RootStack} (hroots : roots.Ordered)
    (call : RootCall) :
    (call.advance roots).Ordered := by
  have hle := nextSerial_le_advance call roots
  constructor
  · rcases labels_advance call roots with ⟨slot, -, hlabels, -⟩ | ⟨count, -, hlabels, -⟩ |
      ⟨context, -, hlabels, -⟩
    · rw [hlabels]
      exact hroots.ascending.sublist (List.eraseIdx_sublist _ _)
    · rw [hlabels]
      exact hroots.ascending.sublist (List.take_sublist _ _)
    · rw [hlabels, List.pairwise_append]
      refine ⟨hroots.ascending, List.pairwise_singleton _ _, ?_⟩
      intro label hlabel fresh hfresh
      rw [List.mem_singleton.mp hfresh]
      exact hroots.below label hlabel
  · intro label hlabel
    rcases mem_labels_advance hlabel with hold | ⟨hfresh, hnext⟩
    · exact Nat.lt_of_lt_of_le (hroots.below label hold) hle
    · omega

/-- In an ordered stack, a serial number has one place. -/
theorem Ordered.place_eq {roots : RootStack} (hroots : roots.Ordered)
    {place other : Nat} {label found : Nat × Nat}
    (hplace : roots.labels[place]? = some label)
    (hother : roots.labels[other]? = some found) (hserial : label.2 = found.2) :
    place = other := by
  obtain ⟨hlt, rfl⟩ := List.getElem?_eq_some_iff.mp hplace
  obtain ⟨hlt', rfl⟩ := List.getElem?_eq_some_iff.mp hother
  have hascending := List.pairwise_iff_getElem.mp hroots.ascending
  rcases Nat.lt_trichotomy place other with hbelow | heq | habove
  · have := hascending place other hlt hlt' hbelow
    omega
  · exact heq
  · have := hascending other place hlt' hlt habove
    omega

/-- A serial number that was given out is on the stack no more. -/
structure Spent (roots : RootStack) (serial : Nat) : Prop where
  given : serial < roots.nextSerial
  absent : ∀ label ∈ roots.labels, label.2 ≠ serial

/-- It never comes back. -/
theorem Spent.advance {roots : RootStack} {serial : Nat}
    (hspent : roots.Spent serial) (call : RootCall) :
    (call.advance roots).Spent serial := by
  refine ⟨Nat.lt_of_lt_of_le hspent.given (nextSerial_le_advance call roots), ?_⟩
  intro label hlabel heq
  have hgiven := hspent.given
  rcases mem_labels_advance hlabel with hold | ⟨hfresh, -⟩
  · exact hspent.absent label hold heq
  · omega

section Following

variable {roots : RootStack} {call : RootCall} {place : Nat} {label : Nat × Nat}

/-- The serial number of a label has been given out, and stays so. -/
theorem Ordered.given (hroots : roots.Ordered) (call : RootCall)
    (hplace : roots.labels[place]? = some label) :
    label.2 < (call.advance roots).nextSerial :=
  Nat.lt_of_lt_of_le (hroots.below label (List.mem_of_getElem? hplace))
    (nextSerial_le_advance call roots)

/-- A removal takes the entry off the stack, moves it down, or leaves it where
it is. -/
theorem Ordered.move_of_removed (hroots : roots.Ordered) {slot : Nat}
    (hremoved : call.removed? roots = some slot)
    (hlabels : (call.advance roots).labels = roots.labels.eraseIdx slot)
    (hplace : roots.labels[place]? = some label) :
    (∃ next, call.move roots place = some next ∧
        (call.advance roots).labels[next]? = some label ∧
        next + (call.undermines roots place).toNat = place) ∨
      (call.move roots place = none ∧ (call.advance roots).Spent label.2) := by
  have hgiven := hroots.given call hplace
  unfold RootCall.move RootCall.undermines
  rw [hremoved, hlabels]
  rcases Nat.lt_trichotomy place slot with hbelow | rfl | habove
  · refine Or.inl ⟨place, ?_, ?_, ?_⟩
    · simp only [if_neg (Nat.ne_of_lt hbelow), if_neg (Nat.not_lt_of_gt hbelow)]
    · rw [List.getElem?_eraseIdx_of_lt hbelow]
      exact hplace
    · simp [Nat.le_of_lt hbelow]
  · refine Or.inr ⟨if_pos rfl, hgiven, ?_⟩
    intro other hother hserial
    rw [hlabels, List.mem_eraseIdx_iff_getElem?] at hother
    obtain ⟨index, hne, hindex⟩ := hother
    exact hne (hroots.place_eq hindex hplace hserial)
  · refine Or.inl ⟨place - 1, ?_, ?_, ?_⟩
    · simp only [if_neg (Nat.ne_of_gt habove), if_pos habove]
    · rw [List.getElem?_eraseIdx_of_ge (by omega), Nat.sub_add_cancel (by omega)]
      exact hplace
    · simp [habove]
      omega

/-- A call that removes nothing from the middle leaves the entry where it is,
unless it drops it from the top. -/
theorem Ordered.move_of_kept (hroots : roots.Ordered)
    (hremoved : call.removed? roots = none)
    (hkept : ∀ index < roots.depth, index < (call.advance roots).depth →
      (call.advance roots).labels[index]? = roots.labels[index]?)
    (hplace : roots.labels[place]? = some label) :
    (∃ next, call.move roots place = some next ∧
        (call.advance roots).labels[next]? = some label ∧
        next + (call.undermines roots place).toNat = place) ∨
      (call.move roots place = none ∧ (call.advance roots).Spent label.2) := by
  have hdepth : place < roots.depth := by
    rw [← length_labels]
    exact (List.getElem?_eq_some_iff.mp hplace).1
  by_cases hlt : place < (call.advance roots).depth
  · refine Or.inl ⟨place, ?_, (hkept place hdepth hlt).trans hplace, ?_⟩
    · simp only [RootCall.move, hremoved, if_pos hlt]
    · rw [RootCall.undermines, hremoved]
      rfl
  · refine Or.inr ⟨?_, hroots.given call hplace, ?_⟩
    · simp only [RootCall.move, hremoved, if_neg hlt]
    · intro other hother hserial
      obtain ⟨index, hindex⟩ := List.getElem?_of_mem hother
      have hbelow : index < (call.advance roots).depth := by
        rw [← length_labels]
        exact (List.getElem?_eq_some_iff.mp hindex).1
      rw [hkept index (by omega) hbelow] at hindex
      have heq := hroots.place_eq hindex hplace hserial
      omega

/-- **One call follows the entry at a place:** the entry goes where `move` says,
one place down if the call undermines it, or it is off the stack. -/
theorem Ordered.move_cases (hroots : roots.Ordered) (call : RootCall)
    (hplace : roots.labels[place]? = some label) :
    (∃ next, call.move roots place = some next ∧
        (call.advance roots).labels[next]? = some label ∧
        next + (call.undermines roots place).toNat = place) ∨
      (call.move roots place = none ∧ (call.advance roots).Spent label.2) := by
  rcases labels_advance call roots with ⟨slot, hremoved, hlabels, -⟩ |
    ⟨count, hremoved, hlabels, -⟩ | ⟨context, hremoved, hlabels, -⟩
  · exact hroots.move_of_removed hremoved hlabels hplace
  · apply hroots.move_of_kept hremoved _ hplace
    intro index _ hindex
    rw [← length_labels, hlabels, List.length_take] at hindex
    rw [hlabels, List.getElem?_take_of_lt (by omega)]
  · apply hroots.move_of_kept hremoved _ hplace
    intro index hindex _
    rw [← length_labels] at hindex
    rw [hlabels, List.getElem?_append_left hindex]

end Following

/-! ## Sequences of calls -/

/-- A sequence begins with its first call. -/
theorem after_cons (roots : RootStack) (call : RootCall) (calls : List RootCall) :
    roots.after (call :: calls) = (call.advance roots).after calls := rfl

/-- The empty stack is in order. -/
theorem ordered_empty : empty.Ordered :=
  ⟨List.Pairwise.nil, fun _ hlabel => absurd hlabel List.not_mem_nil⟩

/-- Order lasts through every sequence of calls. -/
theorem Ordered.after {roots : RootStack} (hroots : roots.Ordered)
    (calls : List RootCall) :
    (roots.after calls).Ordered := by
  induction calls generalizing roots with
  | nil => exact hroots
  | cons call calls ih => exact ih (hroots.advance call)

/-- The next serial number counts the entries that were ever pushed. -/
theorem nextSerial_after (roots : RootStack) (calls : List RootCall) :
    (roots.after calls).nextSerial =
      roots.nextSerial + calls.countP RootCall.isProtect := by
  induction calls generalizing roots with
  | nil => rfl
  | cons call calls ih =>
      rw [after_cons, ih, nextSerial_advance, List.countP_cons, Nat.add_assoc]
      cases call.isProtect <;> simp [Nat.add_comm]

/-- A spent serial is never used again. -/
theorem Spent.after {roots : RootStack} {serial : Nat}
    (hspent : roots.Spent serial) (calls : List RootCall) :
    (roots.after calls).Spent serial := by
  induction calls generalizing roots with
  | nil => exact hspent
  | cons call calls ih => exact ih (hspent.advance call)

/-- **A sequence of calls follows the entry at a place:** the entry is where
`follow` says, which is where it was exactly if nothing undermined it; or it is
off the stack. -/
theorem Ordered.follow_cases {roots : RootStack} (hroots : roots.Ordered) (calls : List RootCall)
    {place : Nat} {label : Nat × Nat} (hplace : roots.labels[place]? = some label) :
    (∃ last, roots.follow place calls = some last ∧
        (roots.after calls).labels[last]? = some label ∧ last ≤ place ∧
        (last = place ↔ roots.undermined place calls = false)) ∨
      (roots.follow place calls = none ∧ (roots.after calls).Spent label.2) := by
  induction calls generalizing roots place with
  | nil => exact Or.inl ⟨place, rfl, hplace, Nat.le_refl _, iff_of_true rfl rfl⟩
  | cons call calls ih =>
      rw [follow, undermined, after_cons]
      rcases hroots.move_cases call hplace with ⟨next, hmove, hnext, hplaces⟩ | ⟨hmove, hspent⟩
      · rw [hmove]
        rcases ih (hroots.advance call) hnext with ⟨last, hlast, hlabel, hle, hsame⟩ | hgone
        · refine Or.inl ⟨last, hlast, hlabel, by omega, ?_⟩
          cases hbelow : call.undermines roots place with
          | true =>
              rw [hbelow, Bool.toNat_true] at hplaces
              exact iff_of_false (by omega) (by simp)
          | false =>
              rw [hbelow, Bool.toNat_false, Nat.add_zero] at hplaces
              subst hplaces
              simpa using hsame
        · exact Or.inr hgone
      · rw [hmove]
        exact Or.inr ⟨rfl, hspent.after calls⟩

end RootStack

/-! ## The life of a token -/

/-- A token and its history: calls on an empty stack, the `protect` that returns
the token, and more calls. -/
structure TokenHistory where
  before : List RootCall
  ref : Ref
  context : Nat
  later : List RootCall

namespace TokenHistory

/-- The stack on which the entry is pushed. -/
def opened (history : TokenHistory) : RootStack :=
  RootStack.empty.after history.before

/-- The stack with the entry on top. -/
def pushed (history : TokenHistory) : RootStack :=
  (history.opened.protect history.ref history.context).2

/-- The token. -/
def token (history : TokenHistory) : RootToken :=
  (history.opened.protect history.ref history.context).1

/-- The stack in the end. -/
def final (history : TokenHistory) : RootStack :=
  history.pushed.after history.later

/-- The place of the entry in the end, if it is still on the stack. -/
def place? (history : TokenHistory) : Option Nat :=
  history.pushed.follow history.opened.depth history.later

/-- Whether an entry below was removed since. -/
def undermined (history : TokenHistory) : Bool :=
  history.pushed.undermined history.opened.depth history.later

/-- The stack is in order before the entry is pushed. -/
theorem ordered_opened (history : TokenHistory) : history.opened.Ordered :=
  RootStack.ordered_empty.after _

/-- The stack is in order with the new entry on it. -/
theorem ordered_pushed (history : TokenHistory) : history.pushed.Ordered :=
  history.ordered_opened.advance (.protect history.ref history.context)

/-- The token names the entry it was made for. -/
theorem labels_pushed (history : TokenHistory) :
    history.pushed.labels[history.token.slot]? =
      some (history.context, history.token.serial) := by
  apply RootStack.getElem?_labels_eq_some.mpr
  exact ⟨history.ref, Array.getElem?_push_size⟩

/-- Where the entry is in the end: where it was followed to, which is the slot
of the token exactly if nothing undermined it; or off the stack. -/
theorem place?_cases (history : TokenHistory) :
    (∃ place, history.place? = some place ∧
        history.final.labels[place]? = some (history.context, history.token.serial) ∧
        (place = history.token.slot ↔ history.undermined = false)) ∨
      (history.place? = none ∧ history.final.Spent history.token.serial) := by
  rcases history.ordered_pushed.follow_cases history.later history.labels_pushed with
    ⟨place, hplace, hlabel, -, hsame⟩ | hgone
  · exact Or.inl ⟨place, hplace, hlabel, hsame⟩
  · exact Or.inr hgone

/-- The entry was followed to the slot of the token if it is on the stack and
nothing undermined it. -/
theorem place?_eq_slot_iff (history : TokenHistory) :
    history.place? = some history.token.slot ↔
      history.place?.isSome = true ∧ history.undermined = false := by
  rcases history.place?_cases with ⟨place, hplace, -, hsame⟩ | ⟨hnone, -⟩
  · rw [hplace, Option.some.injEq, hsame]
    exact (and_iff_right rfl).symm
  · simp [hnone]

/-- An entry of its serial number in the slot of the token is the one that was
followed there. -/
theorem place?_eq_slot (history : TokenHistory) {held : Ref} {context : Nat}
    (hentry : history.final.entries[history.token.slot]? =
      some ⟨held, context, history.token.serial⟩) :
    history.place? = some history.token.slot := by
  have hslot := RootStack.getElem?_labels_eq_some.mpr ⟨held, hentry⟩
  rcases history.place?_cases with ⟨place, hplace, hlabel, -⟩ | ⟨-, hspent⟩
  · rw [(history.ordered_pushed.after history.later).place_eq hslot hlabel rfl]
    exact hplace
  · exact absurd rfl (hspent.absent _ (List.mem_of_getElem? hslot))

/-- **How long a token is good.** -/
theorem reprotect_eq (history : TokenHistory) (ref : Ref) :
    history.final.reprotect history.token ref =
      if history.place? = some history.token.slot then
        .ok () { history.final with
          entries := history.final.entries.setIfInBounds history.token.slot
            ⟨ref, history.context, history.token.serial⟩ }
      else
        .error (.staleToken history.token.slot history.token.serial)
          history.final := by
  split
  · next hslot =>
      rcases history.place?_cases with ⟨place, hplace, hlabel, -⟩ | ⟨hnone, -⟩
      · cases hplace.symm.trans hslot
        obtain ⟨held, hentry⟩ := RootStack.getElem?_labels_eq_some.mp hlabel
        exact RootStack.reprotect_eq_ok_iff.mpr ⟨held, history.context, hentry, rfl⟩
      · cases hnone.symm.trans hslot
  · next hslot =>
      apply RootStack.reprotect_eq_error
      intro held context hentry
      exact hslot (history.place?_eq_slot hentry)

end TokenHistory

namespace RootStack

/-- Serial numbers grow from the bottom of a stack to its top. -/
theorem serials_ascend (calls : List RootCall) :
    (empty.after calls).entries.toList.Pairwise (·.serial < ·.serial) := by
  have hascending := (ordered_empty.after calls).ascending
  rw [labels, List.pairwise_map] at hascending
  exact hascending

/-- A serial number counts the entries that were pushed before its own. -/
theorem serial_lt (calls : List RootCall) :
    ∀ entry ∈ (empty.after calls).entries,
      entry.serial < calls.countP RootCall.isProtect := by
  intro entry hentry
  have hbelow := (ordered_empty.after calls).below (entry.context, entry.serial)
    (List.mem_map_of_mem (Array.mem_toList_iff.mpr hentry))
  have hpushed : (empty.after calls).nextSerial = _ := nextSerial_after empty calls
  rw [hpushed] at hbelow
  simpa [empty] using hbelow

end RootStack

/-- **Tokens are sound.**  Take any calls on an empty stack, rejected ones
among them, and a token that one of them returned.  The next `reprotect` with
the token is accepted exactly if the entry that was pushed is still on the
stack and no entry below it was removed since.  It then replaces the reference
of that entry, and nothing else; otherwise it is rejected, and returns the
stack as it was.  The entry is followed by its place: where it is followed to
stands an entry of its owner and its serial number, and if it is not on the
stack any more, no entry has its serial number.

In every stack the serial numbers ascend.  They are less than the number of
entries ever pushed, so that with fewer than `2 ^ 64` of these all of them, and
the next one, fit into 64 bits.  And a call that is rejected returns the stack
as it was, and so leaves the state of the interpreter as it was. -/
theorem root_tokens_sound :
    (∀ (history : TokenHistory) (ref : Ref),
      history.final.reprotect history.token ref =
          (if history.place?.isSome = true ∧ history.undermined = false then
            .ok () { history.final with
              entries := history.final.entries.setIfInBounds history.token.slot
                ⟨ref, history.context, history.token.serial⟩ }
          else
            .error (.staleToken history.token.slot history.token.serial)
              history.final) ∧
        (history.place?.isSome = true ∧ history.undermined = false ↔
          history.place? = some history.token.slot) ∧
        (∀ place, history.place? = some place → ∃ held,
          history.final.entries[place]? =
            some ⟨held, history.context, history.token.serial⟩) ∧
        (history.place? = none →
          ∀ entry ∈ history.final.entries,
            entry.serial ≠ history.token.serial)) ∧
    (∀ calls,
      (RootStack.empty.after calls).entries.toList.Pairwise (·.serial < ·.serial) ∧
        (∀ entry ∈ (RootStack.empty.after calls).entries,
          entry.serial < calls.countP RootCall.isProtect) ∧
        (RootStack.empty.after calls).nextSerial =
          calls.countP RootCall.isProtect ∧
        (calls.countP RootCall.isProtect < 2 ^ 64 →
          (BitVec.ofNat 64 (RootStack.empty.after calls).nextSerial).toNat =
              (RootStack.empty.after calls).nextSerial ∧
            ∀ entry ∈ (RootStack.empty.after calls).entries,
              (BitVec.ofNat 64 entry.serial).toNat = entry.serial)) ∧
    ∀ (state : Interpreter) (call : RootCall),
      (∃ token?, call.apply state.roots = .ok token? (call.advance state.roots) ∧
          Eval.onRoots call.apply state =
            .ok token? { state with roots := call.advance state.roots }) ∨
        ∃ fault, call.apply state.roots = .error fault state.roots ∧
          Eval.onRoots call.apply state = .error (.fault fault) state := by
  refine ⟨fun history ref => ⟨?_, history.place?_eq_slot_iff.symm, ?_, ?_⟩,
    fun calls => ?_, fun state call => ?_⟩
  · rw [history.reprotect_eq]
    simp only [history.place?_eq_slot_iff]
  · intro place hplace
    rcases history.place?_cases with ⟨_, hsame, hlabel, -⟩ | ⟨hnone, -⟩
    · cases hsame.symm.trans hplace
      exact RootStack.getElem?_labels_eq_some.mp hlabel
    · cases hnone.symm.trans hplace
  · intro hnone entry hentry
    rcases history.place?_cases with ⟨_, hsome, -⟩ | ⟨-, hspent⟩
    · cases hsome.symm.trans hnone
    · exact hspent.absent _
        (List.mem_map_of_mem (Array.mem_toList_iff.mpr hentry))
  · have hserials := RootStack.serial_lt calls
    have hpushed : (RootStack.empty.after calls).nextSerial =
        calls.countP RootCall.isProtect := by
      rw [RootStack.nextSerial_after]
      exact Nat.zero_add _
    refine ⟨RootStack.serials_ascend calls, hserials, hpushed, fun hfew => ?_⟩
    constructor
    · rw [BitVec.toNat_ofNat, hpushed]
      exact Nat.mod_eq_of_lt hfew
    · intro entry hentry
      rw [BitVec.toNat_ofNat]
      exact Nat.mod_eq_of_lt (Nat.lt_trans (hserials entry hentry) hfew)
  · rcases call.advance_cases state.roots with ⟨fault, herror, -⟩ | ⟨token?, hok⟩
    · refine Or.inr ⟨fault, herror, ?_⟩
      simp only [Eval.onRoots, herror]
    · refine Or.inl ⟨token?, hok, ?_⟩
      simp only [Eval.onRoots, hok]

end LazyDispatch
