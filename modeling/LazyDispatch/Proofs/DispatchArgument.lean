import LazyDispatch.Proofs.ArgumentMatching
import LazyDispatch.Proofs.Balance
import LazyDispatch.Proofs.Steps

/-!
# The argument that a generic dispatches on

A generic that names no object dispatches on one of its arguments, which it
looks for by the name of its first formal alone: the argument with that tag, or
the first with a tag that begins it, or the first without a tag, or the first.
Matching looks at all formals.  The two agree, except that a tag may begin the
name of the first formal and be the name of another one.  Then the argument is
for that other formal, and the generic dispatches on it nevertheless.
-/

namespace LazyDispatch

namespace Matching.Setting

variable {s : Setting} {index : Nat}

/-! ## Tags that begin the name of the first formal -/

/-- The tag of an argument begins the name of the first formal. -/
def BeginsFirst (s : Setting) (index : Nat) : Prop :=
  ∃ tag ∈ s.tagAt index, ∃ name ∈ s.nameAt 0, Text.begins (s.names tag) (s.names name)

/-- No argument has the name of the first formal as tag, and the first one with
a tag that begins it has the name of another formal. -/
structure Diverts (s : Setting) (index : Nat) : Prop where
  unnamed : ∀ other, ¬ s.NamesExactly other 0
  begins : s.BeginsFirst index
  first : ∀ earlier < index, ¬ s.BeginsFirst earlier
  named : ∃ place, s.NamesExactly index place

theorem eq_of_first {p : Nat → Prop} {i j : Nat} (hi : p i) (hj : p j)
    (hfirst : ∀ earlier < i, ¬ p earlier) (hfirst' : ∀ earlier < j, ¬ p earlier)
    : i = j := by
  rcases Nat.lt_trichotomy i j with hlt | heq | hlt
  · exact absurd hi (hfirst' i hlt)
  · exact heq
  · exact absurd hj (hfirst j hlt)

/-- An argument that diverts is taken by another formal than the first. -/
theorem Diverts.takes (hdiverts : s.Diverts index) :
    ∃ place, place ≠ 0 ∧ s.Takes index place := by
  obtain ⟨place, hnames⟩ := hdiverts.named
  refine ⟨place, fun hzero => ?_, .inl hnames⟩
  subst hzero
  exact hdiverts.unnamed index hnames

variable {first : Formal} {rest : List Formal}

theorem nameAt_zero (hformals : s.formals = first :: rest) :
    s.nameAt 0 = some first.name := by
  simp [nameAt, hformals]

theorem leading_pos (hformals : s.formals = first :: rest)
    (hdots : first.name ≠ s.dots) :
    0 < s.leading := by
  simp [leading, hformals, hdots]

/-- An argument with a tag that begins the name of the first formal is taken by
it, unless a formal or another argument has the right name. -/
theorem isSole_of_beginsFirst (hformals : s.formals = first :: rest) (hdots : first.name ≠ s.dots)
    (hright : s.Unmistaken) (hunnamed : ∀ other, ¬ s.NamesExactly other 0)
    (hbegins : s.BeginsFirst index) (hnamed : ∀ place, ¬ s.NamesExactly index place) :
    s.IsSole index 0 := by
  have hcandidate : s.IsCandidate index 0 := ⟨fun place _ => hnamed place,
    leading_pos hformals hdots, fun other _ => hunnamed other, hbegins⟩
  exact ⟨hcandidate, fun other _ hother => hright.unambiguous index other 0 hother hcandidate⟩

theorem IsSole.beginsFirst (hsole : s.IsSole index 0) : s.BeginsFirst index :=
  hsole.1.2.2.2

/-- If no tag is for the first formal, then it takes the first argument without
a tag. -/
theorem takes_zero_iff_of_unbegun (hformals : s.formals = first :: rest)
    (hdots : first.name ≠ s.dots) (hunnamed : ∀ other, ¬ s.NamesExactly other 0)
    (hunbegun : ∀ other, ¬ s.BeginsFirst other) :
    s.Takes index 0 ↔ s.untagged.head? = some index := by
  have hopen : s.openPlaces[0]? = some 0 := by
    rw [← List.head?_eq_getElem?, openPlaces, List.head?_filter, List.find?_range_eq_some]
    refine ⟨decide_eq_true fun other _ => ⟨hunnamed other, fun hsole => ?_⟩, ?_, ?_⟩
    · exact hunbegun other hsole.beginsFirst
    · exact List.mem_range.mpr (leading_pos hformals hdots)
    · intro earlier hearlier
      exact absurd hearlier (Nat.not_lt_zero earlier)
  rw [List.head?_eq_getElem?]
  constructor
  · intro htakes
    rcases htakes with hexact | hsole | ⟨number, -, hplace, hindex⟩
    · exact absurd hexact (hunnamed index)
    · exact absurd hsole.beginsFirst (hunbegun index)
    · have hnumber :=
        (List.getElem?_inj (List.getElem?_eq_some_iff.mp hplace).1
          nodup_openPlaces).mp (hplace.trans hopen.symm)
      rwa [hnumber] at hindex
  · intro hhead
    exact .inr (.inr ⟨0, (List.getElem?_eq_some_iff.mp hopen).1, hopen, hhead⟩)

/-! ## What the search finds -/

/-- A search ends at the first index of what it looks for. -/
theorem exists_index_of_find? {α : Type} {p : α → Bool} {items : List α}
    {item : α} (hfound : items.find? p = some item) :
    ∃ index : Nat, items[index]? = some item ∧ items[index]?.any p ∧
      ∀ earlier < index, ¬ items[earlier]?.any p := by
  obtain ⟨hitem, index, hlt, rfl, hfirst⟩ := List.find?_eq_some_iff_getElem.mp hfound
  have hsome : items[index]? = some items[index] := List.getElem?_eq_getElem hlt
  refine ⟨index, hsome, by rwa [hsome, Option.any_some], fun earlier hearlier => ?_⟩
  simpa [List.getElem?_eq_getElem (Nat.lt_trans hearlier hlt)] using hfirst earlier hearlier

theorem not_any_of_find?_eq_none {α : Type} {p : α → Bool} {items : List α}
    (hnone : items.find? p = none) (index : Nat) : ¬ items[index]?.any p := by
  intro hany
  obtain ⟨item, hitem, hp⟩ := (Option.any_eq_true ..).mp hany
  exact List.find?_eq_none.mp hnone item (List.mem_of_getElem? hitem) hp

theorem any_exact_iff (hformals : s.formals = first :: rest) (hdots : first.name ≠ s.dots) :
    s.actuals[index]?.any (·.tag = some first.name) ↔ s.NamesExactly index 0 := by
  simp [NamesExactly, nameAt_zero hformals, hdots, tagAt, Option.bind_eq_some_iff,
    Option.any_eq_true]

theorem any_begins_iff (hformals : s.formals = first :: rest) :
    s.actuals[index]?.any (fun arg => arg.tag.any fun tag =>
      Text.begins (s.names tag) (s.names first.name)) ↔ s.BeginsFirst index := by
  cases hactual : s.actuals[index]? with
  | none => simp [BeginsFirst, tagAt, hactual]
  | some actual => simp [BeginsFirst, nameAt_zero hformals, tagAt, hactual, Option.any_eq_true]

theorem head?_untagged_iff : s.untagged.head? = some index ↔
    s.actuals[index]?.any (·.tag.isNone) ∧
      ∀ earlier < index, ¬ s.actuals[earlier]?.any (·.tag.isNone) := by
  rw [← untagged_eq, indicesWhere_eq_filter, List.head?_filter, List.find?_range_eq_some]
  simp only [Bool.not_eq_true', Bool.not_eq_true]
  refine and_congr_right fun hany => and_iff_right ?_
  obtain ⟨actual, hactual, -⟩ := (Option.any_eq_true ..).mp hany
  exact List.mem_range.mpr (List.getElem?_eq_some_iff.mp hactual).1

/-- What the search for the argument of the first formal comes to. -/
theorem dispatchArg_cases (hformals : s.formals = first :: rest)
    (hdots : first.name ≠ s.dots) (hright : s.Unmistaken) :
    (∃ index, s.Takes index 0 ∧ (∀ other, ¬ s.Diverts other) ∧
        Eval.dispatchArg s.names first.name s.actuals = s.actuals[index]?) ∨
      (∃ index, s.Diverts index ∧
        Eval.dispatchArg s.names first.name s.actuals = s.actuals[index]?) ∨
      (∀ index, ¬ s.Takes index 0) ∧ (∀ other, ¬ s.Diverts other) ∧
        Eval.dispatchArg s.names first.name s.actuals = s.actuals[0]? := by
  unfold Eval.dispatchArg
  cases hexact : s.actuals.find? (·.tag = some first.name) with
  | some actual =>
      obtain ⟨index, hactual, hany, -⟩ := exists_index_of_find? hexact
      have hnames := (any_exact_iff hformals hdots).mp hany
      exact .inl ⟨index, .inl hnames, fun other hother => hother.unnamed index hnames, hactual.symm⟩
  | none =>
      have hunnamed : ∀ other, ¬ s.NamesExactly other 0 := fun other hnames =>
        not_any_of_find?_eq_none hexact other ((any_exact_iff hformals hdots).mpr hnames)
      cases hbegins : s.actuals.find? (fun arg => arg.tag.any fun tag =>
          Text.begins (s.names tag) (s.names first.name)) with
      | some actual =>
          obtain ⟨index, hactual, hany, hfirst⟩ := exists_index_of_find? hbegins
          simp only [any_begins_iff hformals] at hany hfirst
          by_cases hnamed : ∃ place, s.NamesExactly index place
          · exact .inr (.inl ⟨index, ⟨hunnamed, hany, hfirst, hnamed⟩, hactual.symm⟩)
          · rw [not_exists] at hnamed
            have hsole := isSole_of_beginsFirst hformals hdots hright hunnamed hany hnamed
            refine .inl ⟨index, .inr (.inl hsole), fun other hother => ?_, hactual.symm⟩
            cases eq_of_first hother.begins hany hother.first hfirst
            obtain ⟨place, hplace⟩ := hother.named
            exact hnamed place hplace
      | none =>
          have hunbegun : ∀ other, ¬ s.BeginsFirst other := fun other hother =>
            not_any_of_find?_eq_none hbegins other ((any_begins_iff hformals).mpr hother)
          have htakes : ∀ {index}, s.Takes index 0 ↔ s.untagged.head? = some index :=
            takes_zero_iff_of_unbegun hformals hdots hunnamed hunbegun
          have hstraight : ∀ other, ¬ s.Diverts other := fun other hother =>
            hunbegun other hother.begins
          cases huntagged : s.actuals.find? (·.tag.isNone) with
          | some actual =>
              obtain ⟨index, hactual, hany, hfirst⟩ := exists_index_of_find? huntagged
              exact .inl ⟨index, htakes.mpr (head?_untagged_iff.mpr ⟨hany, hfirst⟩), hstraight,
                hactual.symm⟩
          | none =>
              refine .inr (.inr ⟨fun index hindex => ?_, hstraight, List.head?_eq_getElem? ..⟩)
              have hany := (head?_untagged_iff.mp (htakes.mp hindex)).1
              exact not_any_of_find?_eq_none huntagged index hany

end Matching.Setting

namespace Eval

/-- The value of an argument, or `NULL` if it is empty or there is none. -/
def objectOf (run : Runner) (arg : Option Arg) : Eval Ref := do
  match arg.bind (·.value) with
  | some ref => forceValue run ref
  | none => return (← get).fixed.null

variable {run : Runner} {fn : Ref} {args : List Arg} {state : Interpreter} {closure : Closure}
  {first : Formal} {rest : List Formal}

theorem dispatchObject_eq (hclosure : closureAt? fn state = .ok (some closure))
    (hformals : closure.formals = first :: rest)
    (hdots : first.name ≠ state.reserved.dots) :
    dispatchObject run fn args state =
      objectOf run (dispatchArg state.symbolName first.name args) state := by
  have harg : dispatchArgOf fn args state = .ok (dispatchArg state.symbolName first.name args) := by
    have hname : (some first.name).filter (· ≠ state.reserved.dots) = some first.name := by
      simp [Option.filter, hdots]
    unfold dispatchArgOf
    rw [Query.bind_of_ok (show (read : Query Interpreter) state = .ok state from rfl),
      Query.bind_of_ok hclosure]
    dsimp only
    rw [hformals, List.head?_cons, Option.map_some, hname]
    rfl
  unfold dispatchObject
  rw [bind_of_ok (lift_of_ok harg)]
  rfl

end Eval

open Eval Matching.Setting in
/-- **Dispatch on the first formal, unless a tag diverts it.**  A generic that
names no object forces the argument that its first formal takes, or the first
argument if it takes none; `NULL` stands for an empty argument and for one that
is not there.  This is so unless an argument diverts the dispatch: it is the
first of those whose tag begins the name of the first formal, but its tag is the
name of another formal, which takes it.  Then the generic forces that argument. -/
theorem dispatch_object_is_first_formal_unless_diverted (run : Runner) {fn : Ref} {args : List Arg}
    {state : Interpreter} {closure : Closure} {first : Formal} {rest : List Formal}
    {matched : List Matched} (hclosure : closureAt? fn state = .ok (some closure))
    (hformals : closure.formals = first :: rest) (hdots : first.name ≠ state.reserved.dots)
    (hdistinct : (closure.formals.map (·.name)).Nodup)
    (hmatched : matchArgs state.symbolName state.reserved.dots closure.formals args = .ok matched) :
    (∀ index, (state.setting closure.formals args).Takes index 0 →
      (∀ other, ¬ (state.setting closure.formals args).Diverts other) →
      dispatchObject run fn args state = objectOf run args[index]? state) ∧
    (∀ value, matched[0]? = some (.supplied value) →
      (∀ other, ¬ (state.setting closure.formals args).Diverts other) →
      dispatchObject run fn args state = forceValue run value state) ∧
    ((∀ index, ¬ (state.setting closure.formals args).Takes index 0) →
      (∀ other, (state.setting closure.formals args).Diverts other → other = 0) →
      dispatchObject run fn args state = objectOf run args[0]? state) ∧
    ∀ index, (state.setting closure.formals args).Diverts index →
      dispatchObject run fn args state = objectOf run args[index]? state ∧
      (∃ place, place ≠ 0 ∧ (state.setting closure.formals args).Takes index place) ∧
      ¬ (state.setting closure.formals args).Takes index 0 := by
  have hmatchable :=
    (outcome_ok_iff (s := state.setting closure.formals args) hdistinct).mp ⟨matched, hmatched⟩
  have hright := hmatchable.1
  have hreceives := explained_outcome (s := state.setting closure.formals args) hdistinct
  rw [outcome, Interpreter.setting, hmatched] at hreceives
  rw [dispatchObject_eq hclosure hformals hdots]
  have htaken : ∀ index, (state.setting closure.formals args).Takes index 0 →
      (∀ other, ¬ (state.setting closure.formals args).Diverts other) →
      dispatchArg state.symbolName first.name args = args[index]? := by
    intro index htakes hstraight
    rcases dispatchArg_cases (s := state.setting closure.formals args) hformals hdots hright with
      ⟨other, hother, -, hfound⟩ | ⟨other, hother, -⟩ | ⟨hnone, -⟩
    · cases hright.index_eq htakes hother
      exact hfound
    · exact absurd hother (hstraight other)
    · exact absurd htakes (hnone index)
  refine ⟨fun index htakes hstraight => by rw [htaken index htakes hstraight],
    fun value hvalue hstraight => ?_, fun hnone hfirst => ?_, fun index hdiverts => ?_⟩
  · obtain ⟨-, index, tag, htakes, hactual⟩ := hreceives.2.2 0 _ hvalue
    rw [htaken index htakes hstraight, show args[index]? = some ⟨tag, some value⟩ from hactual]
    rfl
  · rcases dispatchArg_cases (s := state.setting closure.formals args) hformals hdots hright with
      ⟨other, hother, -⟩ | ⟨other, hother, hfound⟩ | ⟨-, -, hfound⟩
    · exact absurd hother (hnone other)
    · cases hfirst other hother
      exact congrArg (objectOf run · state) hfound
    · exact congrArg (objectOf run · state) hfound
  · obtain ⟨place, hplace, htakes⟩ := hdiverts.takes
    refine ⟨?_, ⟨place, hplace, htakes⟩, fun hzero => hplace (htakes.place_eq hdistinct hzero)⟩
    rcases dispatchArg_cases (s := state.setting closure.formals args) hformals hdots hright with
      ⟨-, -, hstraight, -⟩ | ⟨other, hother, hfound⟩ | ⟨-, hstraight, -⟩
    · exact absurd hdiverts (hstraight index)
    · cases eq_of_first hdiverts.begins hother.begins hdiverts.first hother.first
      exact congrArg (objectOf run · state) hfound
    · exact absurd hdiverts (hstraight index)

/-! ## A call that is not diverted, and one that is -/

section Witness

open Interpreter Eval

/-- Whether a function has distinct formals, and matching arguments to them
gives this. -/
def matchesAs (fn : Ref) (args : List Arg) (matched : List Matched)
    (state : Interpreter) : Bool :=
  match closureAt? fn state with
  | .ok (some ⟨first :: rest, _, _, _⟩) =>
    first.name ≠ state.reserved.dots && ((first :: rest).map (·.name)).Nodup &&
      matchArgs state.symbolName state.reserved.dots (first :: rest) args = .ok matched
  | _ => false

theorem exists_of_matchesAs {fn : Ref} {args : List Arg} {matched : List Matched}
    {state : Interpreter} (hmatches : matchesAs fn args matched state = true) :
    ∃ closure first rest, closureAt? fn state = .ok (some closure) ∧
      closure.formals = first :: rest ∧ first.name ≠ state.reserved.dots ∧
      (closure.formals.map (·.name)).Nodup ∧
      matchArgs state.symbolName state.reserved.dots closure.formals args = .ok matched := by
  unfold matchesAs at hmatches
  split at hmatches
  · next first rest _ body env hclosure =>
      simp only [Bool.and_eq_true, decide_eq_true_eq] at hmatches
      exact ⟨_, first, rest, hclosure, rfl, hmatches.1.1, hmatches.1.2, hmatches.2⟩
  · cases hmatches

/-- Whether a tag is the name of a formal of a function. -/
def namesFormal (fn : Ref) (tag : Option Symbol) (state : Interpreter) : Bool :=
  match closureAt? fn state with
  | .ok (some closure) => closure.formals.any (some ·.name = tag)
  | _ => false

/-- A function with the formals `xy` and `z`, which mentions `x`. -/
def beginningTerm : Term :=
  .function [("xy", none), ("z", none)] (.symbol "x")

/-- The arguments `NULL` and `x = globalenv()`. -/
def beginningArgs (state : Interpreter) : List Arg :=
  [⟨none, some state.fixed.null⟩, ⟨state.naming.symbols.find? "x", some state.fixed.global⟩]

set_option maxRecDepth 1000000 in
theorem exists_beginningCall : ∃ start expr before fn state,
    Interpreter.start smallConfig .empty = .ok start ∧
    resolve beginningTerm start = .ok expr before ∧
    perform {} 40 (.eval expr before.fixed.global) before = .ok fn state ∧
    matchesAs fn (beginningArgs state)
      [.supplied state.fixed.global, .supplied state.fixed.null] state = true ∧
    namesFormal fn (state.naming.symbols.find? "x") state = false := by
  have hcheck : startPasses beginningTerm (fun expr before =>
      (perform {} 40 (.eval expr before.fixed.global)).passes (fun fn state =>
        matchesAs fn (beginningArgs state)
            [.supplied state.fixed.global, .supplied state.fixed.null] state &&
          !namesFormal fn (state.naming.symbols.find? "x") state) before) = true := by
    decide +kernel
  obtain ⟨start, expr, before, hstart, hresolve, hpasses⟩ := exists_of_startPasses hcheck
  obtain ⟨fn, state, heval, htest⟩ := exists_of_passes hpasses
  obtain ⟨hmatches, hnames⟩ := Bool.and_eq_true_iff.mp htest
  exact ⟨start, expr, before, fn, state, hstart, hresolve, heval, hmatches, by simpa using hnames⟩

theorem not_diverts_of_namesFormal {fn : Ref} {state : Interpreter}
    {closure : Closure} (hclosure : closureAt? fn state = .ok (some closure))
    (hnames : namesFormal fn (state.naming.symbols.find? "x") state = false)
    (index : Nat) :
    ¬ (state.setting closure.formals (beginningArgs state)).Diverts index := by
  intro hdiverts
  obtain ⟨place, name, hname, -, htag⟩ := hdiverts.named
  obtain ⟨formal, hformal, rfl⟩ := Option.map_eq_some_iff.mp hname
  have hnot : some formal.name ≠ state.naming.symbols.find? "x" := by
    simp only [namesFormal, hclosure, List.any_eq_false, decide_eq_true_eq] at hnames
    exact hnames formal (List.mem_of_getElem? hformal)
  rcases index with _ | _ | index
  · cases htag
  · exact hnot htag.symm
  · cases htag

/-- The argument for `xy` is dispatched on, though it comes last and its tag is
only `x`. -/
theorem dispatch_object_is_first_formal_unless_diverted_beginningCall :
    ∃ fn state closure first rest, closureAt? fn state = .ok (some closure) ∧
      closure.formals = first :: rest ∧ first.name ≠ state.reserved.dots ∧
      (closure.formals.map (·.name)).Nodup ∧
      matchArgs state.symbolName state.reserved.dots closure.formals (beginningArgs state) =
        .ok [.supplied state.fixed.global, .supplied state.fixed.null] ∧
      (∀ other, ¬ (state.setting closure.formals (beginningArgs state)).Diverts other) ∧
      dispatchObject (perform {} 40) fn (beginningArgs state) state =
        forceValue (perform {} 40) state.fixed.global state := by
  obtain ⟨-, -, -, fn, state, -, -, -, hmatches, hnames⟩ := exists_beginningCall
  obtain ⟨closure, first, rest, hclosure, hformals, hdots, hdistinct, hmatched⟩ :=
    exists_of_matchesAs hmatches
  have hstraight := not_diverts_of_namesFormal hclosure hnames
  exact ⟨fn, state, closure, first, rest, hclosure, hformals, hdots, hdistinct,
    hmatched, hstraight,
    (dispatch_object_is_first_formal_unless_diverted (perform {} 40)
      hclosure hformals hdots hdistinct hmatched).2.1 state.fixed.global rfl
      hstraight⟩

/-- A generic with the formals `xy` and `x`, and methods for it. -/
def divertedTerm : Term :=
  .block [
    .assign .here "g" (.function [("xy", none), ("x", none)]
      (.call (.symbol "UseMethod") [(none, .literal (.string "g"))])),
    .assign .here "g.a" (.function [("xy", none), ("x", none)] (.literal (.string "a"))),
    .assign .here "g.default"
      (.function [("xy", none), ("x", none)] (.literal (.string "default"))),
    .call (.symbol "g") [(some "x", .literal (.integer 1)), (none, .call (.symbol "class<-")
      [(none, .literal (.integer 2)), (none, .literal (.string "a"))])]]

/-- The arguments `x = NULL` and `globalenv()`. -/
def divertedArgs (state : Interpreter) : List Arg :=
  [⟨state.naming.symbols.find? "x", some state.fixed.null⟩, ⟨none, some state.fixed.global⟩]

/-- Whether something is a text. -/
def isText (text : String) (ref : Ref) (state : Interpreter) : Bool :=
  match asString? ref state with
  | .ok (some found) => found = text
  | _ => false

set_option maxRecDepth 1000000 in
/-- **A generic may dispatch on the argument of another formal.**  The first
formal `xy` takes the second argument, but the first one is dispatched on, which
is for `x`; so the method for the class of the argument for `xy` is passed over. -/
theorem generic_dispatches_on_other_formal :
    (∃ fn state closure, closureAt? fn state = .ok (some closure) ∧
      (closure.formals.map (·.name)).Nodup ∧
      matchArgs state.symbolName state.reserved.dots closure.formals (divertedArgs state) =
        .ok [.supplied state.fixed.global, .supplied state.fixed.null] ∧
      ∃ after, dispatchObject (perform {} 40) fn (divertedArgs state) state =
        .ok state.fixed.null after) ∧
    ∃ start expr before value after,
      Interpreter.start smallConfig .empty = .ok start ∧
      resolve divertedTerm start = .ok expr before ∧
      perform {} 40 (.eval expr before.fixed.global) before = .ok value after ∧
      isText "default" value after = true := by
  constructor
  · have hcheck : startPasses (.function [("xy", none), ("x", none)] (.symbol "x"))
        (fun expr before => (perform {} 40 (.eval expr before.fixed.global)).passes (fun fn state =>
          matchesAs fn (divertedArgs state)
              [.supplied state.fixed.global, .supplied state.fixed.null] state &&
            (dispatchObject (perform {} 40) fn (divertedArgs state)).passes
              (fun object _ => object = state.fixed.null) state) before) = true := by
      decide +kernel
    obtain ⟨-, expr, before, -, -, hpasses⟩ := exists_of_startPasses hcheck
    obtain ⟨fn, state, -, htest⟩ := exists_of_passes hpasses
    obtain ⟨hmatches, hobject⟩ := Bool.and_eq_true_iff.mp htest
    obtain ⟨closure, first, rest, hclosure, -, -, hdistinct, hmatched⟩ :=
      exists_of_matchesAs hmatches
    obtain ⟨object, after, hdispatch, hnull⟩ := exists_of_passes hobject
    cases of_decide_eq_true hnull
    exact ⟨fn, state, closure, hclosure, hdistinct, hmatched, after, hdispatch⟩
  · have hcheck : startPasses divertedTerm (fun expr before =>
        (perform {} 40 (.eval expr before.fixed.global)).passes
          (isText "default") before) = true := by
      decide +kernel
    obtain ⟨start, expr, before, hstart, hresolve, hpasses⟩ := exists_of_startPasses hcheck
    obtain ⟨value, after, heval, htext⟩ := exists_of_passes hpasses
    exact ⟨start, expr, before, value, after, hstart, hresolve, heval, htext⟩

end Witness

end LazyDispatch
