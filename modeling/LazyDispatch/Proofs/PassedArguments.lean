import LazyDispatch.Proofs.ArgumentOrder
import LazyDispatch.Proofs.OrderLaw

/-!
# The arguments that a method hands on

`NextMethod` hands the arguments of its method on.  An argument that a formal of
the generic and a formal of the method received is replaced by a promise of the
method's formal, so the next method sees what the method assigned to it.  Which
formal received an argument is found out by comparing references.  So arguments
that are the same reference are taken for each other: as many of them are
replaced as formals of the generic received the reference, the first ones, and
all by promises of the first formal of the method that received it.  An argument
that shares its reference with no other one is replaced exactly if formals of
both received it, and by a promise of its own formal.
-/

namespace LazyDispatch

/-! ## Arguments by position -/

namespace Matching.Setting

variable {exact : Assignment}

variable {s : Setting} {index place other : Nat} {assignment : Assignment}

/-- A formal other than `...` takes the argument at an index. -/
def Assigns (s : Setting) (index place : Nat) : Prop :=
  dotsPlace? s.dots s.formals ≠ some place ∧
    ∃ assignment, s.assign = .ok assignment ∧ assignment[place]? = some (some index)

/-- The first pass goes by the name. -/
theorem tagAt_of_assignExact
    (hexact : assignExact (dotsPlace? s.dots s.formals) s.formals s.actuals =
      .ok exact) (hplace : exact[place]? = some (some index)) :
    ∃ name, s.nameAt place = some name ∧ s.tagAt index = some name := by
  have hall := mapM_eq_ok (assignExact_eq.symm.trans hexact)
  obtain ⟨hlt, htaken⟩ := List.getElem?_eq_some_iff.mp hplace
  have hitem := List.forall₂_iff_get.mp hall
  have hplaces : place < s.formals.zipIdx.length := hitem.1 ▸ hlt
  have hfound := hitem.2 place hplaces hlt
  simp only [List.get_eq_getElem, List.getElem_zipIdx, Nat.zero_add, htaken] at hfound
  have hlength : place < s.formals.length := by simpa using hplaces
  refine ⟨s.formals[place].name, by simp [nameAt, hlength], ?_⟩
  unfold exactIndex at hfound
  split at hfound
  · cases hfound
  · split at hfound
    · cases hfound
    · next hindices =>
        cases hfound
        have hmem : index ∈ indicesWhere (·.tag = some s.formals[place].name) s.actuals := by
          rw [hindices]
          exact List.mem_singleton.mpr rfl
        obtain ⟨actual, hactual, htag⟩ := mem_indicesWhere.mp hmem
        simpa [tagAt, hactual] using htag
    · cases hfound

/-- The second pass keeps what the first did, and lets arguments take their sole
candidates. -/
theorem candidatesOf_of_assignPartial {partly : Assignment}
    (hpartly : assignPartial s.names s.formals s.leading s.actuals exact =
      .ok partly) (hplace : partly[place]? = some (some index)) :
    exact[place]? = some (some index) ∨
      ∃ actual, s.actuals[index]? = some actual ∧
        s.candidatesOf exact (actual, index) = [place] := by
  rw [assignPartial_eq] at hpartly
  refine foldlM_invariant (fun assignment : Assignment => ∀ place index,
    assignment[place]? = some (some index) → exact[place]? = some (some index) ∨
      ∃ actual, s.actuals[index]? = some actual ∧ s.candidatesOf exact (actual, index) = [place])
    (fun item hitem assignment following hkept hstep place index hplace => ?_)
    (fun place index hplace => .inl hplace) hpartly place index hplace
  have hactual := List.mem_zipIdx_iff_getElem?.mp hitem
  rcases assignCandidate_eq_ok ((assignOne_eq ..).symm.trans hstep) with
    ⟨-, rfl⟩ | ⟨sole, hsole, rfl⟩
  · exact hkept place index hplace
  · rw [List.getElem?_set] at hplace
    split at hplace
    · next heq =>
        subst heq
        split at hplace
        · cases hplace
          exact .inr ⟨item.1, hactual, hsole⟩
        · cases hplace
    · exact hkept place index hplace

/-- The ways in which a formal comes by an argument, given what the first pass
did and the places that the second left open. -/
inductive TakenBy (s : Setting) (exact : Assignment) (opens : List Nat) (index place : Nat) : Prop
  /-- The argument has the name of the formal. -/
  | name {name : Symbol} (hexact : exact[place]? = some (some index))
      (hname : s.nameAt place = some name) (htag : s.tagAt index = some name)
  /-- The formal is the sole candidate for the argument. -/
  | beginning {actual : Arg} (hactual : s.actuals[index]? = some actual)
      (hsole : s.candidatesOf exact (actual, index) = [place])
  /-- The formal is open, and the argument is the one without a tag that has the
  same number. -/
  | position (number : Nat) (hplace : opens[number]? = some place)
      (hindex : (indicesWhere (·.tag.isNone) s.actuals)[number]? = some index)

theorem tagAt_of_candidatesOf {actual : Arg}
    (hactual : s.actuals[index]? = some actual)
    (hplace : place ∈ s.candidatesOf exact (actual, index)) :
    s.tagAt index ≠ none ∧ some index ∉ exact := by
  unfold candidatesOf at hplace
  split at hplace
  · cases hplace
  · next tag htag =>
      split at hplace
      · cases hplace
      · next hexact =>
          refine ⟨?_, by simpa using hexact⟩
          have hsome : s.tagAt index = some tag := by
            rw [tagAt, hactual]
            exact htag
          rw [hsome]
          exact Option.some_ne_none tag

theorem tagAt_of_untagged {number : Nat}
    (hindex : (indicesWhere (·.tag.isNone) s.actuals)[number]? = some index) :
    s.tagAt index = none := by
  obtain ⟨actual, hactual, htag⟩ := mem_indicesWhere.mp (List.mem_of_getElem? hindex)
  rw [tagAt, hactual]
  exact Option.isNone_iff_eq_none.mp htag

/-- The two formals that take an argument have the same name. -/
theorem TakenBy.nameAt_eq {opens : List Nat}
    (hplace : s.TakenBy exact opens index place)
    (hother : s.TakenBy exact opens index other) :
    s.nameAt place = s.nameAt other := by
  cases hplace with
  | name hexact hname htag =>
      cases hother with
      | name hexact' hname' htag' => rw [hname, hname', ← htag, htag']
      | beginning hactual hsole =>
          have hnot := (tagAt_of_candidatesOf hactual (hsole ▸ List.mem_singleton.mpr rfl)).2
          exact absurd (List.mem_of_getElem? hexact) hnot
      | position number hopen hindex => cases htag.symm.trans (tagAt_of_untagged hindex)
  | beginning hactual hsole =>
      have hboth := tagAt_of_candidatesOf hactual (hsole ▸ List.mem_singleton.mpr rfl)
      cases hother with
      | name hexact hname htag => exact absurd (List.mem_of_getElem? hexact) hboth.2
      | beginning hactual' hsole' =>
          cases hactual.symm.trans hactual'
          cases hsole.symm.trans hsole'
          rfl
      | position number hopen hindex => exact absurd (tagAt_of_untagged hindex) hboth.1
  | position number hopen hindex =>
      cases hother with
      | name hexact hname htag => cases htag.symm.trans (tagAt_of_untagged hindex)
      | beginning hactual hsole =>
          have hboth := tagAt_of_candidatesOf hactual (hsole ▸ List.mem_singleton.mpr rfl)
          exact absurd (tagAt_of_untagged hindex) hboth.1
      | position number' hopen' hindex' =>
          have hlt := (List.getElem?_eq_some_iff.mp hindex).1
          have hnumber := (List.getElem?_inj hlt (nodup_indicesWhere ..)).mp
            (hindex.trans hindex'.symm)
          subst hnumber
          cases hopen.symm.trans hopen'
          rfl

theorem exists_takenBy (hassign : s.assign = .ok assignment) :
    ∃ exact opens, ∀ index place, assignment[place]? = some (some index) →
      s.TakenBy exact opens index place := by
  obtain ⟨exact, partly, hexact, hpartly, rfl⟩ := assign_eq_ok_iff.mp hassign
  refine ⟨exact, indicesWhere Option.isNone (partly.take s.leading), fun index place hplace => ?_⟩
  have hbefore : partly[place]? = some (some index) → s.TakenBy exact
      (indicesWhere Option.isNone (partly.take s.leading)) index place := by
    intro htaken
    rcases candidatesOf_of_assignPartial hpartly htaken with hnamed | ⟨actual, hactual, hsole⟩
    · obtain ⟨name, hname, htag⟩ := tagAt_of_assignExact hexact hnamed
      exact .name hnamed hname htag
    · exact .beginning hactual hsole
  rw [assignPositional, List.getElem?_append, length_fill] at hplace
  split at hplace
  · next hlt =>
      rcases getElem?_fill.mp hplace with htaken | ⟨number, hopen, hindex⟩
      · refine hbefore ?_
        rw [← List.take_append_drop s.leading partly, List.getElem?_append_left hlt]
        exact htaken
      · exact .position number hopen hindex
  · next hle =>
      refine hbefore ?_
      rw [← List.take_append_drop s.leading partly, List.getElem?_append_right (Nat.not_lt.mp hle)]
      exact hplace

/-- **An argument goes to one formal**, or to several of the same name. -/
theorem Assigns.nameAt_eq (hplace : s.Assigns index place)
    (hother : s.Assigns index other) :
    s.nameAt place = s.nameAt other := by
  obtain ⟨-, assignment, hassign, htaken⟩ := hplace
  obtain ⟨-, assignment', hassign', htaken'⟩ := hother
  cases hassign.symm.trans hassign'
  obtain ⟨exact, opens, hall⟩ := exists_takenBy hassign
  exact (hall index place htaken).nameAt_eq (hall index other htaken')

/-- What a formal receives is the value of the argument that it takes. -/
theorem getElem?_outcome_iff {matched : List Matched}
    (hok : s.outcome = .ok matched) {value : Ref} :
    matched[place]? = some (.supplied value) ↔
      ∃ index, s.Assigns index place ∧ s.actuals[index]?.bind (·.value) = some value := by
  obtain ⟨assignment, hassign, -, rfl⟩ := outcome_eq_ok_iff.mp hok
  rw [getElem?_distribute]
  constructor
  · intro hplace
    obtain ⟨taken, htaken, hvalue⟩ := Option.map_eq_some_iff.mp hplace
    split at hvalue
    · cases hvalue
    · next hdots =>
        unfold received at hvalue
        split at hvalue
        · next tag value hfound =>
            cases hvalue
            obtain ⟨index, rfl, hactual⟩ := Option.bind_eq_some_iff.mp hfound
            refine ⟨index, ⟨hdots, assignment, hassign, htaken⟩, ?_⟩
            exact Option.bind_eq_some_iff.mpr ⟨_, hactual, rfl⟩
        · cases hvalue
  · intro hassigns
    obtain ⟨index, ⟨hdots, assignment', hassign', htaken⟩, hvalue⟩ := hassigns
    cases hassign.symm.trans hassign'
    obtain ⟨⟨tag, held⟩, hactual, rfl⟩ := Option.bind_eq_some_iff.mp hvalue
    simp [htaken, hdots, received, hactual]

end Matching.Setting

/-! ## Replacing one value after the other -/

namespace Eval

variable {other : Ref} {object : HeapObject}

variable {state : Interpreter} {heap : Heap} {formals : List Formal}

/-- Counts one more of a value. -/
def oneMore (value : Ref) (count : Ref → Nat) (other : Ref) : Nat :=
  if other = value then count other + 1 else count other

/-- Counts one less of a value. -/
def oneLess (value : Ref) (count : Ref → Nat) (other : Ref) : Nat :=
  if other = value then count other - 1 else count other

theorem oneLess_oneMore (value : Ref) (count : Ref → Nat) :
    oneLess value (oneMore value count) = count := by
  funext other
  unfold oneLess oneMore
  split <;> omega

theorem oneLess_comm {value : Ref} {count : Ref → Nat} (hcount : 0 < count other) :
    oneLess other (oneMore value count) = oneMore value (oneLess other count) := by
  funext ref
  unfold oneLess oneMore
  by_cases hother : ref = other
  · subst hother
    simp only [if_true]
    split <;> omega
  · simp only [if_neg hother]

/-- Of the arguments with the same value the first ones got another value, as
many as are counted. -/
inductive Replaced (given : Ref → Ref → Prop) : (Ref → Nat) → List Arg → List Arg → Prop
  | nil (count : Ref → Nat) : Replaced given count [] []
  | keep {count : Ref → Nat} {arg : Arg} {args others : List Arg}
      (hcount : ∀ value, arg.value = some value → count value = 0)
      (hrest : Replaced given count args others) :
      Replaced given count (arg :: args) (arg :: others)
  | give {count : Ref → Nat} {tag : Option Symbol} {value new : Ref} {args others : List Arg}
      (hcount : 0 < count value) (hgiven : given value new)
      (hrest : Replaced given (oneLess value count) args others) :
      Replaced given count (⟨tag, some value⟩ :: args) (⟨tag, some new⟩ :: others)

namespace Replaced

variable {given later : Ref → Ref → Prop} {count : Ref → Nat}
  {args others : List Arg} {value new : Ref}

theorem refl (given : Ref → Ref → Prop) (args : List Arg) :
    Replaced given (fun _ => 0) args args := by
  induction args with
  | nil => exact .nil _
  | cons arg args ih => exact .keep (fun _ _ => rfl) ih

theorem mono (hreplaced : Replaced given count args others)
    (hmono : ∀ value new, given value new → later value new) :
    Replaced later count args others := by
  induction hreplaced with
  | nil count => exact .nil count
  | keep hcount hrest ih => exact .keep hcount ih
  | give hcount hgiven hrest ih => exact .give hcount (hmono _ _ hgiven) ih

theorem length_eq (hreplaced : Replaced given count args others) :
    others.length = args.length := by
  induction hreplaced with
  | nil count => rfl
  | keep hcount hrest ih => rw [List.length_cons, List.length_cons, ih]
  | give hcount hgiven hrest ih => rw [List.length_cons, List.length_cons, ih]

/-- The first argument that still has a value is the next one that loses it, as
the new values are not mistaken for old ones. -/
theorem replaceValue (hreplaced : Replaced given count args others)
    (hfresh : ∀ other promised, given other promised → promised ≠ value)
    (hgiven : (∃ arg ∈ others, arg.value = some value) → given value new) :
    Replaced given (oneMore value count) args (Eval.replaceValue value new others) := by
  induction hreplaced with
  | nil count => exact .nil _
  | @keep count arg args others hcount hrest ih =>
      have hlater := ih fun hsome => by
        obtain ⟨other, hother, hvalue⟩ := hsome
        exact hgiven ⟨other, List.mem_cons_of_mem _ hother, hvalue⟩
      obtain ⟨tag, held⟩ := arg
      by_cases hheld : held = some value
      · subst hheld
        rw [Eval.replaceValue, if_pos rfl]
        refine .give (by simp [oneMore]) (hgiven ⟨_, List.mem_cons_self, rfl⟩) ?_
        rw [oneLess_oneMore]
        exact hrest
      · rw [Eval.replaceValue, if_neg hheld]
        refine .keep (fun other hother => ?_) hlater
        have hne : other ≠ value := fun heq => hheld (heq ▸ hother)
        rw [oneMore, if_neg hne]
        exact hcount other hother
  | @give count tag old promised args others hcount hpromised hrest ih =>
      have hlater := ih fun hsome => by
        obtain ⟨other, hother, hvalue⟩ := hsome
        exact hgiven ⟨other, List.mem_cons_of_mem _ hother, hvalue⟩
      have hne : (⟨tag, some promised⟩ : Arg).value ≠ some value :=
        fun heq => hfresh _ _ hpromised (Option.some.inj heq)
      rw [Eval.replaceValue, if_neg hne]
      refine .give ?_ hpromised ?_
      · unfold oneMore
        split <;> omega
      · rw [oneLess_comm hcount]
        exact hlater

/-- How many arguments before an index have a value. -/
def before (args : List Arg) (index : Nat) (value : Ref) : Nat :=
  (args.take index).countP (·.value = some value)

theorem before_cons (arg : Arg) (args : List Arg) (index : Nat) (value : Ref) :
    before (arg :: args) (index + 1) value =
      before args index value + if arg.value = some value then 1 else 0 := by
  simp [before, List.countP_cons]

/-- **Position by position.**  An argument is replaced exactly if fewer
arguments before it have the same value than are counted. -/
theorem getElem? (hreplaced : Replaced given count args others) {index : Nat} {arg : Arg}
    (harg : args[index]? = some arg) :
    (others[index]? = some arg ∧
        ∀ value, arg.value = some value → count value ≤ before args index value) ∨
      ∃ value new, arg.value = some value ∧ before args index value < count value ∧
        given value new ∧ others[index]? = some ⟨arg.tag, some new⟩ := by
  induction hreplaced generalizing index with
  | nil count => cases harg
  | @keep count first args others hcount hrest ih =>
      cases index with
      | zero =>
          cases harg
          exact .inl ⟨rfl, fun value hvalue => by rw [hcount value hvalue]; exact Nat.zero_le _⟩
      | succ index =>
          rcases ih harg with ⟨hsame, hall⟩ | ⟨value, new, hvalue, hlt, hnew, hgot⟩
          · refine .inl ⟨hsame, fun value hvalue => ?_⟩
            have hle := hall value hvalue
            rw [before_cons]
            omega
          · -- No argument with this value is kept.
            have hfirst : first.value ≠ some value := by
              intro heq
              rw [hcount value heq] at hlt
              exact Nat.not_lt_zero _ hlt
            refine .inr ⟨value, new, hvalue, ?_, hnew, hgot⟩
            rw [before_cons, if_neg hfirst]
            exact hlt
  | @give count tag old promised args others hcount hpromised hrest ih =>
      cases index with
      | zero =>
          cases harg
          exact .inr ⟨old, promised, rfl, hcount, hpromised, rfl⟩
      | succ index =>
          rcases ih harg with ⟨hsame, hall⟩ | ⟨value, new, hvalue, hlt, hnew, hgot⟩
          · refine .inl ⟨hsame, fun value hvalue => ?_⟩
            have hle := hall value hvalue
            rw [before_cons]
            by_cases heq : value = old
            · subst heq
              rw [oneLess, if_pos rfl] at hle
              rw [if_pos rfl]
              omega
            · rw [oneLess, if_neg heq] at hle
              omega
          · refine .inr ⟨value, new, hvalue, ?_, hnew, hgot⟩
            rw [before_cons]
            by_cases heq : value = old
            · subst heq
              rw [oneLess, if_pos rfl] at hlt
              rw [if_pos rfl]
              omega
            · rw [oneLess, if_neg heq] at hlt
              rw [if_neg fun hold => heq (Option.some.inj hold).symm]
              exact hlt

end Replaced

/-! ## One argument after the other -/

/-- The state in which a new object is protected. -/
def holding (state : Interpreter) (heap : Heap) (ref : Ref) : Interpreter :=
  { state with heap, roots := (state.roots.protect ref state.contexts.length).2 }

/-- What may become of the arguments when what one formal of the generic
received is looked at. -/
inductive RebindStep (env : Ref) (own : List (Formal × Matched)) (args : List Arg)
    (state : Interpreter) : Matched → List Arg → Interpreter → Prop
  /-- The formal received no single argument. -/
  | other {matched : Matched} (hother : ∀ value, matched ≠ .supplied value) :
      RebindStep env own args state matched args state
  /-- No formal of the method received the argument. -/
  | unmatched {value : Ref} (hown : formalOf? own value = none) :
      RebindStep env own args state (.supplied value) args state
  | missing {value : Ref} {formal : Formal} (hown : formalOf? own value = some formal)
      (hmissing : isMissingFormal env formal state = .ok true) :
      RebindStep env own args state (.supplied value) args state
  /-- All arguments with the value are replaced already. -/
  | absent {value : Ref} {formal : Formal} (hown : formalOf? own value = some formal)
      (hmissing : isMissingFormal env formal state = .ok false)
      (habsent : ∀ arg ∈ args, arg.value ≠ some value) :
      RebindStep env own args state (.supplied value) args state
  | promised {value promise : Ref} {formal : Formal} {heap : Heap}
      (hown : formalOf? own value = some formal)
      (hmissing : isMissingFormal env formal state = .ok false)
      (hallocate : state.heap.allocate ⟨.promise (.pending (.symbol 0 formal.name) env), []⟩
        state.rootRefs = .ok promise heap) :
      RebindStep env own args state (.supplied value) (replaceValue value promise args)
        (holding state heap promise)

theorem rebindStep_of_ok {env : Ref} {own : List (Formal × Matched)}
    {args following : List Arg} {after : Interpreter} {matched : Matched}
    (hok : rebindArg env own args matched state = .ok following after) :
    RebindStep env own args state matched following after := by
  cases matched with
  | missing =>
      cases hok
      exact .other nofun
  | dots gathered =>
      cases hok
      exact .other nofun
  | supplied value =>
      cases hown : formalOf? own value with
      | none =>
          simp only [rebindArg, hown] at hok
          cases hok
          exact .unmatched hown
      | some formal =>
          simp only [rebindArg, hown] at hok
          obtain ⟨missing, same, hmissing, hok⟩ := bind_eq_ok hok
          obtain ⟨hmissing, rfl⟩ := Query.toEval_eq_ok hmissing
          cases missing with
          | true =>
              cases hok
              exact .missing hown hmissing
          | false =>
              rw [if_neg Bool.false_ne_true] at hok
              split at hok
              · cases hallocate : same.heap.allocate
                    ⟨.promise (.pending (.symbol 0 formal.name) env), []⟩ same.rootRefs with
                | error cause heap =>
                    cases (bind_of_error (allocate_of_error hallocate)).symm.trans hok
                | ok promise heap =>
                    cases (bind_of_ok (allocate_of_ok hallocate)).symm.trans hok
                    exact .promised hown hmissing hallocate
              · next habsent =>
                  cases hok
                  refine .absent hown hmissing fun arg harg hvalue => habsent ?_
                  exact List.any_eq_true.mpr ⟨arg, harg, decide_eq_true hvalue⟩

/-- Whether a formal is not missing in the frame of its function. -/
def isPresent (env : Ref) (state : Interpreter) (formal : Formal) : Bool :=
  match isMissingFormal env formal state with
  | .ok missing => !missing
  | .error _ => false

theorem isPresent_iff {env : Ref} {formal : Formal} :
    isPresent env state formal = true ↔ isMissingFormal env formal state = .ok false := by
  unfold isPresent
  cases isMissingFormal env formal state with
  | ok missing => simp
  | error stop => simp

/-- The formal of the method that an argument with a value is handed on as. -/
def reread? (env : Ref) (own : List (Formal × Matched)) (state : Interpreter)
    (value : Ref) :
    Option Formal :=
  (formalOf? own value).filter (isPresent env state)

/-- How many of the arguments with a value are handed on as the method's formal,
once certain formals of the generic are looked at. -/
def owed (env : Ref) (own : List (Formal × Matched)) (state : Interpreter)
    (done : List Matched) (value : Ref) : Nat :=
  if (reread? env own state value).isSome then done.count (.supplied value) else 0

section Handing

variable {origin : Heap} {born : List Ref} {env : Ref} {own : List (Formal × Matched)}
  {args current following : List Arg} {prepared now after : Interpreter} {done : List Matched}
  {matched : Matched} {formal : Formal} {value promise : Ref}

theorem owed_nil : owed env own prepared [] = fun _ => 0 := by
  funext value
  simp [owed]

theorem owed_of_some (hsome : reread? env own prepared value = some formal) :
    owed env own prepared done value = done.count (.supplied value) := by
  rw [owed, hsome]
  rfl

theorem owed_append_of_none
    (hnone : matched = .supplied value → reread? env own prepared value = none)
    :
    owed env own prepared (done ++ [matched]) value = owed env own prepared done value := by
  unfold owed
  split
  · next hsome =>
      have hne : matched ≠ .supplied value := by
        intro heq
        rw [hnone heq] at hsome
        cases hsome
      rw [List.count_append, List.count_eq_zero.mpr fun hmem => hne
        (List.mem_singleton.mp hmem).symm]
      rfl
  · rfl

theorem owed_append_supplied
    (hsome : reread? env own prepared value = some formal) :
    owed env own prepared (done ++ [.supplied value]) =
      oneMore value (owed env own prepared done) := by
  funext other
  unfold oneMore
  split
  · next heq =>
      subst heq
      simp [owed, hsome]
  · next hne => exact owed_append_of_none fun heq => absurd (Matched.supplied.inj heq).symm hne

/-- A promise that stands for the arguments with a value. -/
structure Promised (env : Ref) (own : List (Formal × Matched)) (args : List Arg)
    (prepared now : Interpreter) (value promise : Ref) : Prop where
  content : ∃ formal, reread? env own prepared value = some formal ∧
    now.heap.get? promise = some ⟨.promise (.pending (.symbol 0 formal.name) env), []⟩
  root : promise ∈ now.roots.edges
  fresh : promise ∉ Args.values args

/-- What holds between the arguments of a method and those that are handed on,
once certain formals of the generic are looked at. -/
structure Handing (origin : Heap) (env : Ref) (own : List (Formal × Matched))
    (args : List Arg) (prepared : Interpreter) (done : List Matched)
    (current : List Arg) (now : Interpreter) : Prop where
  later : ∃ more, prepared.heap.Chronicle more now.heap
  /-- The frame of the method is the same. -/
  frame : origin.NeverWraps now.heap → ∀ object, now.heap.get? env = some object →
    prepared.heap.get? env = some object
  replaced : origin.NeverWraps now.heap →
    Replaced (Promised env own args prepared now) (owed env own prepared done) args current

theorem isMissingFormal_of_frame {missing : Bool}
    (hframe : ∀ object, now.heap.get? env = some object → prepared.heap.get? env = some object)
    (hmissing : isMissingFormal env formal now = .ok missing) :
    isMissingFormal env formal prepared = .ok missing := by
  obtain ⟨found, hfound, hrest⟩ := Query.bind_eq_ok hmissing
  obtain ⟨attributes, hget⟩ := exists_get?_of_environmentAt hfound
  refine (Query.bind_of_ok (environmentAt_of_get? (hframe _ hget))).trans ?_
  cases hbinding : found.frame.find? formal.name with
  | none =>
      simp only [hbinding] at hrest ⊢
      exact hrest
  | some binding =>
      simp only [hbinding] at hrest ⊢
      exact hrest

/-- What a step finds out about a formal was so in the beginning. -/
theorem reread?_of_frame {missing : Bool}
    (hframe : ∀ object, now.heap.get? env = some object → prepared.heap.get? env = some object)
    (hown : formalOf? own value = some formal)
    (hmissing : isMissingFormal env formal now = .ok missing) :
    reread? env own prepared value = if missing then none else some formal := by
  have hbefore := isMissingFormal_of_frame hframe hmissing
  cases missing <;> simp [reread?, hown, isPresent, hbefore]

/-- The heap came about by calls on a vacant one, which issued the frame and the
arguments of the method on the way. -/
structure Issues (origin : Heap) (env : Ref) (args : List Arg)
    (prepared : Interpreter) : Prop where
  vacant : origin.Vacant
  chronicle : ∃ born, origin.Chronicle born prepared.heap
  env : origin.IssuedSince prepared.heap env
  args : ArgsMeet (origin.IssuedSince prepared.heap) args

/-- A new object has a reference that was not issued before. -/
theorem Issues.ne_of_allocate (hissues : Issues origin env args prepared)
    (hlater : ∃ more, prepared.heap.Chronicle more now.heap) {roots : List Ref}
    (hallocate : now.heap.allocate object roots = .ok promise heap)
    (hwraps : origin.NeverWraps heap) {ref : Ref}
    (hissued : origin.IssuedSince prepared.heap ref) :
    ref ≠ promise := by
  obtain ⟨born, hborn⟩ := hissues.chronicle
  obtain ⟨more, hmore⟩ := hlater
  have hnew := hmore.append (Heap.chronicle_of_perform (Heap.perform_allocate hallocate) nofun)
  have hnotMem := hborn.notMem_of_issued hnew hissues.vacant hwraps hissued
  intro heq
  exact hnotMem (List.mem_append_right _ (List.mem_singleton.mpr heq))

theorem Issues.coherent (hissues : Issues origin env args prepared)
    (hlater : ∃ more, prepared.heap.Chronicle more now.heap) :
    now.heap.Coherent := by
  obtain ⟨born, hborn⟩ := hissues.chronicle
  obtain ⟨more, hmore⟩ := hlater
  exact (hborn.append hmore).coherent hissues.vacant.coherent

theorem Issues.neverWraps_of_allocate
    (hissues : Issues origin env args prepared)
    (hlater : ∃ more, prepared.heap.Chronicle more now.heap) {roots : List Ref}
    (hallocate : now.heap.allocate object roots = .ok promise heap)
    (hwraps : origin.NeverWraps heap) : origin.NeverWraps now.heap := by
  obtain ⟨born, hborn⟩ := hissues.chronicle
  obtain ⟨more, hmore⟩ := hlater
  exact (hborn.append hmore).neverWraps
    (Heap.chronicle_of_perform (Heap.perform_allocate hallocate) nofun)
    hissues.vacant.coherent hwraps

theorem mem_edges_holding {ref : Ref} :
    other ∈ (holding state heap ref).roots.edges ↔ other = ref ∨ other ∈ state.roots.edges := by
  simp only [holding, RootStack.protect, RootStack.edges, Array.toList_push, List.map_append,
    List.map_cons, List.map_nil, List.mem_append, List.mem_singleton]
  rw [or_assoc, or_left_comm]

/-- The promises that were made before stay, as they are protected. -/
theorem Promised.holding
    (hpromised : Promised env own args prepared now value promise)
    (hheap : now.heap.Coherent)
    (hallocate : now.heap.allocate object now.rootRefs = .ok other heap) :
    Promised env own args prepared (holding now heap other) value promise := by
  obtain ⟨formal, hreread, hget⟩ := hpromised.content
  have hroot : promise ∈ now.rootRefs := by
    simp [Interpreter.rootRefs, hpromised.root]
  exact ⟨⟨formal, hreread, Heap.get?_allocate_of_mem hheap hallocate hroot hget⟩,
    mem_edges_holding.mpr (.inr hpromised.root), hpromised.fresh⟩

theorem replaceValue_of_absent
    (habsent : ∀ arg ∈ current, arg.value ≠ some value) (new : Ref) :
    replaceValue value new current = current := by
  induction current with
  | nil => rfl
  | cons arg rest ih =>
      rw [replaceValue, if_neg (habsent arg List.mem_cons_self),
        ih fun other hother => habsent other (List.mem_cons_of_mem _ hother)]

/-- What one formal of the generic received is not handed on as a formal of the
method. -/
theorem Handing.skip
    (hhanding : Handing origin env own args prepared done current now)
    (hnone : origin.NeverWraps now.heap → ∀ value, matched = .supplied value →
      reread? env own prepared value = none) :
    Handing origin env own args prepared (done ++ [matched]) current now := by
  refine ⟨hhanding.later, hhanding.frame, fun hwraps => ?_⟩
  have howed : owed env own prepared (done ++ [matched]) = owed env own prepared done :=
    funext fun value => owed_append_of_none (hnone hwraps value)
  rw [howed]
  exact hhanding.replaced hwraps

/-- **One step.** -/
theorem Handing.step (hhanding : Handing origin env own args prepared done current now)
    (hissues : Issues origin env args prepared)
    (hsupplied : ∀ value, matched = .supplied value → value ∈ Args.values args)
    (hstep : RebindStep env own current now matched following after) :
    Handing origin env own args prepared (done ++ [matched]) following after := by
  cases hstep with
  | other hother => exact hhanding.skip fun _ value heq => absurd heq (hother value)
  | unmatched hown =>
      refine hhanding.skip fun _ value heq => ?_
      cases heq
      rw [reread?, hown]
      rfl
  | missing hown hmissing =>
      refine hhanding.skip fun hwraps value heq => ?_
      cases heq
      exact reread?_of_frame (hhanding.frame hwraps) hown hmissing
  | @absent value formal hown hmissing habsent =>
      refine ⟨hhanding.later, hhanding.frame, fun hwraps => ?_⟩
      have hreread : reread? env own prepared value = some formal :=
        reread?_of_frame (hhanding.frame hwraps) hown hmissing
      rw [owed_append_supplied hreread, ← replaceValue_of_absent habsent value]
      refine (hhanding.replaced hwraps).replaceValue ?_ fun hsome => ?_
      · intro other promised hpromised heq
        subst heq
        exact hpromised.fresh (hsupplied _ rfl)
      · obtain ⟨arg, harg, hvalue⟩ := hsome
        exact absurd hvalue (habsent arg harg)
  | @promised value promise formal heap hown hmissing hallocate =>
      have hnew := Heap.chronicle_of_perform (Heap.perform_allocate hallocate) nofun
      have hnow : origin.NeverWraps heap → origin.NeverWraps now.heap :=
        hissues.neverWraps_of_allocate hhanding.later hallocate
      have hheap := hissues.coherent hhanding.later
      refine ⟨?_, fun hwraps object hget => ?_, fun hwraps => ?_⟩
      · obtain ⟨more, hmore⟩ := hhanding.later
        exact ⟨_, hmore.append hnew⟩
      · rcases Heap.get?_of_allocate hheap hallocate hget with ⟨heq, -⟩ | hold
        · exact absurd heq (hissues.ne_of_allocate hhanding.later hallocate hwraps hissues.env)
        · exact hhanding.frame (hnow hwraps) object hold
      · have hreread : reread? env own prepared value = some formal :=
          reread?_of_frame (hhanding.frame (hnow hwraps)) hown hmissing
        rw [owed_append_supplied hreread]
        have hfresh : promise ∉ Args.values args := by
          intro hmem
          obtain ⟨arg, harg, hvalue⟩ := List.mem_filterMap.mp hmem
          exact hissues.ne_of_allocate hhanding.later hallocate hwraps
            (hissues.args arg harg _ hvalue) rfl
        have hkept := (hhanding.replaced (hnow hwraps)).mono fun other promised hpromised =>
          hpromised.holding hheap hallocate
        refine hkept.replaceValue ?_ fun _ => ?_
        · intro other promised hpromised heq
          subst heq
          exact hpromised.fresh (hsupplied _ rfl)
        · exact ⟨⟨formal, hreread, Heap.get?_allocate_self hheap hallocate⟩,
            mem_edges_holding.mpr (.inl rfl), hfresh⟩

/-- **All steps.** -/
theorem Handing.foldlM {items : List Matched}
    (hissues : Issues origin env args prepared)
    (hsupplied : ∀ value, .supplied value ∈ items → value ∈ Args.values args)
    (hhanding : Handing origin env own args prepared done current now)
    (hok : items.foldlM (rebindArg env own) current now = .ok following after) :
    Handing origin env own args prepared (done ++ items) following after := by
  induction items generalizing done current now with
  | nil =>
      cases hok
      rw [List.append_nil]
      exact hhanding
  | cons item rest ih =>
      rw [List.foldlM_cons] at hok
      obtain ⟨next, middle, hnext, hrest⟩ := bind_eq_ok hok
      have hvalues : ∀ value, item = .supplied value → value ∈ Args.values args :=
        fun value heq => hsupplied value (heq ▸ List.mem_cons_self)
      have hstep := hhanding.step hissues hvalues (rebindStep_of_ok hnext)
      have hall := ih
        (fun value hvalue => hsupplied value (List.mem_cons_of_mem _ hvalue))
        hstep hrest
      rwa [List.append_assoc, List.singleton_append] at hall

/-! ## All arguments of a method -/

theorem outcome_of_matchCall {call : Expr} {matched : List Matched}
    (hok : matchCall call formals args state = .ok matched) :
    (state.setting formals args).outcome = .ok matched := by
  obtain ⟨_, hread, hok⟩ := Query.bind_eq_ok hok
  cases hread
  have hsetting : (state.setting formals args).outcome =
      matchArgs state.symbolName state.reserved.dots formals args := rfl
  cases hmatched : matchArgs state.symbolName state.reserved.dots formals args with
  | ok found =>
      simp only [hmatched] at hok
      cases hok
      exact hsetting.trans hmatched
  | error error =>
      simp only [hmatched] at hok
      cases error with
      | unused indices =>
          obtain ⟨_, -, hok⟩ := Query.bind_eq_ok hok
          obtain ⟨_, -, hok⟩ := Query.bind_eq_ok hok
          cases hok
      | multipleMatch formal =>
          obtain ⟨_, -, hok⟩ := Query.bind_eq_ok hok
          cases hok
      | ambiguous index => cases hok

/-- The formals of a method in progress, given those of its generic. -/
def ownFormals (method : MethodInProgress) (formals : List Formal)
    (state : Interpreter) :
    List Formal :=
  match closureAt? method.fn state with
  | .ok (some closure) => closure.formals
  | _ => formals

/-- What formals receive comes from the arguments. -/
theorem mem_values_of_outcome {matched : List Matched}
    (hok : (state.setting formals args).outcome = .ok matched)
    (hmem : .supplied value ∈ matched) :
    value ∈ Args.values args := by
  obtain ⟨place, hplace⟩ := List.mem_iff_getElem?.mp hmem
  obtain ⟨index, -, hvalue⟩ := (Matching.Setting.getElem?_outcome_iff hok).mp hplace
  obtain ⟨arg, harg, hheld⟩ := Option.bind_eq_some_iff.mp hvalue
  exact List.mem_filterMap.mpr ⟨arg, List.mem_of_getElem? harg, hheld⟩

theorem replaced_of_foldlM {items : List Matched}
    (hissues : Issues origin env args prepared)
    (hitems : (prepared.setting formals args).outcome = .ok items)
    (hok : items.foldlM (rebindArg env own) args prepared = .ok following after)
    (hwraps : origin.NeverWraps after.heap) :
    Replaced (Promised env own args prepared after)
      (owed env own prepared items) args following := by
  have hstart : Handing origin env own args prepared [] args prepared := by
    refine ⟨⟨[], .refl _⟩, fun _ _ hget => hget, fun _ => ?_⟩
    rw [owed_nil]
    exact .refl _ _
  exact (Handing.foldlM hissues (fun _ hmem => mem_values_of_outcome hitems hmem) hstart
    hok).replaced hwraps

/-- **The arguments that are handed on**, value by value. -/
theorem replaced_of_rebindArgs {method : MethodInProgress}
    (hissues : Issues origin method.env method.args prepared)
    (hok : rebindArgs method formals prepared = .ok following after)
    (hwraps : origin.NeverWraps after.heap) :
    ∃ matched ownMatched, (prepared.setting formals method.args).outcome = .ok matched ∧
      (prepared.setting (ownFormals method formals prepared) method.args).outcome = .ok ownMatched ∧
      Replaced (Promised method.env
        ((ownFormals method formals prepared).zip ownMatched) method.args
          prepared after)
        (owed method.env ((ownFormals method formals prepared).zip ownMatched) prepared matched)
        method.args following := by
  obtain ⟨matched, prepared, hmatched, hrest⟩ := bind_eq_ok hok
  obtain ⟨hmatched, rfl⟩ := Query.toEval_eq_ok hmatched
  have hgeneric := outcome_of_matchCall hmatched
  obtain ⟨closure, prepared, hclosure, hownRest⟩ := bind_eq_ok hrest
  obtain ⟨hclosure, rfl⟩ := Query.toEval_eq_ok hclosure
  obtain ⟨ownMatched, prepared, hown, hfold⟩ := bind_eq_ok hownRest
  obtain ⟨hown, rfl⟩ := Query.toEval_eq_ok hown
  refine ⟨matched, ownMatched, hgeneric, ?_, ?_⟩
  · rw [ownFormals, hclosure]
    cases closure with
    | none => exact outcome_of_matchCall hown
    | some closure => exact outcome_of_matchCall hown
  · rw [ownFormals, hclosure]
    cases closure with
    | none => exact replaced_of_foldlM hissues hgeneric hfold hwraps
    | some closure => exact replaced_of_foldlM hissues hgeneric hfold hwraps

end Handing

end Eval

end LazyDispatch
