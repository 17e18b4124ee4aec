import LazyDispatch.Proofs.MethodWalk

/-!
# The methods of an operator

An operator is dispatched on the classes of an operand.  At each class its own
method comes before the one of its group.  Which of them was selected first is
said by `.Group`, and it stays like that: the group is not looked at any more
after an operator's own method, but it is after a method of the group.

A call of `NextMethod` finds out where it stands by comparing the name of its
method with the names that the methods of the group would have, or those of the
operator if there is no group.  So it goes on from there if the method belongs
to what `.Group` says.  But an operator's own method that comes after a method
of the group is not found among the names of the group, and the search begins at
its class once more: the method follows itself.
-/

namespace LazyDispatch

/-! ## Places of an operator -/

/-- A place where dispatch of an operator stands, with the group that the method
finds. -/
structure OperatorPlace extends MethodPlace where
  group : String

namespace OperatorPlace

/-- The operator's own method for a class, found as one of a group. -/
def OwnInGroup (place : OperatorPlace) (generic : String) : Prop :=
  place.group ≠ "" ∧ place.classes.head?.map (methodName generic) = some place.name

instance (place : OperatorPlace) (generic : String) : Decidable (place.OwnInGroup generic) :=
  inferInstanceAs (Decidable (_ ∧ _))

/-- A method further along the classes, or the default. -/
def Later (place following : OperatorPlace) : Prop :=
  following.classes.length < place.classes.length

/-- The places for an operator and a class vector: each has the operator's own
method for a class, the method of the group for a class without an own one, or
the default. -/
inductive Of (methods : String → Option Ref) (generic group : String) (classes : List String) :
    OperatorPlace → Prop
  | own {cls : String} {rest : List String} {method : Ref} {among : String}
      (hamong : among = "" ∨ among = group) (hsuffix : cls :: rest <:+ classes)
      (hmethod : methods (methodName generic cls) = some method) :
      Of methods generic group classes ⟨⟨methodName generic cls, method, cls :: rest⟩, among⟩
  | ofGroup {cls : String} {rest : List String} {method : Ref} (hsuffix : cls :: rest <:+ classes)
      (hnone : methods (methodName generic cls) = none)
      (hmethod : methods (methodName group cls) = some method) :
      Of methods generic group classes ⟨⟨methodName group cls, method, cls :: rest⟩, group⟩
  | default {method : Ref} {among : String} (hamong : among = "" ∨ among = group)
      (hmethod : methods (methodName generic "default") = some method) :
      Of methods generic group classes ⟨⟨methodName generic "default", method, []⟩, among⟩

/-- The group that is looked at after a place. -/
def searched (place : OperatorPlace) : Option String :=
  (some place.group).filter (· ≠ "")

/-- What comes next in turn: the first method along the classes after the one of
the place, or else the default. -/
def next (methods : String → Option Ref) (generic : String)
    (place : OperatorPlace) :
    List MethodPlace :=
  nextPlaces methods generic place.searched place.name place.classes.tail

/-- What a call of `NextMethod` comes to. -/
def following (methods : String → Option Ref) (generic : String)
    (place : OperatorPlace) :
    List MethodPlace :=
  if place.OwnInGroup generic then [place.toMethodPlace] else place.next methods generic

end OperatorPlace

section Places

variable {methods : String → Option Ref} {generic group : String} {classes : List String}
  {place : OperatorPlace}

theorem nextPlaces_eq_cons {among : Option String} {current : String}
    {rest : List String} {following : MethodPlace} {left : List MethodPlace}
    (hnext : nextPlaces methods generic among current rest = following :: left)
    :
    (∃ found : ClassPlace, classPlace? methods generic among rest = some found ∧
      following = found.toMethodPlace) ∨
    ∃ method, methods (methodName generic "default") = some method ∧
      current ≠ methodName generic "default" ∧
      following = ⟨methodName generic "default", method, []⟩ := by
  unfold nextPlaces at hnext
  split at hnext
  · next found hfound =>
      cases hnext
      exact Or.inl ⟨found, hfound, rfl⟩
  · split at hnext
    · cases hnext
    · next hcurrent =>
        unfold defaultPlace at hnext
        cases hmethod : methods (methodName generic "default") with
        | none =>
            rw [hmethod] at hnext
            cases hnext
        | some method =>
            rw [hmethod] at hnext
            cases hnext
            exact Or.inr ⟨method, rfl, hcurrent, rfl⟩

/-- What is found along the classes after a place is a place, and what follows
is one of the same group. -/
theorem of_nextPlaces {rest : List String} {current : String}
    {following : MethodPlace} {left : List MethodPlace} {among : String}
    (hamong : among = "" ∨ among = group) (hsuffix : rest <:+ classes)
    (hnext : nextPlaces methods generic ((some among).filter (· ≠ "")) current
      rest = following :: left) :
    OperatorPlace.Of methods generic group classes ⟨following, among⟩ := by
  rcases nextPlaces_eq_cons hnext with ⟨found, hfound, rfl⟩ | ⟨method, hmethod, -, rfl⟩
  · cases along_of_classPlace? hsuffix hfound with
    | own hsuffix hmethod => exact .own hamong hsuffix hmethod
    | @ofGroup name cls rest method hgroup hsuffix hnone hmethod =>
        obtain ⟨hname, hne⟩ := Option.filter_eq_some_iff.mp hgroup
        cases hname
        rcases hamong with rfl | rfl
        · cases of_decide_eq_true hne rfl
        · exact .ofGroup hsuffix hnone hmethod
  · exact .default hamong hmethod

theorem length_lt_of_nextPlaces {among : Option String} {current cls : String}
    {rest : List String} {following : MethodPlace} {left : List MethodPlace}
    (hnext : nextPlaces methods generic among current rest = following :: left)
    :
    following.classes.length < (cls :: rest).length := by
  rcases nextPlaces_eq_cons hnext with ⟨found, hfound, rfl⟩ | ⟨method, -, -, rfl⟩
  · cases along_of_classPlace? List.suffix_rfl hfound with
    | own hsuffix => exact Nat.lt_succ_of_le hsuffix.length_le
    | ofGroup _ hsuffix => exact Nat.lt_succ_of_le hsuffix.length_le
  · exact Nat.succ_pos _

/-- What comes next in turn is further along. -/
theorem OperatorPlace.Of.next_later
    (hplace : place.Of methods generic group classes) {following : MethodPlace}
    {left : List MethodPlace}
    (hnext : place.next methods generic = following :: left) :
    place.Later ⟨following, place.group⟩ := by
  cases hplace with
  | own => exact length_lt_of_nextPlaces hnext
  | ofGroup => exact length_lt_of_nextPlaces hnext
  | default =>
      rcases nextPlaces_eq_cons hnext with ⟨found, hfound, -⟩ | ⟨method, -, hcurrent, -⟩
      · cases hfound
      · exact absurd rfl hcurrent

theorem OperatorPlace.Of.next (hplace : place.Of methods generic group classes)
    {following : MethodPlace} {left : List MethodPlace}
    (hnext : place.next methods generic = following :: left) :
    OperatorPlace.Of methods generic group classes ⟨following, place.group⟩ := by
  cases hplace with
  | own hamong hsuffix =>
      exact of_nextPlaces hamong ((List.suffix_cons _ _).trans hsuffix) hnext
  | ofGroup hsuffix =>
      exact of_nextPlaces (Or.inr rfl) ((List.suffix_cons _ _).trans hsuffix) hnext
  | default hamong => exact of_nextPlaces hamong List.nil_suffix hnext

theorem OperatorPlace.Of.name_ne_empty
    (hplace : place.Of methods generic group classes) :
    place.name ≠ "" := by
  cases hplace <;> exact methodName_ne_empty _ _

theorem OperatorPlace.Of.suffix
    (hplace : place.Of methods generic group classes) :
    place.classes <:+ classes := by
  cases hplace with
  | own _ hsuffix => exact hsuffix
  | ofGroup hsuffix => exact hsuffix
  | default => exact List.nil_suffix

/-- What follows a place is a place of the same group. -/
theorem OperatorPlace.Of.following (hplace : place.Of methods generic group classes)
    {following : MethodPlace} {left : List MethodPlace}
    (hnext : place.following methods generic = following :: left) :
    OperatorPlace.Of methods generic group classes ⟨following, place.group⟩ := by
  unfold OperatorPlace.following at hnext
  split at hnext
  · cases hnext
    exact hplace
  · exact hplace.next hnext

/-- The place of the method that was found first: it finds the group only if it
belongs to it. -/
def ClassPlace.first (place : ClassPlace) (group : String) : OperatorPlace :=
  ⟨place.toMethodPlace, if place.ofGroup then group else ""⟩

theorem of_classPlace? {found : ClassPlace}
    (hfound : classPlace? methods generic (some group) classes = some found) :
    (found.first group).Of methods generic group classes := by
  cases along_of_classPlace? List.suffix_rfl hfound with
  | own hsuffix hmethod => exact .own (Or.inl rfl) hsuffix hmethod
  | ofGroup hname hsuffix hnone hmethod =>
      cases hname
      exact .ofGroup hsuffix hnone hmethod

theorem mem_of_drop {index : Nat} {found : ClassPlace}
    (hfound : classPlace? methods generic (some group) classes = some found)
    (hdrop : classes.drop index = found.classes) :
    (classes[index]?).getD "" ∈ classes := by
  have hhead : classes[index]? = found.classes.head? := by
    rw [← hdrop, List.head?_drop]
  rw [hhead]
  cases along_of_classPlace? List.suffix_rfl hfound with
  | own hsuffix => exact hsuffix.mem List.mem_cons_self
  | ofGroup _ hsuffix => exact hsuffix.mem List.mem_cons_self

/-- Places that come later and later are at most as many as there are classes,
the default apart. -/
theorem length_le_of_later {places : List OperatorPlace} {count : Nat}
    (hplaces : ∀ place ∈ places, place.classes.length ≤ count)
    (hlater : places.Pairwise OperatorPlace.Later) :
    (places.filter (·.classes ≠ [])).length ≤ count := by
  induction places generalizing count with
  | nil => exact Nat.zero_le _
  | cons place rest ih =>
      obtain ⟨hfirst, hrest⟩ := List.pairwise_cons.mp hlater
      obtain ⟨hplace, hothers⟩ := List.forall_mem_cons.mp hplaces
      by_cases hnone : place.classes = []
      · rw [List.filter_cons_of_neg (by simp [hnone])]
        exact ih hothers hrest
      · have hpos := List.length_pos_iff.mpr hnone
        have hcount : (rest.filter (·.classes ≠ [])).length ≤ place.classes.length - 1 :=
          ih (fun other hother => Nat.le_sub_one_of_lt (hfirst other hother)) hrest
        rw [List.filter_cons_of_pos (by simp [hnone]), List.length_cons]
        omega

end Places

/-! ## Calls of an operator -/

namespace Eval

variable {operands : List (Option (List String))}

/-- The classes of an operand. -/
def operandClasses (arg : Arg) : Query (Option (List String)) :=
  match arg.value with
  | some ref => explicitClass? ref
  | none => return none

theorem mapM_of_query {α β : Type} {query : α → Query β} {action : α → Eval β} {items : List α}
    {results : List β} {state : Interpreter}
    (hitems : ∀ item result, query item state = .ok result → action item state = .ok result state)
    (hok : items.mapM query state = .ok results) : items.mapM action state = .ok results state := by
  induction items generalizing results with
  | nil =>
      cases hok
      rfl
  | cons item items ih =>
      rw [List.mapM_cons] at hok ⊢
      obtain ⟨first, hfirst, hok⟩ := Query.bind_eq_ok hok
      obtain ⟨rest, hrest, hok⟩ := Query.bind_eq_ok hok
      cases hok
      exact (bind_of_ok (hitems _ _ hfirst)).trans (bind_of_ok (ih hrest))

/-- As the methods for the operands are looked for, one operand after the other,
the answers are those of a table. -/
def OperandsAnswer (run : Runner) (methods : String → Option Ref) (operator group : String)
    (env : Ref) : List (Option (List String)) → Interpreter → Prop
  | [], _ => True
  | operand :: rest, state =>
    (∀ classes, operand = some classes →
      Answers (lookupMethod run env state.fixed.base) methods
        (groupCandidates operator (some group) classes) state) ∧
    ∀ found next, operandMethod run operator group env operand state = .ok found next →
      OperandsAnswer run methods operator group env rest next

variable {run : Runner} {methods : String → Option Ref} {operator group : String} {env : Ref}
  {classes : List String} {state after : Interpreter}

/-- What is chosen was found for an operand. -/
theorem chooseMethod_eq_ok
    {pairs : List (Option (List String) × Option MethodMatch)}
    {found : MethodMatch} (hok : chooseMethod operator pairs state =
    .ok (some (classes, found)) after) :
    ∃ operand, (operand, some found) ∈ pairs ∧ operand.getD [] = classes := by
  unfold chooseMethod at hok
  split at hok
  · next lhs left rhs right rest =>
      have hleft : lhs.getD [] = classes ∧ left = found := by
        split at hok
        · obtain ⟨_, warned, -, hlast⟩ := bind_eq_ok hok
          cases hlast
          exact ⟨rfl, rfl⟩
        · cases hok
          exact ⟨rfl, rfl⟩
      rw [← hleft.2]
      exact ⟨lhs, List.mem_cons_self, hleft.1⟩
  · next lhs left rest _ =>
      cases hok
      exact ⟨lhs, List.mem_cons_self, rfl⟩
  · next lhs rhs right rest =>
      cases hok
      exact ⟨rhs, List.mem_cons_of_mem _ List.mem_cons_self, rfl⟩
  · cases hok

/-- What was found for an operand was found by a search, and by answers of the
table. -/
theorem exists_operandMethod
    {found : List (Option MethodMatch)} {operand : Option (List String)}
    {result : Option MethodMatch}
    (hok : operands.mapM (operandMethod run operator group env) state = .ok found after)
    (hanswers : OperandsAnswer run methods operator group env operands state)
    (hmem : (operand, result) ∈ operands.zip found) :
    ∃ before next, operandMethod run operator group env operand before = .ok result next ∧
      ∀ classes, operand = some classes →
        Answers (lookupMethod run env before.fixed.base) methods
          (groupCandidates operator (some group) classes) before := by
  induction operands generalizing state found with
  | nil => cases hmem
  | cons first rest ih =>
      rw [List.mapM_cons] at hok
      obtain ⟨head, next, hhead, hok⟩ := bind_eq_ok hok
      obtain ⟨tail, last, htail, hok⟩ := bind_eq_ok hok
      cases hok
      rcases List.mem_cons.mp hmem with heq | hlater
      · cases heq
        exact ⟨state, next, hhead, hanswers.1⟩
      · exact ih htail (hanswers.2 _ _ hhead) hlater

/-- A method for an operand is the first one along its classes. -/
theorem operandMethod_eq_ok (hgroup : group ≠ "")
    {operand : Option (List String)} {found : MethodMatch}
    (hok : operandMethod run operator group env operand state =
      .ok (some found) after) (hanswers : ∀ classes, operand = some classes →
    Answers (lookupMethod run env state.fixed.base) methods
      (groupCandidates operator (some group) classes) state) :
    ∃ classes place, operand = some classes ∧
      classPlace? methods operator (some group) classes = some place ∧
      found.name = place.name ∧ found.method = place.method ∧
      found.groupMatch = place.ofGroup ∧
      classes.drop found.index = place.classes := by
  cases operand with
  | none => cases hok
  | some classes =>
      obtain ⟨last, hlooks⟩ := hanswers classes rfl _ List.suffix_rfl
      obtain ⟨_, _, hget, hok⟩ := bind_eq_ok hok
      cases hget
      obtain ⟨⟨result, searched⟩, middle, hfind, hreturn⟩ := bind_eq_ok hok
      cases hreturn
      have hamong : (some group).filter (· ≠ "") = some group := by simp [hgroup]
      have hends := runEnds_of_looksUp hamong 0 false hlooks
      rw [List.drop_zero] at hends
      generalize hplace : classPlace? methods operator (some group) classes = place? at hends
      cases hends with
      | @found place index searched hclasses hindex hdrop hrun =>
          cases (findMethod_of_run hrun).symm.trans hfind
          exact ⟨classes, place, rfl, hplace, rfl, rfl, rfl, hdrop⟩
      | passed _ _ _ _ _ hrun => cases (findMethod_of_run hrun).symm.trans hfind

open Interpreter

/-- The dispatch variables of an operator say what was found. -/
theorem selectOperator_eq_ok {found : MethodMatch}
    {selection : Selection} (hheap : state.heap.Coherent)
    (hok : selectOperator operator group operands classes found env state = .ok selection after) :
    selection.target = (found.name, found.method) ∧
      selection.vars.Describe after ⟨operator, classes.drop found.index,
        operandNames found.name ((classes[found.index]?).getD "") operands,
        if found.groupMatch then group else ""⟩ ∧
      selection.vars.callEnv = env ∧ selection.vars.defEnv = state.fixed.base := by
  obtain ⟨_, kept, hkept, hok⟩ := bind_eq_ok hok
  obtain ⟨classesRef, first, hclasses, hok⟩ := bind_eq_ok hok
  obtain ⟨genericRef, second, hgeneric, hok⟩ := bind_eq_ok hok
  obtain ⟨nameRef, third, hname, hok⟩ := bind_eq_ok hok
  obtain ⟨groupRef, fourth, hgroup, hok⟩ := bind_eq_ok hok
  cases hok
  have hprotected := precedes_of_allows (HeapLaw.protecting_protect _) (.value hkept)
  have hkeptHeap := hprotected.coherent hheap
  have hfirst := precedes_of_allows (HeapLaw.protecting_dispatchClasses _ _ _) (.value hclasses)
  have hfirstHeap := hfirst.coherent hkeptHeap
  obtain ⟨hprecedes, hgenericText, hnameText, hgroupText⟩ :=
    protects_of_protectedStrings hfirstHeap hgeneric hname hgroup
  have hall := hprotected.trans (hfirst.trans hprecedes)
  refine ⟨rfl, ⟨Or.inl ?_, hgenericText, hnameText, hgroupText⟩, rfl, by rw [hall.persists.fixed]⟩
  exact hprecedes.protects hfirstHeap (dispatchClasses_eq_ok hkeptHeap hclasses)

theorem endsUnlessFull_selectOperator {found : MethodMatch}
    (hheap : state.heap.Coherent) :
    (selectOperator operator group operands classes found env).EndsUnlessFull state := by
  refine EndsUnlessFull.bind (endsUnlessFull_of_ok rfl) fun _ kept hkept => ?_
  have hkeptHeap := coherent_of_protect hheap hkept
  exact (endsUnlessFull_dispatchClasses hkeptHeap).bind fun _ _ _ =>
    (endsUnlessFull_protectedStrings _ _).bind fun _ _ _ =>
      (endsUnlessFull_protectedStrings _ _).bind fun _ _ _ =>
        (endsUnlessFull_protectedStrings _ _).bind fun _ _ _ => endsUnlessFull_of_ok rfl

/-- The method has its name for the operand that it was found for. -/
theorem soleName_operandNames {name cls : String} (hname : name ≠ "")
    (hmem : some classes ∈ operands) (hcls : cls ∈ classes) :
    SoleName name (operandNames name cls operands) :=
  ⟨hname, mem_operandNames hmem hcls, fun _ hother => eq_of_mem_operandNames hother⟩

end Eval

open Eval in
/-- An operator dispatches on its operands: the classes of the operands are
read, their methods are looked for, and the one that was found for an operand
with certain classes is chosen. -/
structure OperatorStep (run : Runner) (builtin : Builtin) (group : String) (classes : List String)
    (callEnv defEnv : Ref) where
  call : Expr
  args : List Arg
  hcount : ¬(args.isEmpty || 2 < args.length)
  start : Interpreter
  hstart : start.Sound
  hdefEnv : start.fixed.base = defEnv
  operands : List (Option (List String))
  hoperands : args.mapM operandClasses start = .ok operands
  hclassed : ¬operands.all Option.isNone
  found : List (Option MethodMatch)
  middle : Interpreter
  hfound : operands.mapM (operandMethod run builtin.name group callEnv) start = .ok found middle
  chosen : MethodMatch
  decided : Interpreter
  hchosen : chooseMethod builtin.name (operands.zip found) middle =
    .ok (some (classes, chosen)) decided

namespace OperatorStep

open Eval Interpreter

variable {run : Runner} {methods : String → Option Ref} {builtin : Builtin} {group : String}
  {classes : List String} {callEnv defEnv : Ref}
  (step : OperatorStep run builtin group classes callEnv defEnv)

/-- The selection of the method. -/
def select : Eval Selection :=
  selectOperator builtin.name group step.operands classes step.chosen callEnv

/-- The operator selects a function under a name, unless there is no memory for
that, and applies it. -/
def Selects (target : String × Ref) : Prop :=
  step.select.EndsUnlessFull step.decided ∧
    (∀ selection after, step.select step.decided = .ok selection after →
      selection.target = target) ∧
    groupDispatch run group step.call builtin step.args callEnv step.start =
      withRoots (do
        let selection ← step.select
        let args ← forcedPromiseArgs step.call step.args
        return some (← applyMethod run selection step.call args callEnv)) step.decided

/-- What was chosen is the first method along the classes of an operand. -/
theorem exists_place (hgroup : group ≠ "")
    (hanswers : OperandsAnswer run methods builtin.name group callEnv step.operands step.start) :
    ∃ place, classPlace? methods builtin.name (some group) classes = some place ∧
      some classes ∈ step.operands ∧ step.chosen.name = place.name ∧
      step.chosen.method = place.method ∧ step.chosen.groupMatch = place.ofGroup ∧
      classes.drop step.chosen.index = place.classes := by
  obtain ⟨operand, hmem, hclasses⟩ := chooseMethod_eq_ok step.hchosen
  obtain ⟨before, next, hmethod, hasked⟩ := exists_operandMethod step.hfound hanswers hmem
  obtain ⟨_, place, rfl, hplace, hsame⟩ := operandMethod_eq_ok hgroup hmethod hasked
  cases hclasses
  exact ⟨place, hplace, (List.of_mem_zip hmem).1, hsame⟩

theorem groupDispatch_eq :
    groupDispatch run group step.call builtin step.args callEnv step.start =
      withRoots (do
        let selection ← step.select
        let args ← forcedPromiseArgs step.call step.args
        return some (← applyMethod run selection step.call args callEnv)) step.decided := by
  unfold groupDispatch
  rw [if_neg step.hcount]
  refine (bind_of_ok (mapM_of_query ?_ step.hoperands)).trans ?_
  · intro arg operand hoperand
    obtain ⟨tag, value⟩ := arg
    cases value with
    | some ref => exact lift_of_ok hoperand
    | none =>
        cases hoperand
        rfl
  · rw [if_neg step.hclassed]
    exact (bind_of_ok step.hfound).trans (bind_of_ok step.hchosen)

variable (hrun : ∀ task, persistence.Settled (run task))

include hrun

theorem precedes_decided : step.start.Precedes step.decided := by
  have hfound := precedes_of_allows
    (Effect.Allows.mapM (HeapLaw.settled_operandMethod hrun builtin.name group callEnv))
    (.value step.hfound)
  exact hfound.trans (precedes_of_allows (HeapLaw.settled_chooseMethod _ _) (.value step.hchosen))

/-- The operator selects the first method along the classes of an operand. -/
theorem exists_selects (hgroup : group ≠ "")
    (hanswers : OperandsAnswer run methods builtin.name group callEnv step.operands step.start) :
    ∃ found, classPlace? methods builtin.name (some group) classes = some found ∧
      step.Selects found.target := by
  obtain ⟨found, hfound, -, hname, hmethod, -, -⟩ := step.exists_place hgroup hanswers
  have hheap := ((step.precedes_decided hrun).sound step.hstart).heap
  refine ⟨found, hfound, endsUnlessFull_selectOperator hheap, ?_, step.groupDispatch_eq⟩
  intro selection after hok
  rw [(selectOperator_eq_ok hheap hok).1, hname, hmethod]
  rfl

end OperatorStep

/-! ## Going on from a place -/

namespace Eval

variable {rest : List String}

/-- The answers are those of a table, whether the group is looked at or not. -/
def AnswersInGroup (lookup : String → Eval (Option Ref))
    (methods : String → Option Ref) (generic group : String)
    (classes : List String) (state : Interpreter) : Prop :=
  Answers lookup methods (groupCandidates generic none classes) state ∧
    Answers lookup methods (groupCandidates generic (some group) classes) state

section Resume

variable {run : Runner} {methods : String → Option Ref} {generic group : String}
  {classes : List String} {state : Interpreter} {method : MethodInProgress} {point : ResumePoint}
  {symbol : Symbol} {place : OperatorPlace}

theorem AnswersInGroup.exists_looksUp {lookup : String → Eval (Option Ref)}
    (hanswers : AnswersInGroup lookup methods generic group classes state) {among : String}
    (hamong : among = "" ∨ among = group) (hsuffix : rest <:+ classes) :
    ∃ after, LooksUp lookup methods
      (groupCandidates generic ((some among).filter (· ≠ "")) rest) state after := by
  by_cases hempty : among = ""
  · have hnone : (some among).filter (· ≠ "") = none := by simp [hempty]
    rw [hnone]
    exact hanswers.1 _ (groupCandidates_suffix none hsuffix)
  · have hsome : (some among).filter (· ≠ "") = some group := by
      rw [← hamong.resolve_left hempty]
      simp [hempty]
    rw [hsome]
    exact hanswers.2 _ (groupCandidates_suffix (some group) hsuffix)

/-- A name that no method of the group has is not found among them. -/
theorem resumeIndex_of_ne {base current : String}
    (hne : ∀ cls, methodName base cls ≠ current) :
    resumeIndex base current rest = 0 := by
  have hnone : rest.findIdx? (fun cls => methodName base cls == current) = none := by
    simp [hne]
  unfold resumeIndex
  rw [hnone]

/-- The search for the next method, given the classes that are left after a
place. -/
theorem findsNext_of_rest (hclasses : point.classes = place.classes)
    (hamong : point.group = place.group) (hcurrent : point.current = place.name)
    (hgroup : place.group = "" ∨ place.group = group) {start : Nat}
    (hstart : resumeIndex (if place.group = "" then generic else place.group)
      place.name place.classes = start)
    (hrest : place.classes.drop start = rest) (hsuffix : rest <:+ classes)
    (hanswers : AnswersInGroup (lookupMethod run method.callEnv method.defEnv)
      methods generic group classes state) :
    FindsNext run methods generic symbol method state
      (findNext run generic symbol method point state)
      (nextPlaces methods generic place.searched place.name rest) := by
  rw [← hclasses] at hstart hrest
  rw [← hamong, ← hcurrent] at hstart
  rw [← hamong] at hgroup
  obtain ⟨after, hlooks⟩ := hanswers.exists_looksUp hgroup hsuffix
  rw [OperatorPlace.searched, ← hamong, ← hcurrent]
  exact findsNext_of_looksUp rfl hstart hrest hlooks

/-- The search for the next method from a place. -/
theorem findsNext_of_place (hgroup : group ≠ "")
    (hdistinct : ∀ cls other, methodName group cls ≠ methodName generic other)
    (hplace : place.Of methods generic group classes) (hclasses : point.classes = place.classes)
    (hamong : point.group = place.group) (hcurrent : point.current = place.name)
    (hanswers : AnswersInGroup (lookupMethod run method.callEnv method.defEnv) methods generic group
      classes state) :
    FindsNext run methods generic symbol method state
      (findNext run generic symbol method point state) (place.following methods generic) := by
  unfold OperatorPlace.following
  cases hplace with
  | @own cls rest found among hfrom hsuffix hmethod =>
      have hrest := (List.suffix_cons cls rest).trans hsuffix
      by_cases hempty : among = ""
      · -- Without a group, the name is found among those of the operator.
        have hnot : ¬OperatorPlace.OwnInGroup
            ⟨⟨methodName generic cls, found, cls :: rest⟩, among⟩ generic :=
          fun hown => hown.1 hempty
        have hstart : resumeIndex (if among = "" then generic else among) (methodName generic cls)
            (cls :: rest) = 1 := by
          rw [if_pos hempty, resumeIndex_cons]
        rw [if_neg hnot]
        exact findsNext_of_rest hclasses hamong hcurrent hfrom hstart rfl hrest hanswers
      · -- Among the names of the group it is not, so the search is from the same class on.
        rw [if_pos ⟨hempty, rfl⟩]
        have hagain : nextPlaces methods generic ((some among).filter (· ≠ ""))
            (methodName generic cls) (cls :: rest) =
              [⟨methodName generic cls, found, cls :: rest⟩] := by
          unfold nextPlaces classPlace?
          rw [hmethod]
        have hstart : resumeIndex (if among = "" then generic else among) (methodName generic cls)
            (cls :: rest) = 0 := by
          rw [if_neg hempty, hfrom.resolve_left hempty]
          exact resumeIndex_of_ne fun other => hdistinct other cls
        rw [← hagain]
        exact findsNext_of_rest hclasses hamong hcurrent hfrom hstart rfl hsuffix hanswers
  | @ofGroup cls rest found hsuffix hnone hmethod =>
      have hrest := (List.suffix_cons cls rest).trans hsuffix
      have hnot : ¬OperatorPlace.OwnInGroup
          ⟨⟨methodName group cls, found, cls :: rest⟩, group⟩ generic :=
        fun hown => hdistinct cls cls (Option.some.inj hown.2).symm
      have hstart : resumeIndex (if group = "" then generic else group) (methodName group cls)
          (cls :: rest) = 1 := by
        rw [if_neg hgroup, resumeIndex_cons]
      rw [if_neg hnot]
      exact findsNext_of_rest hclasses hamong hcurrent (Or.inr rfl) hstart rfl hrest hanswers
  | @default found among hfrom hmethod =>
      have hnot : ¬OperatorPlace.OwnInGroup
          ⟨⟨methodName generic "default", found, []⟩, among⟩ generic :=
        fun hown => Option.some_ne_none _ hown.2.symm
      rw [if_neg hnot]
      exact findsNext_of_rest hclasses hamong hcurrent hfrom rfl rfl List.nil_suffix hanswers

end Resume

end Eval

end LazyDispatch
