import LazyDispatch.Eval.NextMethod
import LazyDispatch.Proofs.Steps

/-!
# The order of methods

The methods of a generic for a class vector, in the order in which dispatch
should come to them: the methods of the classes that have one, from the first
class to the last, and then the default.  Each stands there with the classes
from its own on.

A search only asks for names, one after the other, until it finds a method.  If
the answers are those of a fixed table, then a search comes to the first method
in the order, and a search over the classes after a method comes to the one that
follows.  A search may also be for a generic in a group; at each class it then
asks for the method of the generic first, and next for the one of the group.
-/

namespace LazyDispatch

/-- A method in its place in the order. -/
structure MethodPlace where
  name : String
  method : Ref
  /-- The classes from the one of the method on; none for the default. -/
  classes : List String

/-- The name and the function of a method. -/
def MethodPlace.target (place : MethodPlace) : String × Ref :=
  (place.name, place.method)

/-- The place of the method of a class, which may be a method of the group. -/
structure ClassPlace extends MethodPlace where
  ofGroup : Bool

section Order

variable (methods : String → Option Ref) (generic : String)

/-- The place of the default method, if there is one. -/
def defaultPlace : List MethodPlace :=
  ((methods (methodName generic "default")).map fun method =>
    ⟨methodName generic "default", method, []⟩).toList

/-- The methods of a generic for a class vector, in order. -/
def methodOrder (classes : List String) : List MethodPlace :=
  (classes.zipIdx.filterMap fun (cls, index) => (methods (methodName generic cls)).map fun method =>
    ⟨methodName generic cls, method, classes.drop index⟩) ++ defaultPlace methods generic

/-- The first place along the classes: the method of the generic comes before
the one of the group. -/
def classPlace? (group : Option String) : List String → Option ClassPlace
  | [] => none
  | cls :: rest =>
    match methods (methodName generic cls) with
    | some method => some ⟨⟨methodName generic cls, method, cls :: rest⟩, false⟩
    | none =>
      match group.bind fun group => (methods (methodName group cls)).map fun method =>
          (⟨⟨methodName group cls, method, cls :: rest⟩, true⟩ : ClassPlace) with
      | some place => some place
      | none => classPlace? group rest

/-- What comes after a method with a certain name, given the classes that are
left: the first place along them, or else the default, unless it has that name. -/
def nextPlaces (group : Option String) (current : String)
    (classes : List String) :
    List MethodPlace :=
  match classPlace? methods generic group classes with
  | some place => [place.toMethodPlace]
  | none => if current = methodName generic "default" then [] else defaultPlace methods generic

/-- The names that a search asks for, in order. -/
def candidates (classes : List String) : List String :=
  (classes ++ ["default"]).map (methodName generic)

/-- The names of the methods for a class. -/
def methodNames (group : Option String) (cls : String) : List String :=
  methodName generic cls :: (group.map (methodName · cls)).toList

/-- The names that a search for a generic in a group asks for, in order. -/
def groupCandidates (group : Option String) (classes : List String) :
    List String :=
  classes.flatMap (methodNames generic group) ++ [methodName generic "default"]

variable {methods generic}

theorem methodOrder_cons (cls : String) (rest : List String) :
    methodOrder methods generic (cls :: rest) =
      ((methods (methodName generic cls)).map fun method =>
        (⟨methodName generic cls, method, cls :: rest⟩ : MethodPlace)).toList ++
      methodOrder methods generic rest := by
  unfold methodOrder
  rw [List.zipIdx_cons, List.zipIdx_succ]
  simp only [List.filterMap_cons, List.filterMap_map, Function.comp_def, List.drop_zero,
    List.drop_succ_cons]
  cases methods (methodName generic cls) with
  | none => rfl
  | some method => rfl

/-- The order begins with the first class that has a method, or else with the
default. -/
theorem methodOrder_eq (classes : List String) :
    methodOrder methods generic classes =
      match classPlace? methods generic none classes with
      | some place => place.toMethodPlace :: methodOrder methods generic place.classes.tail
      | none => defaultPlace methods generic := by
  induction classes with
  | nil => rfl
  | cons cls rest ih =>
      rw [methodOrder_cons]
      cases hcls : methods (methodName generic cls) with
      | some method => simp [classPlace?, hcls]
      | none => simp [classPlace?, hcls, ih]

/-- What is asked for over the last classes is asked for last. -/
theorem candidates_suffix {classes rest : List String}
    (hsuffix : rest <:+ classes) :
    candidates generic rest <:+ candidates generic classes := by
  obtain ⟨front, rfl⟩ := hsuffix
  refine ⟨front.map (methodName generic), ?_⟩
  rw [candidates, candidates, ← List.map_append, List.append_assoc]

theorem groupCandidates_none (classes : List String) :
    groupCandidates generic none classes = candidates generic classes := by
  have hnames : methodNames generic none = fun cls => [methodName generic cls] := rfl
  rw [groupCandidates, candidates, hnames, ← List.map_eq_flatMap, List.map_append]
  rfl

theorem groupCandidates_suffix (group : Option String) {classes rest : List String}
    (hsuffix : rest <:+ classes) :
    groupCandidates generic group rest <:+ groupCandidates generic group classes := by
  obtain ⟨front, rfl⟩ := hsuffix
  refine ⟨front.flatMap (methodNames generic group), ?_⟩
  rw [groupCandidates, groupCandidates, List.flatMap_append, List.append_assoc]

/-- Different classes have methods of different names. -/
theorem methodName_inj {generic cls other : String} :
    methodName generic cls = methodName generic other ↔ cls = other := by
  unfold methodName
  constructor
  · intro hname
    exact String.append_right_inj _ |>.mp hname
  · intro hcls
    rw [hcls]

end Order

/-- A place along the classes. -/
inductive ClassPlace.Along (methods : String → Option Ref) (generic : String)
    (group : Option String) (classes : List String) : ClassPlace → Prop
  | own {cls : String} {rest : List String} {method : Ref} (hsuffix : cls :: rest <:+ classes)
      (hmethod : methods (methodName generic cls) = some method) :
      Along methods generic group classes ⟨⟨methodName generic cls, method, cls :: rest⟩, false⟩
  | ofGroup {name cls : String} {rest : List String} {method : Ref} (hgroup : group = some name)
      (hsuffix : cls :: rest <:+ classes) (hnone : methods (methodName generic cls) = none)
      (hmethod : methods (methodName name cls) = some method) :
      Along methods generic group classes ⟨⟨methodName name cls, method, cls :: rest⟩, true⟩

theorem along_of_classPlace? {methods : String → Option Ref} {generic : String}
    {group : Option String} {classes rest : List String} {place : ClassPlace}
    (hsuffix : rest <:+ classes)
    (hplace : classPlace? methods generic group rest = some place) :
    place.Along methods generic group classes := by
  fun_induction classPlace? methods generic group rest with
  | case1 => cases hplace
  | case2 cls rest method hmethod =>
      cases hplace
      exact .own hsuffix hmethod
  | case3 cls rest hnone found hfound =>
      cases hplace
      obtain ⟨name, hgroup, hmap⟩ := Option.bind_eq_some_iff.mp hfound
      obtain ⟨method, hmethod, rfl⟩ := Option.map_eq_some_iff.mp hmap
      exact .ofGroup hgroup hsuffix hnone hmethod
  | case4 cls rest _ _ ih => exact ih ((List.suffix_cons _ _).trans hsuffix) hplace

/-- A place in the order of the methods for `classes`, with the places after it. -/
inductive InOrder (methods : String → Option Ref) (generic : String) (classes : List String) :
    MethodPlace → List MethodPlace → Prop
  | cls {cls : String} {rest : List String} {method : Ref} (hsuffix : cls :: rest <:+ classes)
      (hmethod : methods (methodName generic cls) = some method) :
      InOrder methods generic classes ⟨methodName generic cls, method, cls :: rest⟩
        (methodOrder methods generic rest)
  | default {method : Ref} (hmethod : methods (methodName generic "default") = some method) :
      InOrder methods generic classes ⟨methodName generic "default", method, []⟩ []

theorem inOrder_of_eq_cons {methods : String → Option Ref} {generic : String}
    {classes rest : List String} {place : MethodPlace} {left : List MethodPlace}
    (hsuffix : rest <:+ classes)
    (horder : methodOrder methods generic rest = place :: left) :
    InOrder methods generic classes place left := by
  rw [methodOrder_eq] at horder
  cases hplace : classPlace? methods generic none rest with
  | some found =>
      rw [hplace] at horder
      cases horder
      cases along_of_classPlace? hsuffix hplace with
      | own hsuffix hmethod => exact .cls hsuffix hmethod
      | ofGroup hgroup => cases hgroup
  | none =>
      rw [hplace] at horder
      dsimp only [defaultPlace] at horder
      cases hmethod : methods (methodName generic "default") with
      | none =>
          rw [hmethod] at horder
          cases horder
      | some method =>
          rw [hmethod] at horder
          cases horder
          exact .default hmethod

/-- The place after a place. -/
theorem InOrder.next {methods : String → Option Ref} {generic : String}
    {classes : List String} {place following : MethodPlace}
    {left : List MethodPlace}
    (hplace : InOrder methods generic classes place (following :: left)) :
    InOrder methods generic classes following left := by
  generalize hall : following :: left = all at hplace
  cases hplace with
  | cls hsuffix => exact inOrder_of_eq_cons ((List.suffix_cons _ _).trans hsuffix) hall.symm
  | default => cases hall

/-! ## Asking for names -/

namespace Eval

variable {middle : Interpreter} {start : Nat} {current : String}

variable {rest : List String}

/-- Names are asked for one after the other until a method is found, and the
answers are those of a table. -/
inductive LooksUp (lookup : String → Eval (Option Ref)) (methods : String → Option Ref) :
    List String → Interpreter → Interpreter → Prop
  | done (state : Interpreter) : LooksUp lookup methods [] state state
  | found {name : String} {rest : List String} {method : Ref} {state after : Interpreter}
      (hmethod : methods name = some method) (hok : lookup name state = .ok (some method) after) :
      LooksUp lookup methods (name :: rest) state after
  | passed {name : String} {rest : List String} {state middle after : Interpreter}
      (hnone : methods name = none) (hok : lookup name state = .ok none middle)
      (hrest : LooksUp lookup methods rest middle after) :
      LooksUp lookup methods (name :: rest) state after

/-- From wherever among the candidates the asking starts, the answers are those
of the table. -/
def Answers (lookup : String → Eval (Option Ref))
    (methods : String → Option Ref) (names : List String) (state : Interpreter)
    : Prop :=
  ∀ rest, rest <:+ names → ∃ after, LooksUp lookup methods rest state after

section Searching

variable {lookup : String → Eval (Option Ref)} {methods : String → Option Ref} {generic : String}
  {state after : Interpreter}

/-- Asking goes on after names without a method. -/
theorem LooksUp.append {passed : List String}
    (hlooks : LooksUp lookup methods passed state middle)
    (hpassed : ∀ name ∈ passed, methods name = none)
    (hrest : LooksUp lookup methods rest middle after) :
    LooksUp lookup methods (passed ++ rest) state after := by
  induction hlooks with
  | done => exact hrest
  | found hmethod => cases (hpassed _ List.mem_cons_self).symm.trans hmethod
  | passed hnone hok _ ih =>
      have hothers := (List.forall_mem_cons.mp hpassed).2
      exact .passed hnone hok (ih hothers hrest)

/-- A name with a method ends the asking. -/
theorem LooksUp.eq_ok_of_some {name : String} {method : Ref}
    (hlooks : LooksUp lookup methods (name :: rest) state after)
    (hmethod : methods name = some method) :
    lookup name state = .ok (some method) after := by
  cases hlooks with
  | found hother hok =>
      cases hother.symm.trans hmethod
      exact hok
  | passed hnone => cases hnone.symm.trans hmethod

/-- A name without a method does not. -/
theorem LooksUp.eq_ok_of_none {name : String}
    (hlooks : LooksUp lookup methods (name :: rest) state after) (hnone : methods name = none) :
    ∃ middle, lookup name state = .ok none middle ∧ LooksUp lookup methods rest middle after := by
  cases hlooks with
  | found hother => cases hnone.symm.trans hother
  | passed _ hok hrest => exact ⟨_, hok, hrest⟩

/-- How a search over the last of `all` classes ends, given the first place
along them: it finds the method there, or it passes them and finishes. -/
inductive ScanEnds (lookup : String → Eval (Option Ref)) (methods : String → Option Ref)
    (generic : String) (group : Option String) (all : List String) (allowDefault : Bool)
    (classes more : List String) (state after : Interpreter)
    (result : EStateM.Result Stop Interpreter (MethodSearch.Result EvalError)) :
    Option ClassPlace → Prop
  | found {place : ClassPlace} {index : Nat} {searched : MethodSearch}
      (hclasses : searched.classes = all) (hindex : searched.index = index)
      (hplace : all.drop index = place.classes)
      (hresult : result =
        .ok (.ok (some ⟨index, place.name, place.method, place.ofGroup, false⟩), searched) after) :
      ScanEnds lookup methods generic group all allowDefault classes more state after result
        (some place)
  | passed {middle : Interpreter} {finished : MethodSearch}
      (hasked : LooksUp lookup methods (classes.flatMap (methodNames generic group)) state middle)
      (hnone : ∀ name ∈ classes.flatMap (methodNames generic group), methods name = none)
      (hmore : LooksUp lookup methods more middle after)
      (hgeneric : finished.generic = generic) (hclasses : finished.classes = all)
      (hresult : result =
        finished.finish (fun name => attempt (lookup name)) allowDefault middle) :
      ScanEnds lookup methods generic group all allowDefault classes more state after result none

section Scan

variable {group : Option String} {all classes more : List String} {allowDefault : Bool}

/-- A class without a method is passed. -/
theorem ScanEnds.cons {cls : String}
    {result : EStateM.Result Stop Interpreter (MethodSearch.Result EvalError)}
    {place? : Option ClassPlace}
    (hasked : ∀ names last, LooksUp lookup methods names middle last →
      LooksUp lookup methods (methodNames generic group cls ++ names) state last)
    (hnone : ∀ name ∈ methodNames generic group cls, methods name = none)
    (hends : ScanEnds lookup methods generic group all allowDefault classes more middle after result
      place?) :
    ScanEnds lookup methods generic group all allowDefault (cls :: classes) more state after result
      place? := by
  cases hends with
  | found hclasses hindex hplace hresult => exact .found hclasses hindex hplace hresult
  | passed hrest hothers hmore hgeneric hclasses hresult =>
      refine .passed (hasked _ _ hrest) ?_ hmore hgeneric hclasses hresult
      rw [List.flatMap_cons]
      exact List.forall_mem_append.mpr ⟨hnone, hothers⟩

/-- A search comes to the first place along the classes. -/
theorem scanEnds_of_looksUp {search : MethodSearch}
    (hgeneric : search.generic = generic) (hgroup : search.group = group)
    (hall : search.classes = all) (allowDefault : Bool) {index : Nat}
    (hdrop : all.drop index = classes) (hlooks : LooksUp lookup methods
    (classes.flatMap (methodNames generic group) ++ more) state after) :
    ScanEnds lookup methods generic group all allowDefault classes more state after
      (search.scan (fun name => attempt (lookup name)) allowDefault index classes state)
      (classPlace? methods generic group classes) := by
  induction classes generalizing search state index with
  | nil => exact .passed (.done state) nofun hlooks hgeneric hall rfl
  | cons cls rest ih =>
      have hrest : all.drop (index + 1) = rest := by
        rw [← List.tail_drop, hdrop]
        rfl
      obtain ⟨generic, group, all, former, found, progress⟩ := search
      dsimp only at hgeneric hgroup hall
      subst hgeneric hgroup hall
      rw [MethodSearch.scan, classPlace?]
      cases hown : methods (methodName generic cls) with
      | some method =>
          refine .found ?_ ?_ hdrop (bind_of_ok (attempt_of_ok (hlooks.eq_ok_of_some hown)))
          · rfl
          · rfl
      | none =>
          obtain ⟨middle, hok, hmore⟩ := hlooks.eq_ok_of_none hown
          rw [bind_of_ok (attempt_of_ok hok)]
          cases group with
          | none =>
              refine .cons (fun _ _ hnames => .passed hown hok hnames) ?_ ?_
              · exact List.forall_mem_singleton.mpr hown
              · exact ih rfl rfl rfl hrest hmore
          | some group =>
              cases hgroup : methods (methodName group cls) with
              | some method =>
                  have hfound := attempt_of_ok (hmore.eq_ok_of_some hgroup)
                  simp only [Option.bind_some, hgroup, Option.map_some]
                  refine .found ?_ ?_ hdrop (bind_of_ok hfound)
                  · rfl
                  · rfl
              | none =>
                  obtain ⟨last, hlast, hothers⟩ := hmore.eq_ok_of_none hgroup
                  simp only [Option.bind_some, hgroup, Option.map_none]
                  rw [bind_of_ok (attempt_of_ok hlast)]
                  refine .cons (fun _ _ hnames => .passed hown hok
                    (.passed hgroup hlast hnames)) ?_ ?_
                  · exact List.forall_mem_cons.mpr ⟨hown, List.forall_mem_singleton.mpr hgroup⟩
                  · exact ih rfl rfl rfl hrest hothers

theorem runEnds_of_looksUp {given : Option String} (hgroup : given.filter (· ≠ "") = group)
    (start : Nat) (allowDefault : Bool)
    (hlooks : LooksUp lookup methods
      ((all.drop start).flatMap (methodNames generic group) ++ more) state after) :
    ScanEnds lookup methods generic group all allowDefault (all.drop start) more state after
      ((MethodSearch.start generic given all).run
        (fun name => attempt (lookup name)) start allowDefault
        state)
      (classPlace? methods generic group (all.drop start)) := by
  refine scanEnds_of_looksUp ?_ ?_ ?_ allowDefault rfl hlooks
  · rfl
  · exact hgroup
  · rfl

end Scan

variable {run : Runner} {callEnv defEnv : Ref} {classes : List String}

theorem findMethod_of_run {search : MethodSearch}
    {allowDefault : Bool} {found : Option MethodMatch} {searched : MethodSearch}
    (hok : search.run
      (fun name => attempt (lookupMethod run callEnv defEnv name)) start
      allowDefault state = .ok (.ok found, searched) after) :
    findMethod run search callEnv defEnv start allowDefault state = .ok (found, searched) after :=
  bind_of_ok hok

/-- What a search over `classes` found is a certain place in the order. -/
structure MethodMatch.At (found : MethodMatch) (classes : List String)
    (place : MethodPlace) :
    Prop where
  name : found.name = place.name
  method : found.method = place.method
  classes : if found.isDefault then place.classes = []
    else classes.drop found.index = place.classes ∧ place.classes ≠ []

/-- A search from the start comes to the first method in the order, if there is
one. -/
theorem findMethod_first
    (hlooks : LooksUp (lookupMethod run callEnv defEnv) methods (candidates generic classes) state
      after) :
    ∃ found searched, findMethod run (.start generic none classes) callEnv defEnv 0 true state =
        .ok (found, searched) after ∧ searched.classes = classes ∧
      match methodOrder methods generic classes with
      | [] => found = none
      | place :: _ => ∃ matched, found = some matched ∧ MethodMatch.At matched classes place := by
  rw [← groupCandidates_none] at hlooks
  have hends := runEnds_of_looksUp (Option.filter_none _) 0 true hlooks
  rw [List.drop_zero] at hends
  rw [methodOrder_eq]
  generalize hplace : classPlace? methods generic none classes = place? at hends
  cases hends with
  | found hclasses _ hdrop hrun =>
      refine ⟨_, _, findMethod_of_run hrun, hclasses, _, rfl, rfl, rfl, hdrop, ?_⟩
      cases along_of_classPlace? List.suffix_rfl hplace with
      | own => exact List.cons_ne_nil _ _
      | ofGroup => exact List.cons_ne_nil _ _
  | @passed middle finished hasked hnone hlast hgeneric hsame hrun =>
      have hdefault : methodName finished.generic "default" = methodName generic "default" := by
        rw [hgeneric]
      dsimp only [defaultPlace]
      cases hmethod : methods (methodName generic "default") with
      | some method =>
          have hok := hlast.eq_ok_of_some hmethod
          rw [← hdefault] at hok
          have hfinish := hrun.trans (bind_of_ok (attempt_of_ok hok))
          exact ⟨_, _, findMethod_of_run hfinish, hsame, _, rfl, hdefault, rfl, rfl⟩
      | none =>
          obtain ⟨last, hok, hdone⟩ := hlast.eq_ok_of_none hmethod
          cases hdone
          rw [← hdefault] at hok
          have hfinish := hrun.trans (bind_of_ok (attempt_of_ok hok))
          exact ⟨_, _, findMethod_of_run hfinish, hsame, rfl⟩

/-! ## Going on from a method -/

theorem resumeIndex_cons (cls : String) (rest : List String) :
    resumeIndex generic (methodName generic cls) (cls :: rest) = 1 := by
  simp [resumeIndex, List.findIdx?_cons]

/-- What is asked for after a method, and is not found, leaves the builtin. -/
theorem lastMethod_of_none {method : MethodInProgress}
    (hlooks : LooksUp (lookupMethod run method.callEnv method.defEnv) methods
      [methodName generic "default"] state after)
    (hcurrent : current ≠ methodName generic "default")
    (hnone : methods (methodName generic "default") = none) (symbol : Symbol) :
    lastMethod run generic symbol current method state =
      genericBuiltin run generic symbol method.env after := by
  obtain ⟨middle, hok, hdone⟩ := hlooks.eq_ok_of_none hnone
  cases hdone
  unfold lastMethod
  simp only [if_neg hcurrent]
  exact bind_of_ok hok

theorem lastMethod_of_some {method : MethodInProgress}
    {default : Ref} (hlooks : LooksUp
    (lookupMethod run method.callEnv method.defEnv) methods
    [methodName generic "default"] state after)
    (hcurrent : current ≠ methodName generic "default")
    (hsome : methods (methodName generic "default") = some default)
    (symbol : Symbol) :
    lastMethod run generic symbol current method state = .ok default after := by
  unfold lastMethod
  simp only [if_neg hcurrent]
  exact bind_of_ok (hlooks.eq_ok_of_some hsome)

theorem lastMethod_of_default {symbol : Symbol} {method : MethodInProgress} :
    lastMethod run generic symbol (methodName generic "default") method state =
      genericBuiltin run generic symbol method.env state := by
  unfold lastMethod
  simp only [if_pos]
  rfl

section Next

variable {symbol : Symbol} {method : MethodInProgress} {point : ResumePoint}

/-- The search for the next method, given the search over the classes that are
left. -/
theorem findNext_of_run (hstart : resumeIndex
      (if point.group = "" then generic else point.group) point.current point.classes = start)
    {found : Option MethodMatch} {searched : MethodSearch}
    (hrun : (MethodSearch.start generic (some point.group) point.classes).run
      (fun name => attempt (lookupMethod run method.callEnv method.defEnv name)) start false state =
        .ok (.ok found, searched) middle) (symbol : Symbol) :
    findNext run generic symbol method point state = (do
      match found with
      | some found => return (found.method, found.name, searched)
      | none =>
        let next ← lastMethod run generic symbol point.current method
        return (next, methodName generic "default", searched) : Eval _) middle := by
  unfold findNext
  rw [hstart]
  exact bind_of_ok (findMethod_of_run hrun)

/-- How the search for the next method ends, given what follows in the order: it
comes to the method that follows, or after the last one to the builtin. -/
inductive FindsNext (run : Runner) (methods : String → Option Ref) (generic : String)
    (symbol : Symbol) (method : MethodInProgress) (state : Interpreter)
    (result : EStateM.Result Stop Interpreter (Ref × String × MethodSearch)) :
    List MethodPlace → Prop
  | following {place : MethodPlace} {left : List MethodPlace} {searched : MethodSearch}
      {after : Interpreter} (hclasses : searched.classes.drop searched.index = place.classes)
      (hresult : result = .ok (place.method, place.name, searched) after) :
      FindsNext run methods generic symbol method state result (place :: left)
  | last {names : List String} {searched : MethodSearch} {asked : Interpreter}
      (hasked : LooksUp (lookupMethod run method.callEnv method.defEnv) methods names state asked)
      (hnames : ∀ name ∈ names, methods name = none)
      (hclasses : searched.classes.drop searched.index = [])
      (hresult : result = (do
        let next ← genericBuiltin run generic symbol method.env
        return (next, methodName generic "default", searched) : Eval _) asked) :
      FindsNext run methods generic symbol method state result []

/-- The search for the next method comes to what is next along the classes that
are left. -/
theorem findsNext_of_looksUp {group : Option String}
    (hgroup : (some point.group).filter (· ≠ "") = group)
    (hstart : resumeIndex (if point.group = "" then generic else point.group)
      point.current point.classes = start)
    (hrest : point.classes.drop start = rest) (hlooks : LooksUp
    (lookupMethod run method.callEnv method.defEnv) methods
    (groupCandidates generic group rest) state after) :
    FindsNext run methods generic symbol method state
      (findNext run generic symbol method point state)
      (nextPlaces methods generic group point.current rest) := by
  subst hrest
  have hends := runEnds_of_looksUp hgroup start false hlooks
  unfold nextPlaces
  generalize classPlace? methods generic group (point.classes.drop start) = place? at hends
  cases hends with
  | found hclasses hindex hplace hrun =>
      refine .following ?_ (findNext_of_run hstart hrun symbol)
      rw [hclasses, hindex, hplace]
  | @passed middle finished hasked hnone hlast hgeneric hclasses hrun =>
      -- No class that is left has a method, so the default comes next, or else
      -- the builtin.
      have hfind := findNext_of_run hstart hrun symbol
      have hall : finished.classes.drop finished.classes.length = [] := List.drop_length
      dsimp only
      by_cases hcurrent : point.current = methodName generic "default"
      · have hbuiltin : lastMethod run generic symbol point.current method middle =
            genericBuiltin run generic symbol method.env middle := by
          rw [hcurrent, lastMethod_of_default]
        rw [if_pos hcurrent]
        refine .last hasked hnone ?_ (hfind.trans (bind_of_eq hbuiltin))
        exact hall
      · rw [if_neg hcurrent, defaultPlace]
        cases hmethod : methods (methodName generic "default") with
        | some default =>
            have hdefault := lastMethod_of_some hlast hcurrent hmethod symbol
            refine .following ?_ (hfind.trans (bind_of_ok hdefault))
            exact hall
        | none =>
            have hbuiltin := lastMethod_of_none hlast hcurrent hmethod symbol
            refine .last (hasked.append hnone hlast) ?_ ?_ (hfind.trans (bind_of_eq hbuiltin))
            · exact List.forall_mem_append.mpr ⟨hnone, List.forall_mem_singleton.mpr hmethod⟩
            · exact hall

theorem FindsNext.of_nextPlaces
    {result : EStateM.Result Stop Interpreter (Ref × String × MethodSearch)}
    (hfinds : FindsNext run methods generic symbol method state result
      (nextPlaces methods generic none current rest))
    (hcurrent : current ≠ methodName generic "default") :
    FindsNext run methods generic symbol method state result
      (methodOrder methods generic rest) := by
  rw [methodOrder_eq]
  unfold nextPlaces at hfinds
  cases hplace : classPlace? methods generic none rest with
  | some place =>
      rw [hplace] at hfinds
      cases hfinds with
      | following hclasses hresult => exact .following hclasses hresult
  | none =>
      rw [hplace] at hfinds
      dsimp only at hfinds
      rw [if_neg hcurrent] at hfinds
      exact hfinds

/-- The search for the next method goes on in the order. -/
theorem findsNext_of_inOrder {place : MethodPlace} {left : List MethodPlace}
    (hplace : InOrder methods generic classes place left)
    (hdefault : "default" ∉ classes) (hgroup : point.group = "")
    (hclasses : point.classes = place.classes)
    (hcurrent : point.current = place.name) (hanswers : Answers
    (lookupMethod run method.callEnv method.defEnv) methods
    (candidates generic classes) state) :
    FindsNext run methods generic symbol method state
      (findNext run generic symbol method point state) left := by
  have hnone : (some point.group).filter (· ≠ "") = none := by
    rw [hgroup]
    rfl
  cases hplace with
  | @cls cls rest found hsuffix hmethod =>
      obtain ⟨after, hlooks⟩ :=
        hanswers _ (candidates_suffix ((List.suffix_cons _ _).trans hsuffix))
      rw [← groupCandidates_none] at hlooks
      have hstart : resumeIndex (if point.group = "" then generic else point.group) point.current
          point.classes = 1 := by
        rw [if_pos hgroup, hclasses, hcurrent, resumeIndex_cons]
      have hrest : point.classes.drop 1 = rest := by
        rw [hclasses]
        rfl
      have hcls : cls ≠ "default" := fun heq => hdefault (heq ▸ hsuffix.mem List.mem_cons_self)
      have hother : point.current ≠ methodName generic "default" := by
        rw [hcurrent]
        exact mt methodName_inj.mp hcls
      exact (findsNext_of_looksUp hnone hstart hrest hlooks).of_nextPlaces hother
  | default =>
      obtain ⟨after, hlooks⟩ := hanswers _ (candidates_suffix List.nil_suffix)
      rw [← groupCandidates_none] at hlooks
      have hrest : point.classes.drop 0 = [] := hclasses
      have hstart : resumeIndex (if point.group = "" then generic else point.group) point.current
          point.classes = 0 := by
        rw [hclasses]
        rfl
      have hlast : nextPlaces methods generic none point.current [] = [] := if_pos hcurrent
      rw [← hlast]
      exact findsNext_of_looksUp hnone hstart hrest hlooks

end Next

end Searching

end Eval

end LazyDispatch
