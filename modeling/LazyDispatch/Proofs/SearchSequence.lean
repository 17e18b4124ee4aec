import LazyDispatch.MethodSearch
import Mathlib.Data.List.Basic

/-!
# The first of the candidates

A search asks for names one after the other: for each class, from the one that
it starts at, the method of the generic and then the one of the group, and at
the end the default.  The first name that resolves to a function ends the
search, and so does the first lookup that fails; what a lookup does to the state
is seen by those that follow.

The names come in the order of their classes.  So a search that goes on after
the class of a method only comes to later classes, and going on again and again
comes to each class at most once.
-/

namespace LazyDispatch.MethodSearch

/-! ## The candidates -/

/-- A name that a search asks for, and as what a function of this name is found. -/
structure Candidate where
  name : String
  /-- The place of the class; the number of classes for the default. -/
  index : Nat
  ofGroup : Bool
  isDefault : Bool

/-- A function that has the name of a candidate, as a search finds it. -/
def Candidate.found (candidate : Candidate) (method : Ref) : MethodMatch :=
  ⟨candidate.index, candidate.name, method, candidate.ofGroup, candidate.isDefault⟩

section Sequence

variable (generic : String) (group : Option String)

/-- The candidates for the class at a place. -/
def classCandidates (cls : String) (index : Nat) : List Candidate :=
  ⟨methodName generic cls, index, false, false⟩ ::
    (group.map fun group => ⟨methodName group cls, index, true, false⟩).toList

/-- The candidate after the last class. -/
def defaultCandidates (count : Nat) (allowDefault : Bool) : List Candidate :=
  if allowDefault then [⟨methodName generic "default", count, false, true⟩] else []

/-- The candidates of a search from the class at place `start` on, in order. -/
def sequence (classes : List String) (start : Nat) (allowDefault : Bool) :
    List Candidate :=
  ((classes.drop start).zipIdx start).flatMap (fun item =>
    classCandidates generic group item.1 item.2) ++
    defaultCandidates generic classes.length allowDefault

variable {generic group} {classes : List String} {start : Nat} {allowDefault : Bool}
  {candidate : Candidate}

theorem mem_classCandidates {cls : String} {index : Nat}
    (hmem : candidate ∈ classCandidates generic group cls index) :
    candidate.index = index ∧ candidate.isDefault = false := by
  rcases List.mem_cons.mp hmem with rfl | hgroup
  · exact ⟨rfl, rfl⟩
  · obtain ⟨name, -, rfl⟩ := Option.map_eq_some_iff.mp (Option.mem_toList.mp hgroup)
    exact ⟨rfl, rfl⟩

/-- A candidate is for a class from the first on, or it is the default. -/
theorem mem_sequence (hmem : candidate ∈ sequence generic group classes start allowDefault) :
    (candidate.isDefault = false → start ≤ candidate.index ∧ candidate.index < classes.length) ∧
      (candidate.isDefault = true → candidate.index = classes.length) := by
  rcases List.mem_append.mp hmem with hcls | hdefault
  · obtain ⟨⟨cls, index⟩, hitem, hcandidate⟩ := List.mem_flatMap.mp hcls
    obtain ⟨hindex, hfalse⟩ := mem_classCandidates hcandidate
    obtain ⟨offset, hoffset⟩ := List.mem_iff_getElem?.mp hitem
    rw [List.getElem?_zipIdx, List.getElem?_drop] at hoffset
    obtain ⟨found, hfound, heq⟩ := Option.map_eq_some_iff.mp hoffset
    have hlt := (List.getElem?_eq_some_iff.mp hfound).1
    have hplace : start + offset = index := congrArg Prod.snd heq
    refine ⟨fun _ => ?_, fun htrue => ?_⟩
    · rw [hindex]
      omega
    · rw [hfalse] at htrue
      cases htrue
  · unfold defaultCandidates at hdefault
    split at hdefault
    · cases List.mem_singleton.mp hdefault
      exact ⟨nofun, fun _ => rfl⟩
    · cases hdefault

end Sequence

/-! ## Asking one after the other -/

variable {ε : Type}

/-- What a search answers that finds a function for a candidate. -/
def Candidate.selects (candidate : Candidate) (search : MethodSearch)
    (method : Ref) : Result ε :=
  (.ok (some (candidate.found method)), { search with
    index := candidate.index, found := some (candidate.found method), state := .awaitingMethod })

/-- What a search answers that fails at a candidate. -/
def Candidate.fails (candidate : Candidate) (search : MethodSearch) (err : ε) :
    Result ε :=
  (.error err, { search with index := candidate.index, found := none, state := .awaitingMethod })

/-- What a search answers that finds nothing. -/
def findsNothing (search : MethodSearch) : Result ε :=
  (.ok none, { search with index := search.classes.length, found := none, state := .noMethod })

/-- A search that has come to a place. -/
def underWay (search : MethodSearch) (index : Nat) : MethodSearch :=
  { search with index, found := none, state := .awaitingMethod }

section Scan

variable {m : Type → Type} [Monad m] (lookup : String → m (Except ε (Option Ref)))

/-- Asks for candidates until there is a function for one or a lookup fails. -/
def firstMatch (search : MethodSearch) : List Candidate → m (Result ε)
  | [] => return search.findsNothing
  | candidate :: rest => do
    match ← lookup candidate.name with
    | .error err => return candidate.fails search err
    | .ok (some method) => return candidate.selects search method
    | .ok none => firstMatch search rest

variable (search : MethodSearch)

/-- The last question is for the default. -/
theorem finish_eq (allowDefault : Bool) (former : Nat) :
    (search.underWay former).finish lookup allowDefault = firstMatch lookup search
      (defaultCandidates search.generic search.classes.length allowDefault) := by
  cases allowDefault with
  | false => rfl
  | true =>
      refine bind_congr fun answer => ?_
      rcases answer with err | _ | method <;> rfl

/-- The classes that remain are gone through in order. -/
theorem scan_eq (allowDefault : Bool) (former index : Nat) (rest : List String) :
    (search.underWay former).scan lookup allowDefault index rest = firstMatch lookup search
      ((rest.zipIdx index).flatMap (fun item =>
        classCandidates search.generic search.group item.1 item.2) ++
        defaultCandidates search.generic search.classes.length allowDefault) := by
  induction rest generalizing former index with
  | nil => exact finish_eq lookup search allowDefault former
  | cons cls rest ih =>
      obtain ⟨generic, group, classes, before, found, progress⟩ := search
      rw [List.zipIdx_cons, List.flatMap_cons, List.append_assoc]
      refine bind_congr fun answer => ?_
      rcases answer with err | _ | method
      · rfl
      · cases group with
        | none => exact ih index (index + 1)
        | some group =>
            refine bind_congr fun answer => ?_
            rcases answer with err | _ | method
            · rfl
            · exact ih index (index + 1)
            · rfl
      · rfl

/-- A search asks for its candidates in order, whatever a lookup is. -/
theorem run_eq_firstMatch (begin : Nat) (allowDefault : Bool) :
    search.run lookup begin allowDefault = firstMatch lookup search
      (sequence search.generic search.group search.classes begin allowDefault) :=
  scan_eq lookup search allowDefault search.index begin (search.classes.drop begin)

end Scan

/-! ## Lookups with a state -/

variable {σ : Type}

/-- A lookup that also records the names that it is asked for. -/
def recording (lookup : String → StateM σ (Except ε (Option Ref))) :
    String → StateM (List String × σ) (Except ε (Option Ref)) :=
  fun name record => ((lookup name record.2).1, (record.1 ++ [name], (lookup name record.2).2))

/-- Names are asked for one after the other, and there is no function for any of
them. -/
inductive Passes (lookup : String → StateM σ (Except ε (Option Ref))) : List String → σ → σ → Prop
  | nil (state : σ) : Passes lookup [] state state
  | cons {name : String} {rest : List String} {state middle after : σ}
      (hnone : lookup name state = (.ok none, middle)) (hrest : Passes lookup rest middle after) :
      Passes lookup (name :: rest) state after

/-- How a search for the first of some candidates ends: with which result, after
which names, and in which state. -/
inductive FirstMatch (lookup : String → StateM σ (Except ε (Option Ref))) (search : MethodSearch)
    (candidates : List Candidate) (state : σ) : Result ε → List String → σ → Prop
  /-- All candidates are asked for, and there is no function for any of them. -/
  | nothing {after : σ} (hpasses : Passes lookup (candidates.map (·.name)) state after) :
      FirstMatch lookup search candidates state search.findsNothing (candidates.map (·.name)) after
  /-- There is a function for a candidate, and none for those before it. -/
  | found {passed rest : List Candidate} {hit : Candidate} {method : Ref} {middle after : σ}
      (hcandidates : candidates = passed ++ hit :: rest)
      (hpasses : Passes lookup (passed.map (·.name)) state middle)
      (hfound : lookup hit.name middle = (.ok (some method), after)) :
      FirstMatch lookup search candidates state (hit.selects search method)
        ((passed ++ [hit]).map (·.name)) after
  /-- The lookup of a candidate fails, and there is no function for those before
  it. -/
  | failed {passed rest : List Candidate} {hit : Candidate} {err : ε} {middle after : σ}
      (hcandidates : candidates = passed ++ hit :: rest)
      (hpasses : Passes lookup (passed.map (·.name)) state middle)
      (hfailed : lookup hit.name middle = (.error err, after)) :
      FirstMatch lookup search candidates state (hit.fails search err)
        ((passed ++ [hit]).map (·.name)) after

section Search

variable {lookup : String → StateM σ (Except ε (Option Ref))} {search : MethodSearch}
  {candidates : List Candidate} {candidate : Candidate} {state middle after : σ} {result : Result ε}
  {asked : List String}

/-- A candidate without a function is passed. -/
theorem FirstMatch.cons (hnone : lookup candidate.name state = (.ok none, middle))
    (hmatch : FirstMatch lookup search candidates middle result asked after) :
    FirstMatch lookup search (candidate :: candidates) state result (candidate.name :: asked)
      after := by
  cases hmatch with
  | nothing hpasses => exact .nothing (.cons hnone hpasses)
  | @found passed rest hit method last _ hcandidates hpasses hfound =>
      subst hcandidates
      exact @FirstMatch.found _ _ lookup search _ state (candidate :: passed) rest hit method last
        after rfl (.cons hnone hpasses) hfound
  | @failed passed rest hit err last _ hcandidates hpasses hfailed =>
      subst hcandidates
      exact @FirstMatch.failed _ _ lookup search _ state (candidate :: passed) rest hit err last
        after rfl (.cons hnone hpasses) hfailed

/-- The first match, and the names that are recorded on the way to it. -/
theorem exists_firstMatch (candidates : List Candidate) (state : σ) :
    ∃ result asked after, FirstMatch lookup search candidates state result asked after ∧
      firstMatch lookup search candidates state = (result, after) ∧
      ∀ record, firstMatch (recording lookup) search candidates (record, state) =
        (result, record ++ asked, after) := by
  induction candidates generalizing state with
  | nil =>
      refine ⟨_, _, _, .nothing (.nil state), rfl, fun record => ?_⟩
      rw [List.map_nil, List.append_nil]
      rfl
  | cons candidate rest ih =>
      obtain ⟨answer, middle, hanswer⟩ : ∃ answer middle, lookup candidate.name state =
        (answer, middle) := ⟨_, _, rfl⟩
      have hrecorded : ∀ record, recording lookup candidate.name (record, state) =
          (answer, record ++ [candidate.name], middle) := by
        intro record
        rw [recording, hanswer]
      simp only [firstMatch, bind, StateT.bind, hanswer, hrecorded]
      cases answer with
      | error err =>
          exact ⟨_, _, _, .failed (List.nil_append _).symm (.nil state) hanswer, rfl, fun _ => rfl⟩
      | ok answer =>
          cases answer with
          | some method =>
              exact ⟨_, _, _,
                .found (List.nil_append _).symm (.nil state) hanswer, rfl,
                fun _ => rfl⟩
          | none =>
              obtain ⟨result, asked, after, hmatch, hplain, hall⟩ := ih middle
              refine ⟨result, candidate.name :: asked, after, hmatch.cons hanswer, hplain,
                fun record => ?_⟩
              exact (hall _).trans (by rw [List.append_assoc, List.singleton_append])

/-! ## Answers of a search -/

/-- After names without a function, the others are asked for. -/
theorem Passes.of_append {first rest : List String} (hfirst : Passes lookup first state middle)
    (hall : Passes lookup (first ++ rest) state after) : Passes lookup rest middle after := by
  induction hfirst with
  | nil => exact hall
  | cons hnone _ ih =>
      cases hall with
      | cons hother hrest =>
          cases hnone.symm.trans hother
          exact ih hrest

/-- A candidate whose lookup is not without result is not passed. -/
theorem not_passes {passed rest : List Candidate} {hit : Candidate}
    {answer : Except ε (Option Ref)} (hpasses : Passes lookup (passed.map (·.name)) state middle)
    (hanswer : lookup hit.name middle = (answer, after)) (hne : answer ≠ .ok none) (last : σ) :
    ¬ Passes lookup ((passed ++ hit :: rest).map (·.name)) state last := by
  intro hall
  rw [List.map_append] at hall
  cases hpasses.of_append hall with
  | cons hnone => exact hne (congrArg Prod.fst (hanswer.symm.trans hnone))

/-- A search finds nothing exactly if there is no function for any candidate. -/
theorem FirstMatch.nothing_iff
    (hmatch : FirstMatch lookup search candidates state result asked after) :
    result.1 = .ok none ∧ result.2.state = .noMethod ↔
      ∃ last, Passes lookup (candidates.map (·.name)) state last := by
  cases hmatch with
  | nothing hpasses => exact ⟨fun _ => ⟨after, hpasses⟩, fun _ => ⟨rfl, rfl⟩⟩
  | found hcandidates hpasses hfound =>
      refine ⟨fun hnothing => (nomatch hnothing.1), fun hall => ?_⟩
      obtain ⟨last, hlast⟩ := hall
      exact absurd (hcandidates ▸ hlast) (not_passes hpasses hfound nofun last)
  | failed hcandidates hpasses hfailed =>
      refine ⟨fun hnothing => (nomatch hnothing.1), fun hall => ?_⟩
      obtain ⟨last, hlast⟩ := hall
      exact absurd (hcandidates ▸ hlast) (not_passes hpasses hfailed nofun last)

/-- What a search finds is one of its candidates. -/
theorem FirstMatch.exists_candidate
    (hmatch : FirstMatch lookup search candidates state result asked after)
    {found : MethodMatch} (hfound : result.1 = .ok (some found)) :
    ∃ candidate ∈ candidates, found.index = candidate.index ∧
      found.isDefault = candidate.isDefault := by
  cases hmatch with
  | nothing => cases hfound
  | failed => cases hfound
  | @found passed rest hit method _ _ hcandidates =>
      cases hfound
      exact ⟨hit, by simp [hcandidates], rfl, rfl⟩

end Search

/-! ## Going on after a method -/

section Resume

variable (generic : String) (group : Option String) (classes : List String)

/-- A search with whatever an earlier run has left in it. -/
def reused (index : Nat) (found : Option MethodMatch) (progress : DispatchState)
    : MethodSearch :=
  { start generic group classes with index, found, state := progress }

/-- Some search from the class at place `begin` on finds a method. -/
def Finds (begin : Nat) (found : MethodMatch) : Prop :=
  ∃ (σ ε : Type) (lookup : String → StateM σ (Except ε (Option Ref))) (allowDefault : Bool)
    (index : Nat) (former : Option MethodMatch) (progress : DispatchState) (search : MethodSearch)
    (state after : σ),
    (reused generic group classes index former progress).run lookup begin allowDefault state =
      ((.ok (some found), search), after)

/-- Methods that are found one after the other, each search going on after the
class of the method before it. -/
inductive Enumerates : Nat → List MethodMatch → Prop
  | stop (begin : Nat) : Enumerates begin []
  | default {begin : Nat} {found : MethodMatch}
      (hfinds : Finds generic group classes begin found) (hdefault : found.isDefault = true) :
      Enumerates begin [found]
  | next {begin : Nat} {found : MethodMatch} {rest : List MethodMatch}
      (hfinds : Finds generic group classes begin found) (hdefault : found.isDefault = false)
      (hrest : Enumerates (found.index + 1) rest) : Enumerates begin (found :: rest)

variable {generic group classes} {begin : Nat} {found : MethodMatch}

theorem Finds.index_cases (hfinds : Finds generic group classes begin found) :
    (found.isDefault = false → begin ≤ found.index ∧ found.index < classes.length) ∧
      (found.isDefault = true → found.index = classes.length) := by
  obtain ⟨σ, ε, lookup, allowDefault, index, former, progress, search, state, after, hrun⟩ := hfinds
  rw [run_eq_firstMatch] at hrun
  obtain ⟨result, asked, last, hmatch, hplain, -⟩ := @exists_firstMatch ε σ lookup
    (reused generic group classes index former progress) (sequence ..) state
  cases hplain.symm.trans hrun
  obtain ⟨candidate, hmem, hindex, hdefault⟩ := hmatch.exists_candidate rfl
  rw [hindex, hdefault]
  exact mem_sequence hmem

theorem Enumerates.index_cases {hits : List MethodMatch}
    (hhits : Enumerates generic group classes begin hits) :
    ∀ hit ∈ hits, (hit.isDefault = false → begin ≤ hit.index ∧ hit.index < classes.length) ∧
      (hit.isDefault = true → hit.index = classes.length) := by
  induction hhits with
  | stop => exact nofun
  | default hfinds => exact List.forall_mem_singleton.mpr hfinds.index_cases
  | @next begin found rest hfinds hdefault hrest ih =>
      refine List.forall_mem_cons.mpr ⟨hfinds.index_cases, fun hit hhit =>
        ⟨fun hcls => ?_, (ih hit hhit).2⟩⟩
      have hfirst := (hfinds.index_cases.1 hdefault).1
      have hlater := (ih hit hhit).1 hcls
      omega

/-- Each search comes to a later place. -/
theorem Enumerates.pairwise {hits : List MethodMatch}
    (hhits : Enumerates generic group classes begin hits) :
    (hits.map (·.index)).Pairwise (· < ·) := by
  induction hhits with
  | stop => exact .nil
  | default => exact List.pairwise_singleton _ _
  | @next begin found rest hfinds hdefault hrest ih =>
      refine List.pairwise_cons.mpr ⟨fun index hindex => ?_, ih⟩
      obtain ⟨hit, hhit, rfl⟩ := List.mem_map.mp hindex
      have hbound := (hfinds.index_cases.1 hdefault).2
      have hlater := hrest.index_cases hit hhit
      cases hcls : hit.isDefault with
      | false => exact (hlater.1 hcls).1
      | true => rwa [hlater.2 hcls]

/-- A search right after the class of a method finds what comes later. -/
theorem Finds.lt {later : MethodMatch} (hfinds : Finds generic group classes begin found)
    (hdefault : found.isDefault = false)
    (hlater : Finds generic group classes (found.index + 1) later) : found.index < later.index := by
  have hrest : Enumerates generic group classes (found.index + 1) [later] := by
    cases hcls : later.isDefault with
    | false => exact .next hlater hcls (.stop _)
    | true => exact .default hlater hcls
  exact List.rel_of_pairwise_cons (Enumerates.next hfinds hdefault hrest).pairwise
    (List.mem_singleton_self _)

end Resume

/-- **A search finds the first of its candidates.**  The candidates are the
methods of the generic and of the group, for one class after the other from
`begin` on, and then the default, if it is allowed; an empty group is none.
Whatever a lookup is, and whatever the search was used for before, it asks for
the candidates in this order.  For lookups that have a state and may fail this
says: it asks for exactly the candidates up to the first for which there is a
function or an error, and answers with that.  If there is none, then it answers
that there is no method, and only then.

A search that starts right after the class of a method finds a method at a later
place, and so the searches that go on in this way come to each class at most
once. -/
theorem search_finds_first_candidate (generic : String) (group : Option String)
    (classes : List String) (begin : Nat) :
    (∀ (allowDefault : Bool) (index : Nat) (former : Option MethodMatch) (progress : DispatchState),
      (∀ (m : Type → Type) [Monad m] (ε : Type) (lookup : String → m (Except ε (Option Ref))),
        (reused generic group classes index former progress).run lookup begin allowDefault =
          firstMatch lookup (reused generic group classes index former progress)
            (sequence generic (group.filter (· ≠ "")) classes begin allowDefault)) ∧
      ∀ (σ ε : Type) (lookup : String → StateM σ (Except ε (Option Ref))) (state : σ),
        ∃ result asked after,
          FirstMatch lookup (reused generic group classes index former progress)
            (sequence generic (group.filter (· ≠ "")) classes begin allowDefault) state result asked
            after ∧
          (reused generic group classes index former progress).run lookup begin allowDefault state =
            (result, after) ∧
          (reused generic group classes index former progress).run (recording lookup) begin
            allowDefault ([], state) = (result, asked, after) ∧
          (result.1 = .ok none ∧ result.2.state = .noMethod ↔ ∃ last, Passes lookup
            ((sequence generic (group.filter (· ≠ "")) classes begin
              allowDefault).map (·.name)) state
            last)) ∧
    (∀ found later, Finds generic group classes begin found → found.isDefault = false →
      Finds generic group classes (found.index + 1) later → found.index < later.index) ∧
    ∀ hits, Enumerates generic group classes begin hits → (hits.map (·.index)).Pairwise (· < ·) ∧
      ∀ hit ∈ hits, hit.isDefault = false → begin ≤ hit.index ∧ hit.index < classes.length := by
  refine ⟨fun allowDefault index former progress => ⟨fun m _ ε lookup => ?_,
      fun σ ε lookup state => ?_⟩,
    fun found later hfinds hdefault hlater => hfinds.lt hdefault hlater,
    fun hits hhits => ⟨hhits.pairwise, fun hit hhit => (hhits.index_cases hit hhit).1⟩⟩
  · exact run_eq_firstMatch lookup _ begin allowDefault
  · obtain ⟨result, asked, after, hmatch, hplain, hrecorded⟩ := @exists_firstMatch ε σ lookup
      (reused generic group classes index former progress)
      (sequence generic (group.filter (· ≠ "")) classes begin allowDefault) state
    refine ⟨result, asked, after, hmatch, ?_, ?_, hmatch.nothing_iff⟩
    · rw [run_eq_firstMatch]
      exact hplain
    · rw [run_eq_firstMatch]
      exact hrecorded []

/-- A table with a method of a group for the class `b` and one of a generic for
`c`, which counts how often it is asked. -/
def countedLookup (name : String) : StateM Nat (Except Unit (Option Ref)) := fun count =>
  (.ok (if name = "Ops.b" then some (.ofParts 0 0 0) else if name = "+.c" then some (.ofParts 0 1 0)
    else none), count + 1)

/-- The first search passes the class `a` and finds the method of the group, the
second one starts at `c`. -/
theorem search_finds_first_candidate_countedLookup :
    ((start "+" (some "Ops") ["a", "b", "c"]).run (recording countedLookup) 0 true ([], 0)).2 =
      (["+.a", "Ops.a", "+.b", "Ops.b"], 4) ∧
    Finds "+" (some "Ops") ["a", "b", "c"] 0 ⟨1, "Ops.b", .ofParts 0 0 0, true, false⟩ ∧
    Finds "+" (some "Ops") ["a", "b", "c"] 2 ⟨2, "+.c", .ofParts 0 1 0, false, false⟩ ∧ 1 < 2 := by
  have hfirst : Finds "+" (some "Ops") ["a", "b", "c"] 0
      ⟨1, "Ops.b", .ofParts 0 0 0, true, false⟩ :=
    ⟨Nat, Unit, countedLookup, true, 0, none, .notDispatching, _, 0, 4, rfl⟩
  have hsecond : Finds "+" (some "Ops") ["a", "b", "c"] 2
      ⟨2, "+.c", .ofParts 0 1 0, false, false⟩ :=
    ⟨Nat, Unit, countedLookup, true, 0, none, .notDispatching, _, 0, 1, rfl⟩
  exact ⟨by decide, hfirst, hsecond,
    (search_finds_first_candidate "+" (some "Ops") ["a", "b", "c"] 0).2.1 _ _ hfirst rfl hsecond⟩

end LazyDispatch.MethodSearch
