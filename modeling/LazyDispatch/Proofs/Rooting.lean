import LazyDispatch.Proofs.Balance
import LazyDispatch.Proofs.Resolution

/-!
# Rooting

A reference may go stale with any collection unless the roots reach its object.
Let a host hand live references to a heap, and no others: as roots, in the
objects that it stores and in those that it changes.  Then no object ever holds
a stale reference, and no collection comes upon one, whether the host asks for
the collection or an allocation runs it, and however a call ends
(`live_calls_trace_nothing_stale`).

Evaluation is not always such a host (`replaced_arguments_go_stale`).
-/

namespace LazyDispatch

namespace Heap

variable {heap after : Heap} {ref : Ref} {object : HeapObject} {roots : List Ref}

/-- No object holds a stale reference, and no collection has come upon one. -/
structure Intact (heap : Heap) : Prop where
  coherent : heap.Coherent
  closed : heap.Closed
  unnoted : heap.stats.staleTraced = false

/-- A change of an object leaves what resolves. -/
theorem Resolves.update (hresolves : heap.Resolves ref) (other : Ref)
    (change : HeapObject → HeapObject) :
    (heap.update other change).Resolves ref := by
  obtain ⟨object, hget⟩ := hresolves
  exact ⟨_, get?_update hget other change⟩

/-- Where nothing stale is among the roots or in an object, a tracer comes upon
nothing stale. -/
theorem Closed.not_comesUponStale (hclosed : heap.Closed)
    (hroots : ∀ ref ∈ roots, heap.Resolves ref) :
    ¬heap.ComesUponStale roots := by
  intro hstale
  obtain ⟨ref, hupon, hnone⟩ := hstale
  have hresolves : heap.Resolves ref := by
    cases hupon with
    | root hroot => exact hroots ref hroot
    | edge _ hcontent hedge => exact hclosed _ _ _ hcontent ref hedge
  obtain ⟨object, hget⟩ := hresolves
  rw [get?, hnone] at hget
  cases hget

/-- A change of an object leaves no stale reference behind if the new object
holds none. -/
theorem Closed.update (hclosed : heap.Closed) {change : HeapObject → HeapObject}
    (hedges : ∀ object, heap.get? ref = some object →
      ∀ edge ∈ (change object).edges, heap.Resolves edge) :
    (heap.update ref change).Closed := by
  have hsame : ∀ {edge : Ref}, heap.Resolves edge →
      (heap.update ref change).Resolves edge :=
    fun hresolves => hresolves.update ref change
  intro address generation found hlive edge hedge
  rw [content?_update] at hlive
  split at hlive
  · next haddress =>
      obtain ⟨⟨current, held⟩, hcontent, hchanged⟩ :=
        Option.map_eq_some_iff.mp hlive
      split at hchanged
      · next hgeneration =>
          obtain ⟨rfl, hheld⟩ := Prod.mk.inj hchanged
          obtain ⟨object, rfl, rfl⟩ := Option.map_eq_some_iff.mp hheld
          have hget : heap.get? ref = some object := by
            rw [get?_eq_some_iff, ← haddress, hcontent]
            exact congrArg (fun current => some (current, some object)) hgeneration
          exact hsame (hedges object hget edge hedge)
      · cases hchanged
        exact hsame (hclosed address generation found hcontent edge hedge)
  · exact hsame (hclosed address generation found hlive edge hedge)

namespace Intact

variable (hintact : heap.Intact)

include hintact

/-- A collection from live roots keeps a heap intact. -/
theorem collect (hroots : ∀ ref ∈ roots, heap.Resolves ref) :
    (heap.collect roots).2.Intact := by
  refine ⟨hintact.coherent.collect _, hintact.closed.collect hintact.coherent _, ?_⟩
  rw [Bool.eq_false_iff, ne_eq, staleTraced_collect hintact.coherent, not_or,
    hintact.unnoted]
  exact ⟨Bool.false_ne_true, hintact.closed.not_comesUponStale hroots⟩

/-- So does what precedes an allocation. -/
theorem prepared (sizeClass : Nat)
    (hlive : ∀ ref ∈ roots ++ object.edges, heap.Resolves ref) :
    (heap.prepared sizeClass object roots).Intact :=
  prepared_induction hintact (hintact.collect hlive)

/-- An allocation keeps a heap intact, also when it fails after its collection. -/
theorem allocateIn (sizeClass : Nat)
    (hlive : ∀ ref ∈ roots ++ object.edges, heap.Resolves ref) :
    (∀ ref after, heap.allocateIn sizeClass object roots = .ok ref after →
      after.Intact) ∧
    ∀ fault after, heap.allocateIn sizeClass object roots = .error fault after →
      after.Intact := by
  have hprepared := hintact.prepared sizeClass hlive
  rcases allocateIn_cases hintact.coherent sizeClass object roots with
    ⟨-, heq⟩ | ⟨_, _, -, -, -, heq⟩ | ⟨room, ref, after, -, hroom, hplaced, heq⟩
  · rw [heq]
    refine ⟨nofun, fun fault after herror => ?_⟩
    cases herror
    exact hintact
  · rw [heq]
    refine ⟨nofun, fun fault after herror => ?_⟩
    cases herror
    exact hprepared
  · rw [heq]
    refine ⟨fun other later hok => ?_, nofun⟩
    cases hok
    have hedges : ∀ edge ∈ object.edges, room.Resolves edge := by
      intro edge hedge
      have hmem := List.mem_append_right roots hedge
      obtain ⟨target, hget⟩ := hlive edge hmem
      refine ⟨target, hroom.get?_of_get? ?_⟩
      rw [get?_eq_some_iff,
        content?_prepared_of_reachable hintact.coherent (.root hmem hget)]
      exact get?_eq_some_iff.mp hget
    refine ⟨hplaced.coherent, hplaced.closed (hroom.closed hprepared.closed) hedges, ?_⟩
    rw [hplaced.stats_eq, hroom.settings_stats.2]
    exact hprepared.unnoted

end Intact

end Heap

/-! ## Live calls -/

open Heap

/-- All references that a call hands to a heap are live. -/
def HeapCall.Live (heap : Heap) : HeapCall → Prop
  | allocate object roots | allocateIn _ object roots =>
    ∀ ref ∈ roots ++ object.edges, heap.Resolves ref
  | collect roots => ∀ ref ∈ roots, heap.Resolves ref
  | update ref change => ∀ object, heap.get? ref = some object →
    ∀ edge ∈ (change object).edges, heap.Resolves edge
  | releaseAll => True

/-- Each call of a run is live where it is made. -/
def Heap.RunsLive (heap : Heap) : List HeapCall → Prop
  | [] => True
  | call :: calls => call.Live heap ∧
    ∀ ref? after, call.perform heap = .ok ref? after → after.RunsLive calls

/-- A live call keeps a heap intact, however it ends. -/
theorem HeapCall.perform_intact {call : HeapCall} {heap : Heap}
    (hintact : heap.Intact) (hlive : call.Live heap) :
    (∀ ref? after, call.perform heap = .ok ref? after → after.Intact) ∧
    ∀ fault after, call.perform heap = .error fault after → after.Intact := by
  have hallocate : ∀ {sizeClass object roots},
      (∀ ref ∈ roots ++ object.edges, heap.Resolves ref) →
      (∀ ref? after, Outcome.map some (heap.allocateIn sizeClass object roots) =
        .ok ref? after → after.Intact) ∧
      ∀ fault after, Outcome.map some (heap.allocateIn sizeClass object roots) =
        .error fault after → after.Intact := by
    intro sizeClass object roots hlive
    obtain ⟨hok, herror⟩ := hintact.allocateIn sizeClass hlive
    refine ⟨fun ref? after hmap => ?_, fun fault after hmap => ?_⟩
    · obtain ⟨ref, hallocated, -⟩ := Outcome.map_eq_ok hmap
      exact hok ref after hallocated
    · exact herror fault after (Outcome.map_eq_error hmap)
  cases call with
  | allocate object roots => exact hallocate hlive
  | allocateIn sizeClass object roots => exact hallocate hlive
  | collect roots =>
      refine ⟨fun ref? after hok => ?_, nofun⟩
      cases hok
      exact hintact.collect hlive
  | update ref change =>
      refine ⟨fun ref? after hok => ?_, nofun⟩
      cases hok
      exact ⟨hintact.coherent.update ref change, hintact.closed.update hlive,
        hintact.unnoted⟩
  | releaseAll =>
      refine ⟨fun ref? after hok => ?_, nofun⟩
      cases hok
      refine ⟨hintact.coherent.releaseAll, fun address generation object hcontent => ?_,
        hintact.unnoted⟩
      cases (content?_releaseAll heap address).symm.trans hcontent

/-- **Live calls trace nothing stale.**  On a new heap, let every call hand over
references only that resolve when it is made.  However the run ends, no object
holds a stale reference, and no collection of the run has come upon one. -/
theorem live_calls_trace_nothing_stale {settings : HeapSettings} {start : Heap}
    (hcreate : create settings = .ok start) {calls : List HeapCall}
    (hlive : start.RunsLive calls) :
    (∀ refs final, start.run calls = .ok refs final → final.Intact) ∧
    ∀ fault final, start.run calls = .error fault final → final.Intact := by
  have hintact : start.Intact := by
    obtain ⟨made, heq, hheap, hstats, hempty, -⟩ :=
      exists_create (validate_of_create hcreate)
    cases heq.symm.trans hcreate
    refine ⟨hheap, fun address generation object hcontent => ?_, ?_⟩
    · cases (hempty address).symm.trans hcontent
    · rw [hstats]
  clear hcreate
  induction calls generalizing start with
  | nil =>
      refine ⟨fun refs final hrun => ?_, nofun⟩
      cases hrun
      exact hintact
  | cons call calls ih =>
      obtain ⟨hcall, hrest⟩ := hlive
      obtain ⟨hok, herror⟩ := HeapCall.perform_intact hintact hcall
      refine ⟨fun refs final hrun => ?_, fun fault final hrun => ?_⟩
      · obtain ⟨ref?, after, others, hperform, hlater, -⟩ := run_cons_eq_ok hrun
        exact (ih (hrest ref? after hperform) (hok ref? after hperform)).1 others final hlater
      · rw [run] at hrun
        cases hperform : call.perform start with
        | error found after =>
            rw [hperform] at hrun
            cases hrun
            exact herror _ _ hperform
        | ok ref? after =>
            rw [hperform] at hrun
            exact (ih (hrest ref? after hperform) (hok ref? after hperform)).2 fault final
              (Outcome.map_eq_error hrun)

/-! ## Evaluation hands over a stale reference

The arguments that `...` stands for are forced one after the other, and only the
binding of `...` holds those that are left.  An argument may replace it. -/

open Eval

/-- A function leaves a function behind that lists its arguments.  The first
argument, once it is forced, replaces the binding that holds the second, and
collects. -/
def replacingTerm : Term :=
  .block [
    .assign .here "f" (.function [("...", none)] (.block [
      .assign .enclosing "h" (.function [] (.block [
        .assign .enclosing "..." (.literal .null),
        .call (.symbol "gc") [],
        .literal .null])),
      .function [] (.call (.symbol "list") [(none, .symbol "...")])])),
    .assign .here "k" (.call (.symbol "f") [(none, .call (.symbol "h") []),
      (none, .call (.symbol "+") [(none, .literal (.integer 1)), (none, .literal (.integer 1))])]),
    .call (.symbol "k") []]

/-- Whether something stopped at a stale reference. -/
def isStale {α : Type} : EStateM.Result Stop Interpreter α → Bool
  | .error (.fault (.staleReference _)) _ => true
  | _ => false

set_option maxRecDepth 1000000 in
/-- **Arguments may go stale** while those before them are forced. -/
theorem replaced_arguments_go_stale : ∃ start expr before ref after,
    Interpreter.start smallConfig .empty = .ok start ∧
    resolve replacingTerm start = .ok expr before ∧
    evalTopLevel (perform {} 40) expr before = .error (.fault (.staleReference ref)) after := by
  have hcheck : startPasses replacingTerm (fun expr before =>
      isStale (evalTopLevel (perform {} 40) expr before)) = true := by
    decide +kernel
  obtain ⟨start, expr, before, hstart, hresolve, hstale⟩ := exists_of_startPasses hcheck
  unfold isStale at hstale
  split at hstale
  · next ref after heval => exact ⟨start, expr, before, ref, after, hstart, hresolve, heval⟩
  · cases hstale

end LazyDispatch
