import LazyDispatch.Proofs.ChainsEnd
import LazyDispatch.Proofs.NameLaw

/-!
# The next method goes on from the name that it was called by

In a session whose programs leave `.Method` alone, wherever a task begins or has
come to a value, the names in a method's frame agree on the name under which the
method was selected.  This holds for methods that were selected on one object,
for those of operators, which are told a name for each operand, and for those
that a chain of calls of `NextMethod` came to, however dispatches are nested.
So `NextMethod` never finds names that differ, and the name that it goes on from
is always the one that its method was called by.
-/

namespace LazyDispatch

open Eval

/-! ## The start of a session -/

/-- The symbols of `.Method` and of the deferred default have their names. -/
theorem Reserved.named_dotMethod (table : SymbolTable) :
    (Reserved.intern.run table).2.Named
      [((Reserved.intern.run table).1.deferredDefault, ".DeferredDefault"),
        ((Reserved.intern.run table).1.dotMethod, ".Method")] := by
  let before := table.internAll ["...", "class", "names", "previous", ".Class", ".Generic"]
  have hnamed := before.named_nil.intern ".Method" |>.intern ".Group" |>.intern ".GenericCallEnv"
    |>.intern ".GenericDefEnv" |>.intern ".DeferredDefault" |>.intern "generic" |>.intern "object"
  intro pair hpair
  refine hnamed pair ?_
  simp only [List.mem_cons, List.not_mem_nil, or_false] at hpair
  rcases hpair with rfl | rfl
  · exact List.mem_of_getElem? (i := 2) rfl
  · exact List.mem_of_getElem? (i := 6) rfl

theorem Builtin.name_ne_dotMethod (builtin : Builtin) :
    builtin.name ≠ ".Method" := by
  cases builtin <;> decide

namespace Interpreter

variable {config : Config} {symbols : SymbolTable} {spared : Symbol} {start state : Interpreter}

/-- The fixed objects hold no program. -/
theorem spares_allocateAllFixed {reserved : Reserved} {dots : Symbol} {heap made : Heap}
    {fixed : Fixed} (hheap : heap.Coherent) (hempty : ∀ ref, heap.get? ref = none)
    (hok : allocateAllFixed reserved heap = .ok fixed made) {ref : Ref} {object : HeapObject}
    (hget : made.get? ref = some object) :
    object.payload.Meets (fun _ _ => True) True (·.spares spared = true) dots := by
  have hall : made.Coherent ∧ ∀ ref object, made.get? ref = some object →
      object.payload.Meets (fun _ _ => True) True (·.spares spared = true) dots := by
    refine allocateAllFixed_induction (motive := fun heap _ => heap.Coherent ∧
      ∀ ref object, heap.get? ref = some object →
        object.payload.Meets (fun _ _ => True) True (·.spares spared = true) dots) hok
      ⟨hheap, fun ref object hfound => ?_⟩ ?_
    · cases (hempty ref).symm.trans hfound
    · intro heap after before payload ref hbefore hfits hallocate
      refine ⟨HeapCall.perform_coherent hbefore.1 (Heap.perform_allocate hallocate),
        fun other found hfound => ?_⟩
      rcases Heap.get?_of_allocate hbefore.1 hallocate hfound with ⟨-, rfl⟩ | hold
      · cases hfits with
        | null => trivial
        | symbol => trivial
        | outermost => exact ⟨fun _ _ => trivial, fun _ hentry => nomatch hentry⟩
        | inside => exact ⟨fun _ _ => trivial, fun _ hentry => nomatch hentry⟩
      · exact hbefore.2 other found hold
  exact hall.2 ref object hget

/-- An interpreter starts without programs and without calls in progress. -/
theorem sound_nameLaw_start
    (hstart : Interpreter.start config symbols = .ok state) :
    (nameLaw state.reserved.dotMethod).Sound state := by
  obtain ⟨heap, fixed, made, hcreate, hmade, hbase⟩ := start_eq_ok hstart
  have hcoherent := Heap.coherent_of_create hcreate
  have hnamed := Reserved.named_dotMethod symbols
  have hmethod := hnamed _ (List.mem_cons_of_mem _ List.mem_cons_self)
  have hdeferred := hnamed _ List.mem_cons_self
  have hne : (Reserved.intern.run symbols).1.deferredDefault ≠
      (Reserved.intern.run symbols).1.dotMethod := by
    intro hsame
    rw [hsame, hmethod] at hdeferred
    have hequal : ".Method" = ".DeferredDefault" := Option.some.inj hdeferred
    exact absurd hequal (by decide)
  have hsound : (nameLaw (Reserved.intern.run symbols).1.dotMethod).Sound
      (withFixed config (Reserved.intern.run symbols).2
        (Reserved.intern.run symbols).1 fixed made) :=
    ⟨⟨(allocateAllFixed_eq_ok hcoherent hmade).1,
      spares_allocateAllFixed hcoherent (Heap.get?_create hcreate) hmade, rfl, rfl, hmethod,
      Reserved.nodup_dispatchSymbols symbols, hne⟩, nofun, nofun, ⟨.nil, nofun⟩⟩
  have hbinds : ∀ reached : Interpreter, reached.Spared (Reserved.intern.run symbols).1.dotMethod →
      reached.reserved.deferredDefault ≠ (Reserved.intern.run symbols).1.dotMethod ∧
      ∀ builtin symbol, reached.naming.symbols.name? symbol = some (Builtin.name builtin) →
        symbol ≠ (Reserved.intern.run symbols).1.dotMethod := by
    intro reached hinv
    refine ⟨hinv.deferred, fun builtin symbol hname hsame => ?_⟩
    rw [hsame, hinv.name] at hname
    exact builtin.name_ne_dotMethod (Option.some.inj hname).symm
  have hinstalled := ((RefLaw.coincide_installBase hbinds hsound).value hbase).1
  rw [hinstalled.inv.method]
  exact hinstalled

/-- A session that only evaluates programs that leave `.Method` alone. -/
abbrev SparesMethod (start : Interpreter) (state : Interpreter) : Prop :=
  start.Visits (fun _ expr _ => expr.spares start.reserved.dotMethod = true) state

/-- **Every state of such a session tells its methods names that agree.** -/
theorem sound_nameLaw_of_visits (hstart : Interpreter.start config symbols = .ok start)
    (hvisits : start.SparesMethod state) : (nameLaw start.reserved.dotMethod).Sound state :=
  RefLaw.sound_of_visits (fun _ hinv => hinv.cache) (fun _ => trivial)
    (sound_nameLaw_start hstart) hvisits

end Interpreter

/-! ## A wary `NextMethod` -/

namespace Eval

/-- Reads where dispatch stands, and gives up if the names of the method differ,
which is what `NextMethod` warns of, or if the name to go on from is not the one
that the method was called by. -/
def waryPoint (alarm : Stop) (run : Runner) (method : MethodInProgress) : Eval ResumePoint := do
  let point ← resumePoint run method
  if namesDiffer (point.names.getD []) = true ∨ point.current ≠ method.head then throw alarm
  else return point

/-- The builtins, but with a `NextMethod` that gives up where names differ. -/
def waryBuiltin (alarm : Stop) : Builtins :=
  fun run invocation =>
    if invocation.builtin = .nextMethod then
      callNextMethodFrom (waryPoint alarm run) run invocation.call invocation.env
    else runBuiltin {} run invocation

/-- Carries out a task with a nesting budget and with such builtins. -/
def performWary (alarm : Stop) : Nat → Runner :=
  performVia (overrideDispatch {}) (waryBuiltin alarm)

end Eval

namespace RefLaw

variable {law : RefLaw} {alarm : Stop}
  (htells : ∀ {name names}, law.tells name names → SoleName name names)

include htells

/-- Dispatch stands where the name says that the method was called by. -/
theorem PointMeets.agrees {head : String} {state : Interpreter}
    {point : ResumePoint} (hpoint : law.PointMeets head state point) :
    namesDiffer (point.names.getD []) = false ∧ point.current = head := by
  rw [hpoint.current]
  cases hnames : point.names with
  | none => exact ⟨rfl, rfl⟩
  | some names =>
      have hsole := htells (hpoint.names names hnames)
      exact ⟨hsole.namesDiffer_eq, hsole.runningName_eq head⟩

theorem readsPoints_waryPoint {run twin : Runner} (hrun : law.Runs run twin) :
    law.ReadsPoints (waryPoint alarm run) (resumePoint twin) := by
  intro state method hstate hmethod
  have hbind : resumePoint twin method = resumePoint twin method >>= pure := (bind_pure _).symm
  rw [hbind]
  refine (agree_resumePoint hrun hstate hmethod).bind fun point middle hreach hpoint => ?_
  obtain ⟨hsame, hcurrent⟩ := hpoint.agrees htells
  rw [if_neg fun halarm => halarm.elim
    (fun hdiffer => Bool.false_ne_true (hsame.symm.trans hdiffer))
    fun hother => hother hcurrent]
  exact .pure hreach.sound hpoint

theorem builtinsRun_waryBuiltin (hlax : law.Lax) {run twin : Runner}
    (hrun : law.Runs run twin) :
    law.BuiltinsRun (waryBuiltin alarm) (runBuiltin {}) run twin := by
  intro state invocation hstate hinvocation
  unfold waryBuiltin
  by_cases hbuiltin : invocation.builtin = .nextMethod
  · have hnext : runBuiltin {} twin invocation =
        callNextMethod twin invocation.call invocation.env := by
      simp only [runBuiltin, hbuiltin]
    rw [if_pos hbuiltin, hnext, ← callNextMethodFrom_resumePoint]
    exact agree_callNextMethodFrom hrun (readsPoints_waryPoint htells hrun) hstate hinvocation.call
      hinvocation.env (findsScopes_of_lax hlax hstate hinvocation.env)
  · rw [if_neg hbuiltin]
    exact builtinsRun_of_lax hrun (genericRuns_nil _ _ _) hlax state invocation hstate hinvocation

/-- **No call of `NextMethod` gives up**, under a law that tells methods names
that agree. -/
theorem runs_performWary (hcache : ∀ state, law.inv state → state.cache = .empty) (hlax : law.Lax)
    (budget : Nat) : law.Runs (performWary alarm budget) (perform {} budget) := by
  rw [← performWith_overrideDispatch]
  exact runs_performVia (fun _ hrun =>
    ⟨overrides_nil hcache _ _, builtinsRun_waryBuiltin htells hlax hrun⟩) budget

end RefLaw

/-- **The names of methods agree.**  In a session without a host whose programs
leave `.Method` alone, wherever a task begins or has come to a value, if a
method has names in its frame, then the name under which it was selected is one
of them, and the others are the same or empty: an evaluation goes on in the same
way if the states there are put to a test that states with such names pass.  So
calls of `NextMethod` never find names that differ, and always go on from the
name that their method was called by: an evaluation also goes on in the same way
if they give up otherwise. -/
theorem method_names_agree {config : Config} {symbols : SymbolTable} {start state : Interpreter}
    (hstart : Interpreter.start config symbols = .ok start) (hvisits : start.SparesMethod state)
    {expr : Expr} (hexpr : expr.spares start.reserved.dotMethod = true) (budget : Nat)
    (alarm : Stop) :
    (∀ test : Interpreter → Bool,
      (∀ reached, reached.MethodsNamed start.reserved.dotMethod → test reached = true) →
      evalTopLevel (performWatched test alarm budget) expr state =
        evalTopLevel (perform {} budget) expr state) ∧
    evalTopLevel (performWary alarm budget) expr state =
      evalTopLevel (perform {} budget) expr state := by
  have hstate := Interpreter.sound_nameLaw_of_visits hstart hvisits
  have hcache : ∀ reached, (nameLaw start.reserved.dotMethod).inv reached →
      reached.cache = .empty :=
    fun _ hinv => hinv.cache
  have hsame : ∀ {run : Runner}, (nameLaw start.reserved.dotMethod).Runs run (perform {} budget) →
      evalTopLevel run expr state = evalTopLevel (perform {} budget) expr state := by
    intro run hruns
    rcases (RefLaw.agree_evalTopLevel hruns hstate hexpr).same with hsame | ⟨hstalls, -⟩
    · exact hsame.symm
    · exact hstalls.elim
  refine ⟨fun test htest => hsame ?_, hsame ?_⟩
  · exact RefLaw.runs_performWatched hcache (fun _ => trivial)
      (fun reached hsound => htest reached hsound.calls) budget
  · exact RefLaw.runs_performWary (fun hsole => hsole) hcache (fun _ => trivial) budget

section Witness

/-- An operator on an object of two classes, with a method for each of them.
The first one has a body, and the second one returns the names that it is told. -/
def operandNamesTerm (body : Term) : Term :=
  .block [
    .assign .here "+.b" (.function [("e1", none), ("e2", none)] body),
    .assign .here "+.a" (.function [("e1", none), ("e2", none)] (.symbol ".Method")),
    .assign .here "x" (.call (.symbol "class<-") [(none, .literal (.integer 1)),
      (none, .call (.symbol "c")
        [(none, .literal (.string "b")), (none, .literal (.string "a"))])]),
    .call (.symbol "+") [(none, .symbol "x"), (none, .literal (.integer 2))]]

/-- A call of `NextMethod`. -/
def nextMethodTerm : Term := .call (.symbol "NextMethod") []

/-- Whether a reference stands for a vector of texts. -/
def holdsTexts (texts : List String) (ref : Ref) (state : Interpreter) : Bool :=
  match state.heap.get? ref with
  | some ⟨.character found, _⟩ => decide (found = texts)
  | _ => false

theorem exists_of_holdsTexts {texts : List String} {ref : Ref} {state : Interpreter}
    (hholds : holdsTexts texts ref state = true) :
    ∃ attributes, state.heap.get? ref = some ⟨.character texts, attributes⟩ := by
  unfold holdsTexts at hholds
  split at hholds
  · next found attributes hget =>
      cases of_decide_eq_true hholds
      exact ⟨attributes, hget⟩
  · cases hholds

/-- Whether no call in progress is told certain names. -/
def tellsOthers (names : List String) (state : Interpreter) : Bool :=
  state.contexts.all fun context =>
    match context.env.bind state.heap.get? with
    | some ⟨.environment found, _⟩ =>
      match (found.frame.find? state.reserved.dotMethod).bind (·.value) with
      | some value => !holdsTexts names value state
      | none => true
    | _ => true

/-- Whether an evaluation leaves `.Method` alone and comes to the names of the
second method, after the first one was told its own. -/
def passesNames (expr : Expr) (before : Interpreter) : Bool :=
  expr.spares before.reserved.dotMethod &&
    ((evalTopLevel (perform {} 40) expr).passes
      (fun value after => holdsTexts ["+.a", ""] value after) before &&
    runsOut (evalTopLevel (performWatched (tellsOthers ["+.b", ""]) .outOfFuel 40) expr) before)

theorem reserved_of_resolve {term : Term} {expr : Expr}
    {state after : Interpreter} (hresolve : resolve term state = .ok expr after)
    : after.reserved = state.reserved := by
  cases hresolve
  rfl

set_option maxRecDepth 1000000 in
theorem exists_operandNamesTerm : ∃ start expr before value after attributes stopped,
    Interpreter.start smallConfig .empty = .ok start ∧
    resolve (operandNamesTerm nextMethodTerm) start = .ok expr before ∧
    expr.spares start.reserved.dotMethod = true ∧
    evalTopLevel (perform {} 40) expr before = .ok value after ∧
    after.heap.get? value = some ⟨.character ["+.a", ""], attributes⟩ ∧
    evalTopLevel (performWatched (tellsOthers ["+.b", ""]) .outOfFuel 40) expr before =
      .error .outOfFuel stopped := by
  have hcheck : startPasses (operandNamesTerm nextMethodTerm) passesNames = true := by
    decide +kernel
  obtain ⟨start, expr, before, hstart, hresolve, hpasses⟩ := exists_of_startPasses hcheck
  obtain ⟨hspares, hboth⟩ := Bool.and_eq_true_iff.mp hpasses
  obtain ⟨hvalue, hout⟩ := Bool.and_eq_true_iff.mp hboth
  obtain ⟨value, after, heval, hholds⟩ := exists_of_passes hvalue
  obtain ⟨attributes, hget⟩ := exists_of_holdsTexts hholds
  obtain ⟨stopped, hstopped⟩ := exists_of_runsOut hout
  rw [reserved_of_resolve hresolve] at hspares
  exact ⟨start, expr, before, value, after, attributes, stopped, hstart,
    hresolve, hspares, heval, hget, hstopped⟩

open Classical in
/-- The method of the first class is told its name for the first operand, and
none for the other.  The next one is told its own name for the same operand. -/
theorem method_names_agree_operandNamesTerm :
    ∃ start expr before value after attributes stopped,
      Interpreter.start smallConfig .empty = .ok start ∧
      resolve (operandNamesTerm nextMethodTerm) start = .ok expr before ∧
      expr.spares start.reserved.dotMethod = true ∧
      evalTopLevel (perform {} 40) expr before = .ok value after ∧
      after.heap.get? value = some ⟨.character ["+.a", ""], attributes⟩ ∧
      evalTopLevel (performWatched (tellsOthers ["+.b", ""]) .outOfFuel 40) expr before =
        .error .outOfFuel stopped ∧
      evalTopLevel (performWatched (fun reached =>
        decide (reached.MethodsNamed start.reserved.dotMethod)) .outOfFuel 40) expr before =
          .ok value after ∧
      evalTopLevel (performWary .outOfFuel 40) expr before = .ok value after := by
  obtain ⟨start, expr, before, value, after, attributes, stopped, hstart,
    hresolve, hspares, heval, hget, hstopped⟩ := exists_operandNamesTerm
  have hbefore : start.SparesMethod before := .resolve .start hresolve
  obtain ⟨hwatched, hwary⟩ := method_names_agree hstart hbefore hspares 40 .outOfFuel
  exact ⟨start, expr, before, value, after, attributes, stopped, hstart,
    hresolve, hspares, heval, hget, hstopped,
    (hwatched _ fun _ hnamed => decide_eq_true hnamed).trans heval,
    hwary.trans heval⟩

set_option maxRecDepth 1000000 in
/-- A method that assigns `.Method` makes `NextMethod` warn, or give up. -/
example : startPasses (operandNamesTerm (.block [
    .assign .here ".Method" (.call (.symbol "c")
      [(none, .literal (.string "+.b")), (none, .literal (.string "+.z"))]), nextMethodTerm]))
    (fun expr before => (evalTopLevel (perform {} 40) expr).passes
        (fun _ after => decide (after.warnings = ["Incompatible methods ignored"])) before &&
      runsOut (evalTopLevel (performWary .outOfFuel 40) expr) before) = true := by
  decide +kernel

end Witness

end LazyDispatch
