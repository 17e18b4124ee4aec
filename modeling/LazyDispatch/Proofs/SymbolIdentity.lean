import LazyDispatch.Proofs.HeapLaw
import Mathlib.Algebra.Group.Nat.Defs
import Mathlib.Data.List.Induction

/-!
# Symbols identify names

Matching, scoping and dispatch compare symbols where they mean names.  That is
sound only if two symbols of a table are equal exactly when their names are,
whatever else the table was asked in between.  `symbols_identify_names` states
this for every sequence of calls on a new table, from what the calls answered.

A name is found through the map, and a symbol is named through the array of
names, so the two have to agree.  That they are inverse to each other is
preserved by each call (`Consistent.intern`), and so it holds after all calls.
Two descriptions of a table carry the rest.  Its names are the interned ones,
each in the place of its first interning (`names_after_intern`).  And a symbol
has a name in the table exactly if it was returned for that name (`Records`).
-/

namespace LazyDispatch

/-- What a symbol table can be asked. -/
inductive SymbolCall where
  | intern (name : String)
  | find (name : String)
  | nameOf (symbol : Symbol)

/-- A call on a symbol table with its answer.  A symbol that is not of the table
has no name. -/
inductive SymbolEvent where
  | interned (name : String) (symbol : Symbol)
  | found (name : String) (symbol? : Option Symbol)
  | named (symbol : Symbol) (name? : Option String)
deriving DecidableEq

/-- The name that a call interns. -/
def SymbolCall.interned? : SymbolCall → Option String
  | intern name => some name
  | find _ => none
  | nameOf _ => none

/-- The call that was answered. -/
def SymbolEvent.call : SymbolEvent → SymbolCall
  | interned name _ => .intern name
  | found name _ => .find name
  | named symbol _ => .nameOf symbol

namespace SymbolStore

variable {store : SymbolStore} {symbol other : Symbol} {name : String}

/-- Makes a call. -/
def apply (store : SymbolStore) : SymbolCall → SymbolEvent × SymbolStore
  | .intern name => (.interned name (store.intern name).1, (store.intern name).2)
  | .find name => (.found name (store.find? name), store)
  | .nameOf symbol => (.named symbol (store.name? symbol), store)

/-- The store after a sequence of calls. -/
def after (store : SymbolStore) (calls : List SymbolCall) : SymbolStore :=
  calls.foldl (fun store call => (store.apply call).2) store

/-- What a sequence of calls was answered. -/
def events (store : SymbolStore) : List SymbolCall → List SymbolEvent
  | [] => []
  | call :: calls => (store.apply call).1 :: (store.apply call).2.events calls

/-! ## One call -/

/-- In a consistent store a name has one symbol. -/
theorem Consistent.eq_of_name? (hstore : store.Consistent)
    (hsymbol : store.name? symbol = some name)
    (hother : store.name? other = some name) : symbol = other := by
  have hfind := (hstore name symbol).mpr hsymbol
  have htwin := (hstore name other).mpr hother
  exact Option.some.inj (hfind.symm.trans htwin)

/-- In a consistent store a name is found exactly if it stands somewhere. -/
theorem Consistent.find?_eq_none_iff (hstore : store.Consistent) :
    store.find? name = none ↔ name ∉ store.names.toList := by
  constructor
  · intro hnone hmem
    obtain ⟨index, hindex⟩ := List.getElem?_of_mem hmem
    rw [Array.getElem?_toList] at hindex
    cases hnone.symm.trans ((hstore name ⟨index⟩).mpr hindex)
  · intro hnot
    cases hfind : store.find? name with
    | none => rfl
    | some symbol =>
        have hname := (hstore name symbol).mp hfind
        exact absurd (Array.mem_toList_iff.mpr (Array.mem_of_getElem? hname)) hnot

/-- After a name is interned, symbols have the names that they had, and the
symbol returned has the name interned. -/
theorem Consistent.name?_intern_eq_some_iff (hstore : store.Consistent)
    {added : String} :
    (store.intern added).2.name? symbol = some name ↔
      store.name? symbol = some name ∨
        (name = added ∧ symbol = (store.intern added).1) := by
  constructor
  · intro hname
    rcases store.intern_cases added with ⟨found, -, hsame⟩ | ⟨-, hsymbol, hadded⟩
    · rw [hsame] at hname
      exact Or.inl hname
    · rw [hadded, name?, Array.getElem?_push] at hname
      by_cases hlast : symbol.index = store.names.size
      · rw [if_pos hlast] at hname
        refine Or.inr ⟨(Option.some.inj hname).symm, ?_⟩
        rw [hsymbol, size, ← hlast]
      · rw [if_neg hlast] at hname
        exact Or.inl hname
  · intro hcases
    rcases hcases with hname | ⟨rfl, rfl⟩
    · exact name?_of_extends (store.extends_intern added) hname
    · exact hstore.name?_intern name

/-- A call keeps the map and the names inverse to each other. -/
theorem Consistent.apply (hstore : store.Consistent) (call : SymbolCall) :
    (store.apply call).2.Consistent := by
  cases call with
  | intern name => exact hstore.intern name
  | find name => exact hstore
  | nameOf symbol => exact hstore

/-! ## Sequences of calls -/

/-- **The map and the names are inverse to each other after all calls.** -/
theorem Consistent.after (hstore : store.Consistent) (calls : List SymbolCall) :
    (store.after calls).Consistent := by
  induction calls generalizing store with
  | nil => exact hstore
  | cons call calls ih => exact ih (hstore.apply call)

/-- A consistent store in which symbols have the names for which they were
returned, and no others. -/
structure Records (store : SymbolStore) (past : List SymbolEvent) : Prop where
  consistent : store.Consistent
  named : ∀ symbol name,
    store.name? symbol = some name ↔ .interned name symbol ∈ past

theorem records_empty : empty.Records [] := by
  refine ⟨consistent_empty, fun symbol name => ?_⟩
  simp [empty, name?]

namespace Records

variable {past before rest : List SymbolEvent} {calls : List SymbolCall}

/-- A call extends the record by its answer. -/
theorem apply (hrecords : store.Records past) (call : SymbolCall) :
    (store.apply call).2.Records (past ++ [(store.apply call).1]) := by
  refine ⟨hrecords.consistent.apply call, fun symbol name => ?_⟩
  rw [List.mem_append, List.mem_singleton, ← hrecords.named symbol name]
  cases call with
  | intern added =>
      rw [SymbolStore.apply, SymbolEvent.interned.injEq]
      exact hrecords.consistent.name?_intern_eq_some_iff
  | find sought => simp [SymbolStore.apply]
  | nameOf asked => simp [SymbolStore.apply]

/-- A sequence of calls extends the record by its answers. -/
theorem after (hrecords : store.Records past) (calls : List SymbolCall) :
    (store.after calls).Records (past ++ store.events calls) := by
  induction calls generalizing store past with
  | nil => simpa [SymbolStore.after, events] using hrecords
  | cons call calls ih =>
      have hrest := ih (hrecords.apply call)
      rw [List.append_assoc] at hrest
      exact hrest

/-- Each answer was given by a store of which the answers before it are the
record. -/
theorem exists_prior (hrecords : store.Records past) {event : SymbolEvent}
    (hevents : store.events calls = before ++ event :: rest) :
    ∃ prior : SymbolStore, prior.Records (past ++ before) ∧
      ∃ call, (prior.apply call).1 = event := by
  induction calls generalizing store past before with
  | nil => simp [events] at hevents
  | cons call calls ih =>
      cases before with
      | nil =>
          refine ⟨store, ?_, call, (List.cons.inj hevents).1⟩
          rw [List.append_nil]
          exact hrecords
      | cons first before =>
          obtain ⟨hfirst, hlater⟩ := List.cons.inj hevents
          obtain ⟨prior, hprior, hanswer⟩ := ih (hrecords.apply call) hlater
          rw [hfirst, List.append_assoc] at hprior
          exact ⟨prior, hprior, hanswer⟩

end Records

/-- A name is found exactly if it was interned before, as the symbol that was
returned then. -/
theorem found_iff {calls : List SymbolCall} {before rest : List SymbolEvent}
    {symbol? : Option Symbol}
    (hevents : empty.events calls = before ++ .found name symbol? :: rest) :
    symbol? = some symbol ↔ .interned name symbol ∈ before := by
  obtain ⟨prior, hprior, call, hanswer⟩ := records_empty.exists_prior hevents
  cases call with
  | intern added => cases hanswer
  | find sought =>
      cases hanswer
      exact (hprior.consistent name symbol).trans (hprior.named symbol name)
  | nameOf asked => cases hanswer

/-- A symbol is named exactly if it was returned before, for the name that was
interned then. -/
theorem named_iff {calls : List SymbolCall} {before rest : List SymbolEvent}
    {name? : Option String}
    (hevents : empty.events calls = before ++ .named symbol name? :: rest) :
    name? = some name ↔ .interned name symbol ∈ before := by
  obtain ⟨prior, hprior, call, hanswer⟩ := records_empty.exists_prior hevents
  cases call with
  | intern added => cases hanswer
  | find sought => cases hanswer
  | nameOf asked =>
      cases hanswer
      exact hprior.named symbol name

/-- The answer to a call tells the call. -/
theorem call_apply (store : SymbolStore) (call : SymbolCall) :
    (store.apply call).1.call = call := by
  cases call <;> rfl

/-- Every call is answered, in order. -/
theorem map_call_events (store : SymbolStore) (calls : List SymbolCall) :
    (store.events calls).map SymbolEvent.call = calls := by
  induction calls generalizing store with
  | nil => rfl
  | cons call calls ih => rw [events, List.map_cons, call_apply, ih]

/-! ## The order of first interning -/

/-- Only the names that are interned matter to a store. -/
theorem after_eq_after_intern (store : SymbolStore) (calls : List SymbolCall) :
    store.after calls =
      store.after ((calls.filterMap SymbolCall.interned?).map .intern) := by
  induction calls generalizing store with
  | nil => rfl
  | cons call calls ih =>
      -- A call that only looks something up passes its store on.
      cases call with
      | intern name =>
          have hname : SymbolCall.interned? (.intern name) = some name := rfl
          rw [List.filterMap_cons_some hname]
          exact ih _
      | find name =>
          rw [List.filterMap_cons_none rfl]
          exact ih _
      | nameOf symbol =>
          rw [List.filterMap_cons_none rfl]
          exact ih _

/-- A new name goes to the end of the names and of the map. -/
theorem Consistent.keys_intern (hstore : store.Consistent)
    (hkeys : store.mappings.map (·.1) = store.names.toList)
    (hnew : name ∉ store.names.toList) :
    (store.intern name).2.names.toList = store.names.toList ++ [name] ∧
      (store.intern name).2.mappings.map (·.1) = store.names.toList ++ [name] := by
  rcases store.intern_cases name with ⟨symbol, hfind, -⟩ | ⟨-, -, hadded⟩
  · cases (hstore.find?_eq_none_iff.mpr hnew).symm.trans hfind
  · rw [hadded, putEntry_of_not_mem _ (hkeys ▸ hnew), List.map_append, hkeys]
    exact ⟨Array.toList_push, rfl⟩

/-- The names of a store are the interned ones, in the order of their first
interning, and its map has the same names. -/
theorem names_after_intern (names : List String) :
    (empty.after (names.map .intern)).names.toList = names.eraseDups ∧
      (empty.after (names.map .intern)).mappings.map (·.1) = names.eraseDups := by
  induction names using List.reverseRecOn with
  | nil => exact ⟨rfl, rfl⟩
  | append_singleton names added ih =>
      obtain ⟨hnames, hkeys⟩ := ih
      have hstore := consistent_empty.after (names.map .intern)
      have hstep : empty.after ((names ++ [added]).map .intern) =
          ((empty.after (names.map .intern)).intern added).2 := by
        rw [after, List.map_append, List.foldl_append]
        rfl
      rw [hstep, List.eraseDups_append]
      by_cases hmem : added ∈ names
      · have hrepeated : [added].removeAll names = [] := by
          simp [List.removeAll, hmem]
        rcases (empty.after (names.map .intern)).intern_cases added with
          ⟨symbol, -, hsame⟩ | ⟨hnone, -⟩
        · rw [hsame, hrepeated]
          simpa using And.intro hnames hkeys
        · refine absurd ?_ (hstore.find?_eq_none_iff.mp hnone)
          rw [hnames, List.mem_eraseDups]
          exact hmem
      · have hnew : added ∉ (empty.after (names.map .intern)).names.toList := by
          rw [hnames, List.mem_eraseDups]
          exact hmem
        have hkept : [added].removeAll names = [added] := by
          simp [List.removeAll, hmem]
        rw [hkept, ← hnames]
        exact hstore.keys_intern (hkeys.trans hnames.symm) hnew

/-- **Symbols identify names.**  In every sequence of calls on a new table, each
of which is answered: two symbols that were returned are equal exactly if their
names are; a symbol is named, then and ever after, by the name for which it was
returned; a name is found exactly if it was interned before, as the symbol
returned then; the names are numbered from zero in the order of their first
interning, and the table has as many; calls that find or name add nothing to it.
With fewer than `2 ^ 32` names the numbers fit into 32 bits.

The table finds names through its map and names symbols through its array.  The
two hold the same names, and are inverse to each other after every sequence of
calls. -/
theorem symbols_identify_names (calls : List SymbolCall) :
    let events := empty.events calls
    let names := (calls.filterMap SymbolCall.interned?).eraseDups
    events.map SymbolEvent.call = calls ∧
      (∀ name symbol other twin, .interned name symbol ∈ events →
        .interned other twin ∈ events → (symbol = twin ↔ name = other)) ∧
      (∀ before symbol name? rest, events = before ++ .named symbol name? :: rest →
        ∀ name, name? = some name ↔ .interned name symbol ∈ before) ∧
      (∀ before name symbol? rest, events = before ++ .found name symbol? :: rest →
        ∀ symbol, symbol? = some symbol ↔ .interned name symbol ∈ before) ∧
      (∀ name symbol, .interned name symbol ∈ events ↔
        names[symbol.index]? = some name) ∧
      (empty.after calls).size = names.length ∧
      empty.after calls =
        empty.after ((calls.filterMap SymbolCall.interned?).map .intern) ∧
      (names.length < 2 ^ 32 → ∀ name symbol, .interned name symbol ∈ events →
        (BitVec.ofNat 32 symbol.index).toNat = symbol.index) ∧
      (empty.after calls).names.toList = names ∧
      (empty.after calls).mappings.map (·.1) = names ∧
      ∀ name symbol, (empty.after calls).find? name = some symbol ↔
        (empty.after calls).name? symbol = some name := by
  intro events names
  have hrecords : (empty.after calls).Records events := records_empty.after calls
  have hnames : (empty.after calls).names.toList = names := by
    rw [after_eq_after_intern]
    exact (names_after_intern _).1
  have hkeys : (empty.after calls).mappings.map (·.1) = names := by
    rw [after_eq_after_intern]
    exact (names_after_intern _).2
  have hplaces : ∀ name symbol, .interned name symbol ∈ events ↔
      names[symbol.index]? = some name := by
    intro name symbol
    rw [← hrecords.named symbol name, name?, ← Array.getElem?_toList, hnames]
  refine ⟨map_call_events _ _, ?_, fun _ _ _ _ hevents _ => named_iff hevents,
    fun _ _ _ _ hevents _ => found_iff hevents, hplaces, ?_,
    after_eq_after_intern _ _, ?_, hnames, hkeys, hrecords.consistent⟩
  · intro name symbol other twin hsymbol htwin
    have hname := (hrecords.named symbol name).mpr hsymbol
    have hother := (hrecords.named twin other).mpr htwin
    constructor
    · intro hsame
      rw [hsame] at hname
      exact Option.some.inj (hname.symm.trans hother)
    · intro hsame
      rw [hsame] at hname
      exact hrecords.consistent.eq_of_name? hname hother
  · rw [size, ← Array.length_toList, hnames]
  · intro hfew name symbol hsymbol
    obtain ⟨hlt, -⟩ := List.getElem?_eq_some_iff.mp ((hplaces name symbol).mp hsymbol)
    rw [BitVec.toNat_ofNat]
    exact Nat.mod_eq_of_lt (Nat.lt_trans hlt hfew)

/-- A name is looked for before and after it is interned, another is interned
twice, and a symbol is named that was never returned. -/
def methodCalls : List SymbolCall :=
  [.intern "speak", .find "speak.B", .intern "speak.B", .intern "speak", .find "speak.B",
    .nameOf ⟨1⟩, .nameOf ⟨2⟩]

/-- What these calls are answered. -/
def methodEvents : List SymbolEvent :=
  [.interned "speak" ⟨0⟩, .found "speak.B" none, .interned "speak.B" ⟨1⟩, .interned "speak" ⟨0⟩,
    .found "speak.B" (some ⟨1⟩), .named ⟨1⟩ (some "speak.B"), .named ⟨2⟩ none]

theorem symbols_identify_names_methodCalls :
    empty.events methodCalls = methodEvents ∧
    ((⟨0⟩ : Symbol) = ⟨1⟩ ↔ "speak" = "speak.B") ∧
      (empty.after methodCalls).size = 2 ∧ (BitVec.ofNat 32 1).toNat = 1 := by
  have hevents : empty.events methodCalls = methodEvents := by decide +kernel
  have hfirst : .interned "speak" ⟨0⟩ ∈ empty.events methodCalls := by simp [hevents, methodEvents]
  have hsecond : .interned "speak.B" ⟨1⟩ ∈ empty.events methodCalls := by
    simp [hevents, methodEvents]
  have hnames : (methodCalls.filterMap SymbolCall.interned?).eraseDups.length = 2 := by
    decide +kernel
  obtain ⟨-, hidentify, -, -, -, hsize, -, hfits, -⟩ := symbols_identify_names methodCalls
  refine ⟨hevents, hidentify _ _ _ _ hfirst hsecond, hsize.trans hnames, ?_⟩
  exact hfits (by rw [hnames]; decide) _ _ hsecond

end SymbolStore

end LazyDispatch
