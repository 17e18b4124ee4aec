import LazyDispatch.Interpreter.State
import LazyDispatch.Matching
import Mathlib.Data.List.Basic
import Mathlib.Data.List.Nodup

/-!
# The rule of argument matching

The rule says without passes which argument a formal takes: the one tagged with
its name, or else the one whose tag begins its name and no other, or else the
untagged argument that has the same number as the formal has among those still
open.  Formals from `...` on are taken by name only.  It speaks of formals by
their places and of arguments by their indices.

If the tags of a call are right, then an argument is for one formal only and a
formal takes one argument only.
-/

namespace LazyDispatch.Matching

/-- The formals of a function and the arguments of a call of it. -/
structure Setting where
  names : Symbol → String
  dots : Symbol
  formals : List Formal
  actuals : List Arg

namespace Setting

variable {other : Nat}

variable (s : Setting)

/-- What matching answers. -/
def outcome : Except MatchError (List Matched) :=
  matchArgs s.names s.dots s.formals s.actuals

/-- The name of the formal at a place. -/
def nameAt (place : Nat) : Option Symbol :=
  s.formals[place]?.map (·.name)

/-- The tag of the argument at an index, if it has one. -/
def tagAt (index : Nat) : Option Symbol :=
  s.actuals[index]?.bind (·.tag)

/-- How many formals come before `...`. -/
def leading : Nat :=
  (s.formals.takeWhile (·.name ≠ s.dots)).length

/-! ## The rule -/

/-- The argument at an index is tagged with the name of a formal other than
`...`. -/
def NamesExactly (index place : Nat) : Prop :=
  ∃ name ∈ s.nameAt place, name ≠ s.dots ∧ s.tagAt index = some name

instance (index place : Nat) : Decidable (s.NamesExactly index place) :=
  inferInstanceAs (Decidable (∃ name ∈ s.nameAt place, _))

/-- An argument that is tagged, but with the name of no formal, begins the name
of a formal before `...` that no argument names exactly. -/
def IsCandidate (index place : Nat) : Prop :=
  (∀ exact < s.formals.length, ¬ s.NamesExactly index exact) ∧ place < s.leading ∧
    (∀ other < s.actuals.length, ¬ s.NamesExactly other place) ∧
    ∃ tag ∈ s.tagAt index, ∃ name ∈ s.nameAt place, Text.begins (s.names tag) (s.names name)

instance (index place : Nat) : Decidable (s.IsCandidate index place) :=
  inferInstanceAs (Decidable (_ ∧ _ ∧ _ ∧ ∃ tag ∈ s.tagAt index, ∃ name ∈ s.nameAt place, _))

/-- A formal is the only candidate of an argument. -/
def IsSole (index place : Nat) : Prop :=
  s.IsCandidate index place ∧ ∀ other < s.formals.length, s.IsCandidate index other → other = place

instance (index place : Nat) : Decidable (s.IsSole index place) :=
  inferInstanceAs (Decidable (_ ∧ _))

/-- The places before `...` that are taken neither by an exact name nor by a
beginning. -/
def openPlaces : List Nat :=
  (List.range s.leading).filter fun place =>
    ∀ index < s.actuals.length, ¬ s.NamesExactly index place ∧ ¬ s.IsSole index place

/-- The indices of the untagged arguments. -/
def untagged : List Nat :=
  (List.range s.actuals.length).filter fun index => s.tagAt index = none

/-- The argument and the formal have the same number among the untagged
arguments and among the open places. -/
def SameNumber (index place : Nat) : Prop :=
  ∃ number < s.openPlaces.length, s.openPlaces[number]? = some place ∧
    s.untagged[number]? = some index

instance (index place : Nat) : Decidable (s.SameNumber index place) :=
  inferInstanceAs (Decidable (∃ number < s.openPlaces.length, _))

/-- The formal at a place takes the argument at an index. -/
def Takes (index place : Nat) : Prop :=
  s.NamesExactly index place ∨ s.IsSole index place ∨ s.SameNumber index place

instance (index place : Nat) : Decidable (s.Takes index place) :=
  inferInstanceAs (Decidable (_ ∨ _))

/-- The indices of the arguments that no formal takes, in call order. -/
def untaken : List Nat :=
  (List.range s.actuals.length).filter fun index =>
    ∀ place < s.formals.length, ¬ s.Takes index place

/-- What the formal at a place receives. -/
def Receives (place : Nat) : Matched → Prop
  | .supplied value => s.nameAt place ≠ some s.dots ∧
      ∃ index tag, s.Takes index place ∧ s.actuals[index]? = some ⟨tag, some value⟩
  | .missing => s.nameAt place ≠ some s.dots ∧
      ∀ index, s.Takes index place → ∃ tag, s.actuals[index]? = some ⟨tag, none⟩
  | .dots args => s.nameAt place = some s.dots ∧ args = s.untaken.filterMap (s.actuals[·]?)

/-- No two arguments are tagged with the name of one formal. -/
def NamedOnce : Prop :=
  ∀ place i j, s.NamesExactly i place → s.NamesExactly j place → i = j

/-- No argument has two candidates. -/
def Unambiguous : Prop :=
  ∀ index p q, s.IsCandidate index p → s.IsCandidate index q → p = q

/-- No two arguments have the same sole candidate. -/
def Unshared : Prop :=
  ∀ place i j, s.IsSole i place → s.IsSole j place → i = j

/-- The tags of the arguments say which formals they are for. -/
structure Unmistaken : Prop where
  namedOnce : s.NamedOnce
  unambiguous : s.Unambiguous
  unshared : s.Unshared

/-- The tags are right, and there is a place for every argument. -/
def Matchable : Prop :=
  s.Unmistaken ∧ (s.dots ∈ s.formals.map (·.name) ∨ s.untaken = [])

/-- What an error says about a call. -/
def Explains : MatchError → Prop
  | .unused indices => s.Unmistaken ∧ s.dots ∉ s.formals.map (·.name) ∧ s.untaken ≠ [] ∧
      indices = s.untaken
  | .multipleMatch formal => ∃ place i j, s.nameAt place = some formal ∧ i ≠ j ∧
      (s.NamesExactly i place ∧ s.NamesExactly j place ∨ s.IsSole i place ∧ s.IsSole j place)
  | .ambiguous index => ∃ p q, p ≠ q ∧ s.IsCandidate index p ∧ s.IsCandidate index q

/-! ## Places and indices -/

variable {s} {index place : Nat}

/-- Only formals have names. -/
theorem lt_of_nameAt {name : Symbol} (hname : s.nameAt place = some name) :
    place < s.formals.length := by
  obtain ⟨formal, hformal, -⟩ := Option.map_eq_some_iff.mp hname
  exact (List.getElem?_eq_some_iff.mp hformal).1

/-- Only actuals have tags. -/
theorem lt_of_tagAt {tag : Symbol} (htag : s.tagAt index = some tag) :
    index < s.actuals.length := by
  obtain ⟨actual, hactual, -⟩ := Option.bind_eq_some_iff.mp htag
  exact (List.getElem?_eq_some_iff.mp hactual).1

/-- Distinct formals have distinct names. -/
theorem nameAt_inj (hdistinct : (s.formals.map (·.name)).Nodup) {name : Symbol}
    (hname : s.nameAt place = some name) (hother : s.nameAt other = some name) :
    place = other := by
  have hplace := lt_of_nameAt hname
  rw [nameAt, ← List.getElem?_map] at hname hother
  exact (List.getElem?_inj (by simpa using hplace) hdistinct).mp (hname.trans hother.symm)

/-- The leading formals are formals. -/
theorem leading_le : s.leading ≤ s.formals.length :=
  (List.takeWhile_sublist _).length_le

/-- A tag names a formal. -/
theorem NamesExactly.lt_formals (hexact : s.NamesExactly index place) :
    place < s.formals.length := by
  obtain ⟨name, hname, -⟩ := hexact
  exact lt_of_nameAt hname

/-- It is the tag of an actual. -/
theorem NamesExactly.lt_actuals (hexact : s.NamesExactly index place) :
    index < s.actuals.length := by
  obtain ⟨name, -, -, htag⟩ := hexact
  exact lt_of_tagAt htag

/-- A candidate is a formal. -/
theorem IsCandidate.lt_formals (hcandidate : s.IsCandidate index place) :
    place < s.formals.length :=
  Nat.lt_of_lt_of_le hcandidate.2.1 leading_le

/-- It is the candidate of an actual. -/
theorem IsCandidate.lt_actuals (hcandidate : s.IsCandidate index place) :
    index < s.actuals.length := by
  obtain ⟨-, -, -, tag, htag, -⟩ := hcandidate
  exact lt_of_tagAt htag

/-- The only candidate is the sole one. -/
theorem IsSole.of_candidates
    (hcandidates : ∀ other, s.IsCandidate index other ↔ other = place) :
    s.IsSole index place :=
  ⟨(hcandidates place).mpr rfl, fun other _ hother => (hcandidates other).mp hother⟩

/-- Next to the sole candidate there is no other. -/
theorem IsSole.eq (hsole : s.IsSole index place)
    (hother : s.IsCandidate index other) :
    other = place :=
  hsole.2 other hother.lt_formals hother

/-- Places and actuals of the same number are open and untagged. -/
theorem SameNumber.mem (hsame : s.SameNumber index place) :
    place ∈ s.openPlaces ∧ index ∈ s.untagged := by
  obtain ⟨number, -, hplace, hindex⟩ := hsame
  exact ⟨List.mem_of_getElem? hplace, List.mem_of_getElem? hindex⟩

/-- A place is open if it lies before the dots and no tag has taken it. -/
theorem mem_openPlaces : place ∈ s.openPlaces ↔ place < s.leading ∧
    ∀ index, ¬ s.NamesExactly index place ∧ ¬ s.IsSole index place := by
  simp only [openPlaces, List.mem_filter, List.mem_range, decide_eq_true_eq]
  refine and_congr_right fun _ => ⟨fun hopen index => ?_, fun hopen index _ => hopen index⟩
  exact ⟨fun hexact => (hopen index hexact.lt_actuals).1 hexact,
    fun hsole => (hopen index hsole.1.lt_actuals).2 hsole⟩

/-- The untagged actuals are those without a tag. -/
theorem mem_untagged :
    index ∈ s.untagged ↔ index < s.actuals.length ∧ s.tagAt index = none := by
  simp [untagged]

/-- What takes an actual is a formal. -/
theorem Takes.lt_formals (htakes : s.Takes index place) :
    place < s.formals.length := by
  rcases htakes with hexact | hsole | hsame
  · exact hexact.lt_formals
  · exact hsole.1.lt_formals
  · exact Nat.lt_of_lt_of_le (mem_openPlaces.mp hsame.mem.1).1 leading_le

/-- What is taken is an actual. -/
theorem Takes.lt_actuals (htakes : s.Takes index place) :
    index < s.actuals.length := by
  rcases htakes with hexact | hsole | hsame
  · exact hexact.lt_actuals
  · exact hsole.1.lt_actuals
  · exact (mem_untagged.mp hsame.mem.2).1

/-- The actuals that are left over are those that no formal takes. -/
theorem mem_untaken : index ∈ s.untaken ↔
    index < s.actuals.length ∧ ∀ place, ¬ s.Takes index place := by
  simp only [untaken, List.mem_filter, List.mem_range, decide_eq_true_eq]
  exact and_congr_right fun _ => ⟨fun hnone place htakes => hnone place htakes.lt_formals htakes,
    fun hnone place _ => hnone place⟩

/-- No place is listed twice. -/
theorem nodup_openPlaces : s.openPlaces.Nodup := List.nodup_range.filter _

/-- No actual is listed twice. -/
theorem nodup_untagged : s.untagged.Nodup := List.nodup_range.filter _

/-! ## One formal for an argument, one argument for a formal -/

/-- An argument is for one formal only. -/
theorem Takes.place_eq (hdistinct : (s.formals.map (·.name)).Nodup)
    (htakes : s.Takes index place) (hother : s.Takes index other) :
    place = other := by
  -- Exact names, beginnings and numbers are for different arguments: those of
  -- the first two kinds are tagged, and an argument that names a formal exactly
  -- has no candidates.
  have hexact : ∀ {p q : Nat}, s.NamesExactly index p → s.Takes index q → p = q := by
    intro p q hp hq
    obtain ⟨name, hname, hne, htag⟩ := hp
    rcases hq with ⟨name', hname', -, htag'⟩ | hsole | hsame
    · cases htag.symm.trans htag'
      exact nameAt_inj hdistinct hname hname'
    · exact absurd ⟨name, hname, hne, htag⟩ (hsole.1.1 p (lt_of_nameAt hname))
    · rw [(mem_untagged.mp hsame.mem.2).2] at htag
      cases htag
  have hsole : ∀ {p q : Nat}, s.IsSole index p → s.Takes index q → p = q := by
    intro p q hp hq
    rcases hq with hnames | hsole | hsame
    · exact (hexact hnames (.inr (.inl hp))).symm
    · exact hsole.eq hp.1
    · obtain ⟨-, -, -, tag, htag, -⟩ := hp.1
      rw [(mem_untagged.mp hsame.mem.2).2] at htag
      cases htag
  rcases htakes with hp | hp | hp
  · exact hexact hp hother
  · exact hsole hp hother
  · rcases hother with hq | hq | hq
    · exact (hexact hq (.inr (.inr hp))).symm
    · exact (hsole hq (.inr (.inr hp))).symm
    · obtain ⟨number, hlt, hplace, hindex⟩ := hp
      obtain ⟨number', hlt', hplace', hindex'⟩ := hq
      have hnumber := (List.getElem?_inj (List.getElem?_eq_some_iff.mp hindex).1 nodup_untagged).mp
        (hindex.trans hindex'.symm)
      subst hnumber
      exact Option.some.inj (hplace.symm.trans hplace')

/-- A formal takes one argument only. -/
theorem Unmistaken.index_eq (hright : s.Unmistaken)
    (htakes : s.Takes index place) (hother : s.Takes other place) :
    index = other := by
  have hexact : ∀ {i j : Nat}, s.NamesExactly i place → s.Takes j place → i = j := by
    intro i j hi hj
    rcases hj with hnames | hsole | hsame
    · exact hright.namedOnce place i j hi hnames
    · exact absurd hi (hsole.1.2.2.1 i hi.lt_actuals)
    · exact absurd hi ((mem_openPlaces.mp hsame.mem.1).2 i).1
  have hsole : ∀ {i j : Nat}, s.IsSole i place → s.Takes j place → i = j := by
    intro i j hi hj
    rcases hj with hnames | hsole | hsame
    · exact (hexact hnames (.inr (.inl hi))).symm
    · exact hright.unshared place i j hi hsole
    · exact absurd hi ((mem_openPlaces.mp hsame.mem.1).2 i).2
  rcases htakes with hi | hi | hi
  · exact hexact hi hother
  · exact hsole hi hother
  · rcases hother with hj | hj | hj
    · exact (hexact hj (.inr (.inr hi))).symm
    · exact (hsole hj (.inr (.inr hi))).symm
    · obtain ⟨number, hlt, hplace, hindex⟩ := hi
      obtain ⟨number', hlt', hplace', hindex'⟩ := hj
      have hnumber := (List.getElem?_inj hlt nodup_openPlaces).mp (hplace.trans hplace'.symm)
      subst hnumber
      exact Option.some.inj (hindex.symm.trans hindex')

end Setting

end LazyDispatch.Matching

namespace LazyDispatch

/-- The formals of a function and the arguments of a call, in a state of an
interpreter. -/
def Interpreter.setting (state : Interpreter) (formals : List Formal)
    (args : List Arg) :
    Matching.Setting :=
  ⟨state.symbolName, state.reserved.dots, formals, args⟩

end LazyDispatch
