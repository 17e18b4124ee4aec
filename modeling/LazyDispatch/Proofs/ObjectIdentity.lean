import LazyDispatch.Eval.Identity
import LazyDispatch.Proofs.LinkPaths
import LazyDispatch.Proofs.Steps
import Mathlib

/-!
# Identity is an equivalence

Two references are identical if they are equal, or if their objects agree and
the parts of the objects are identical in turn: the values of attributes with
the same name, and the items of lists at the same place.  `Heap.Identical` is
the least relation of this kind.

The comparison is not symmetric in form: it goes through the attributes of the
first object only, and a double need not be equal to itself.  The relation is
symmetric all the same if the attributes of each object have distinct names,
since then as many names on both sides means the same names (`partPairs_swap`).
It is transitive without any condition.

If objects are not parts of themselves, the comparison comes to an end and
decides the relation (`decides_identicalWithin`): each comparison of parts takes
the first object further down.
-/

namespace LazyDispatch

/-! ## Equality of payloads -/

/-- Equality of doubles is symmetric and transitive.  It is not reflexive: what
is not a number is unequal to itself. -/
instance partialEquivBEqFloat : PartialEquivBEq Float where
  symm := by
    intro x y hxy
    have hunpacked : x.toModel.unpack.beq y.toModel.unpack = true := hxy
    show y.toModel.unpack.beq x.toModel.unpack = true
    rw [Float.Model.UnpackedFloat.beq_iff_ne_notANumber_and_eq] at hunpacked ⊢
    grind
  trans := by
    intro x y z hxy hyz
    have hfirst : x.toModel.unpack.beq y.toModel.unpack = true := hxy
    have hsecond : y.toModel.unpack.beq z.toModel.unpack = true := hyz
    show x.toModel.unpack.beq z.toModel.unpack = true
    rw [Float.Model.UnpackedFloat.beq_iff_ne_notANumber_and_eq] at hfirst hsecond ⊢
    grind

/-- Lists are compared item by item. -/
instance partialEquivBEqList {α : Type} [BEq α] [PartialEquivBEq α] : PartialEquivBEq (List α) where
  symm := by
    intro xs
    induction xs with
    | nil =>
        intro ys hxs
        cases ys with
        | nil => rfl
        | cons y ys => cases hxs
    | cons x xs ih =>
        intro ys hxs
        cases ys with
        | nil => cases hxs
        | cons y ys =>
            rw [List.cons_beq_cons, Bool.and_eq_true] at hxs ⊢
            exact ⟨PartialEquivBEq.symm hxs.1, ih hxs.2⟩
  trans := by
    intro xs
    induction xs with
    | nil =>
        intro ys zs hxs hys
        cases ys with
        | nil => exact hys
        | cons y ys => cases hxs
    | cons x xs ih =>
        intro ys zs hxs hys
        cases ys with
        | nil => cases hxs
        | cons y ys =>
            cases zs with
            | nil => cases hys
            | cons z zs =>
                rw [List.cons_beq_cons, Bool.and_eq_true] at hxs hys ⊢
                exact ⟨PartialEquivBEq.trans hxs.1 hys.1, ih hxs.2 hys.2⟩

namespace Object

/-- Payloads agree, apart from the items of lists. -/
inductive Alike : Object → Object → Prop
  | null : Alike .null .null
  | logical {xs ys : List Bool} (hsame : (xs == ys) = true) : Alike (.logical xs) (.logical ys)
  | integer {xs ys : List Int64} (hsame : (xs == ys) = true) : Alike (.integer xs) (.integer ys)
  | double {xs ys : List Float} (hsame : (xs == ys) = true) : Alike (.double xs) (.double ys)
  | character {xs ys : List String} (hsame : (xs == ys) = true) :
      Alike (.character xs) (.character ys)
  | symbol (name : Symbol) : Alike (.symbol name) (.symbol name)
  | builtin (fn : Builtin) : Alike (.builtin fn) (.builtin fn)
  | list {xs ys : List Ref} (hlength : xs.length = ys.length) : Alike (.list xs) (.list ys)
  | closure {x y : Closure} (henv : x.env = y.env) (hbody : x.body.site = y.body.site)
      (hformals : x.formalsSite = y.formalsSite) : Alike (.closure x) (.closure y)
  | language {x y : Expr} (hsite : x.site = y.site) : Alike (.language x) (.language y)

variable {x y z : Object}

/-- The test of payloads decides likeness. -/
theorem samePayload_iff_alike : x.samePayload y = true ↔ x.Alike y := by
  constructor
  · intro hsame
    unfold samePayload at hsame
    split at hsame
    · exact .null
    · exact .logical hsame
    · exact .integer hsame
    · exact .double hsame
    · exact .character hsame
    · cases of_decide_eq_true hsame
      exact .symbol _
    · cases of_decide_eq_true hsame
      exact .builtin _
    · exact .list (of_decide_eq_true hsame)
    · rw [Bool.and_eq_true, Bool.and_eq_true, decide_eq_true_eq, decide_eq_true_eq,
        decide_eq_true_eq] at hsame
      exact .closure hsame.1.1 hsame.1.2 hsame.2
    · exact .language (of_decide_eq_true hsame)
    · cases hsame
  · intro halike
    cases halike <;> simp_all [samePayload]

/-- Likeness is symmetric. -/
theorem Alike.symm (halike : x.Alike y) : y.Alike x := by
  cases halike with
  | null => exact .null
  | logical hsame => exact .logical (PartialEquivBEq.symm hsame)
  | integer hsame => exact .integer (PartialEquivBEq.symm hsame)
  | double hsame => exact .double (PartialEquivBEq.symm hsame)
  | character hsame => exact .character (PartialEquivBEq.symm hsame)
  | symbol name => exact .symbol name
  | builtin fn => exact .builtin fn
  | list hlength => exact .list hlength.symm
  | closure henv hbody hformals => exact .closure henv.symm hbody.symm hformals.symm
  | language hsite => exact .language hsite.symm

/-- Likeness is transitive. -/
theorem Alike.trans (hxy : x.Alike y) (hyz : y.Alike z) : x.Alike z := by
  cases hxy with
  | null => exact hyz
  | logical hsame =>
      cases hyz with
      | logical hnext => exact .logical (PartialEquivBEq.trans hsame hnext)
  | integer hsame =>
      cases hyz with
      | integer hnext => exact .integer (PartialEquivBEq.trans hsame hnext)
  | double hsame =>
      cases hyz with
      | double hnext => exact .double (PartialEquivBEq.trans hsame hnext)
  | character hsame =>
      cases hyz with
      | character hnext => exact .character (PartialEquivBEq.trans hsame hnext)
  | symbol name => exact hyz
  | builtin fn => exact hyz
  | list hlength =>
      cases hyz with
      | list hnext => exact .list (hlength.trans hnext)
  | closure henv hbody hformals =>
      cases hyz with
      | closure hnext hlater hlast =>
          exact .closure (henv.trans hnext) (hbody.trans hlater) (hformals.trans hlast)
  | language hsite =>
      cases hyz with
      | language hnext => exact .language (hsite.trans hnext)

/-- The items of a list; other payloads have none. -/
def items : Object → List Ref
  | list items => items
  | _ => []

/-- Items at the same place are there only in two lists. -/
theorem zip_items_eq_nil (hlists : ∀ xs ys, x = .list xs → y = .list ys → False)
    :
    x.items.zip y.items = [] := by
  cases x with
  | list xs =>
      cases y with
      | list ys => exact (hlists xs ys rfl rfl).elim
      | _ => exact List.zip_nil_right
  | _ => rfl

/-- Payloads that are alike have as many elements. -/
theorem Alike.length_items (halike : x.Alike y) :
    x.items.length = y.items.length := by
  cases halike with
  | list hlength => exact hlength
  | _ => rfl

end Object

/-! ## Parts -/

namespace HeapObject

variable {x y z : HeapObject} {name : Symbol} {value p q r : Ref}

/-- The names of the attributes. -/
def attributeNames (object : HeapObject) : List Symbol :=
  object.attributes.map (·.1)

/-- The values of attributes and the items of a list. -/
def parts (object : HeapObject) : List Ref :=
  object.attributes.map (·.2) ++ object.payload.items

/-- Which parts of two objects are compared with each other: values of
attributes with the same name, and items at the same place. -/
def partPairs (x y : HeapObject) : List (Ref × Ref) :=
  (x.attributes.filterMap fun entry => (y.attribute? entry.1).map (entry.2, ·)) ++
    x.payload.items.zip y.payload.items

/-- Two objects agree apart from their parts: they have as many attributes, the
second one has those of the first one, and their payloads agree. -/
structure Agrees (x y : HeapObject) : Prop where
  count : x.attributes.length = y.attributes.length
  names : x.attributeNames ⊆ y.attributeNames
  payload : x.payload.Alike y.payload

/-- An attribute that is found is there. -/
theorem mem_attributes_of_attribute? (hvalue : x.attribute? name = some value) :
    (name, value) ∈ x.attributes := by
  obtain ⟨before, rest, hentries, -⟩ := List.lookup_eq_some_iff.mp hvalue
  rw [hentries]
  exact List.mem_append_right _ List.mem_cons_self

/-- The value of an attribute is a part. -/
theorem mem_parts_of_attribute (hmem : (name, value) ∈ x.attributes) :
    value ∈ x.parts :=
  List.mem_append_left _ (List.mem_map_of_mem hmem)

/-- An element of a list is a part. -/
theorem mem_parts_of_item (hmem : value ∈ x.payload.items) : value ∈ x.parts :=
  List.mem_append_right _ hmem

/-- A name is found if it is among the names. -/
theorem exists_attribute?_iff :
    (∃ value, x.attribute? name = some value) ↔ name ∈ x.attributeNames := by
  rw [← Option.isSome_iff_exists, attribute?, List.lookup_isSome_iff, attributeNames, List.mem_map]
  simp only [beq_iff_eq, @eq_comm Symbol name]

/-- Where names are distinct, each attribute is the one that is found. -/
theorem attribute?_of_mem (hdistinct : x.attributeNames.Nodup)
    (hmem : (name, value) ∈ x.attributes) :
    x.attribute? name = some value := by
  obtain ⟨other, hother⟩ := exists_attribute?_iff.mpr (List.mem_map_of_mem hmem)
  have hsame := List.inj_on_of_nodup_map hdistinct hmem (mem_attributes_of_attribute? hother) rfl
  rw [hother, (Prod.mk.inj hsame).2]

/-- Parts are compared by the name of an attribute or the place in a list. -/
theorem mem_partPairs : (p, q) ∈ x.partPairs y ↔
    (∃ name, (name, p) ∈ x.attributes ∧ y.attribute? name = some q) ∨
      ∃ place : Nat, x.payload.items[place]? = some p ∧ y.payload.items[place]? = some q := by
  rw [partPairs, List.mem_append, List.mem_filterMap, List.mem_iff_getElem?]
  simp only [List.getElem?_zip_eq_some, Prod.exists, Option.map_eq_some_iff, Prod.mk.injEq]
  grind

/-- With distinct names, as many names that are all among the others are the
same names. -/
theorem Agrees.symm (hagrees : x.Agrees y) (hdistinct : x.attributeNames.Nodup)
    : y.Agrees x := by
  have hlength : y.attributeNames.length ≤ x.attributeNames.length := by
    rw [attributeNames, attributeNames, List.length_map, List.length_map, hagrees.count]
  have hperm := (List.subperm_of_subset hdistinct hagrees.names).perm_of_length_le hlength
  exact ⟨hagrees.count.symm, hperm.symm.subset, hagrees.payload.symm⟩

/-- Agreement on all but the parts is transitive. -/
theorem Agrees.trans (hxy : x.Agrees y) (hyz : y.Agrees z) : x.Agrees z :=
  ⟨hxy.count.trans hyz.count, List.Subset.trans hxy.names hyz.names, hxy.payload.trans hyz.payload⟩

/-- With distinct names, the pairs of the one side are those of the other. -/
theorem partPairs_swap (hdistinct : y.attributeNames.Nodup)
    (hmem : (q, p) ∈ y.partPairs x) :
    (p, q) ∈ x.partPairs y := by
  rw [mem_partPairs] at hmem ⊢
  rcases hmem with ⟨name, hq, hp⟩ | ⟨place, hq, hp⟩
  · exact Or.inl ⟨name, mem_attributes_of_attribute? hp, attribute?_of_mem hdistinct hq⟩
  · exact Or.inr ⟨place, hp, hq⟩

/-- Parts are compared by way of the parts of a third object that agrees. -/
theorem exists_partPairs (hagrees : x.Agrees y) (hmem : (p, r) ∈ x.partPairs z)
    :
    ∃ q, (p, q) ∈ x.partPairs y ∧ (q, r) ∈ y.partPairs z := by
  simp only [mem_partPairs] at hmem ⊢
  rcases hmem with ⟨name, hp, hr⟩ | ⟨place, hp, hr⟩
  · obtain ⟨q, hq⟩ := exists_attribute?_iff.mpr (hagrees.names (List.mem_map_of_mem hp))
    exact ⟨q, Or.inl ⟨name, hp, hq⟩, Or.inl ⟨name, mem_attributes_of_attribute? hq, hr⟩⟩
  · obtain ⟨hplace, -⟩ := List.getElem?_eq_some_iff.mp hp
    have hother : place < y.payload.items.length := hagrees.payload.length_items ▸ hplace
    have hq := List.getElem?_eq_getElem hother
    exact ⟨_, Or.inr ⟨place, hp, hq⟩, Or.inr ⟨place, hq, hr⟩⟩

end HeapObject

/-! ## The relation -/

namespace Heap

variable {heap : Heap} {a b c : Ref} {x y : HeapObject}

/-- Two references are identical: they are equal, or their objects agree and so
do their parts. -/
inductive Identical (heap : Heap) : Ref → Ref → Prop
  | same (ref : Ref) : Identical heap ref ref
  | alike {a b : Ref} {x y : HeapObject} (hx : heap.get? a = some x) (hy : heap.get? b = some y)
      (hagrees : x.Agrees y) (hparts : ∀ pair ∈ x.partPairs y, Identical heap pair.1 pair.2) :
      Identical heap a b

/-- The attributes of each object have distinct names. -/
def DistinctNames (heap : Heap) : Prop :=
  ∀ ref object, heap.get? ref = some object → object.attributeNames.Nodup

/-- Identity is symmetric; the induction is on its derivation. -/
theorem Identical.symm (hdistinct : heap.DistinctNames)
    (hab : heap.Identical a b) :
    heap.Identical b a := by
  induction hab with
  | same ref => exact .same ref
  | alike hx hy hagrees _ ih =>
      apply Identical.alike hy hx (hagrees.symm (hdistinct _ _ hx))
      intro pair hpair
      exact ih pair.swap (HeapObject.partPairs_swap (hdistinct _ _ hy) hpair)

/-- Identity is transitive, likewise. -/
theorem Identical.trans (hab : heap.Identical a b) (hbc : heap.Identical b c) :
    heap.Identical a c := by
  induction hab generalizing c with
  | same _ => exact hbc
  | alike hx hy hagrees hparts ih =>
      cases hbc with
      | same _ => exact .alike hx hy hagrees hparts
      | alike hsame hz hnext hlater =>
          cases hy.symm.trans hsame
          apply Identical.alike hx hz (hagrees.trans hnext)
          intro pair hpair
          obtain ⟨q, hfirst, hsecond⟩ := HeapObject.exists_partPairs hagrees hpair
          exact ih (pair.1, q) hfirst (hlater (q, pair.2) hsecond)

/-- What it takes for different references to be identical. -/
theorem identical_iff_of_ne (hne : a ≠ b) (hx : heap.get? a = some x) (hy : heap.get? b = some y) :
    heap.Identical a b ↔ x.attributes.length = y.attributes.length ∧
      (∀ entry ∈ x.attributes, ∃ other, y.attribute? entry.1 = some other ∧
        heap.Identical entry.2 other) ∧
      x.payload.samePayload y.payload = true ∧
      ∀ pair ∈ x.payload.items.zip y.payload.items, heap.Identical pair.1 pair.2 := by
  constructor
  · intro hab
    cases hab with
    | same _ => exact absurd rfl hne
    | alike hx' hy' hagrees hparts =>
        cases hx.symm.trans hx'
        cases hy.symm.trans hy'
        refine ⟨hagrees.count, ?_, Object.samePayload_iff_alike.mpr hagrees.payload, ?_⟩
        · intro entry hentry
          obtain ⟨other, hother⟩ := HeapObject.exists_attribute?_iff.mpr
            (hagrees.names (List.mem_map_of_mem hentry))
          exact ⟨other, hother, hparts (entry.2, other)
            (HeapObject.mem_partPairs.mpr (Or.inl ⟨entry.1, hentry, hother⟩))⟩
        · exact fun pair hpair => hparts pair (List.mem_append_right _ hpair)
  · intro hall
    obtain ⟨hcount, hattributes, hpayload, hitems⟩ := hall
    refine .alike hx hy ⟨hcount, ?_, Object.samePayload_iff_alike.mp hpayload⟩ ?_
    · intro name hname
      obtain ⟨entry, hentry, rfl⟩ := List.mem_map.mp hname
      obtain ⟨other, hother, -⟩ := hattributes entry hentry
      exact HeapObject.exists_attribute?_iff.mp ⟨other, hother⟩
    · intro pair hpair
      rcases List.mem_append.mp hpair with hmem | hmem
      · obtain ⟨entry, hentry, hpaired⟩ := List.mem_filterMap.mp hmem
        obtain ⟨other, hother, rfl⟩ := Option.map_eq_some_iff.mp hpaired
        obtain ⟨found, hfound, hidentical⟩ := hattributes entry hentry
        cases hother.symm.trans hfound
        exact hidentical
      · exact hitems pair hmem

end Heap

/-! ## The comparison -/

/-- A query answers a question. -/
def Query.Decides (query : Query Bool) (state : Interpreter) (p : Prop) :
    Prop :=
  ∃ answer, query state = .ok answer ∧ (answer = true ↔ p)

namespace Query.Decides

variable {state : Interpreter} {p q : Prop} {first next : Query Bool} {α : Type}

/-- An answer of yes decides what holds. -/
theorem of_true (hp : p) : Query.Decides (pure true) state p :=
  ⟨true, rfl, fun _ => hp, fun _ => rfl⟩

/-- An answer of no decides what does not. -/
theorem of_false (hp : ¬p) : Query.Decides (pure false) state p :=
  ⟨false, rfl, nofun, fun hyes => absurd hyes hp⟩

/-- What is decided may be put another way. -/
theorem congr (hfirst : first.Decides state p) (hpq : p ↔ q) :
    first.Decides state q := by
  obtain ⟨answer, hok, hanswer⟩ := hfirst
  exact ⟨answer, hok, hanswer.trans hpq⟩

/-- A query that goes on with what it has read. -/
theorem bind {query : Query α} {value : α} {next : α → Query Bool}
    (hok : query state = .ok value) (hnext : (next value).Decides state p) :
    (query >>= next).Decides state p := by
  obtain ⟨answer, hanswer, hiff⟩ := hnext
  exact ⟨answer, (Query.bind_of_ok hok).trans hanswer, hiff⟩

/-- A second question is put only if the first one is answered with yes. -/
theorem guard (answer : Bool) (hnext : next.Decides state q) :
    Query.Decides (if !answer then return false else next) state (answer = true ∧ q) := by
  cases answer with
  | true => exact hnext.congr (by simp)
  | false => exact of_false (by simp)

/-- A test before a test decides both. -/
theorem and (hfirst : first.Decides state p) (hnext : next.Decides state q) :
    Query.Decides (do if !(← first) then return false else next) state (p ∧ q) := by
  obtain ⟨answer, hok, hanswer⟩ := hfirst
  exact bind hok ((guard answer hnext).congr (by rw [hanswer]))

/-- A question is put about each item in turn. -/
theorem allM {f : α → Query Bool} {about : α → Prop} {items : List α}
    (hitems : ∀ item ∈ items, (f item).Decides state (about item)) :
    Query.Decides (items.allM f) state (∀ item ∈ items, about item) := by
  induction items with
  | nil => exact of_true nofun
  | cons item items ih =>
      obtain ⟨hitem, hrest⟩ := List.forall_mem_cons.mp hitems
      obtain ⟨answer, hok, hanswer⟩ := hitem
      rw [List.allM_cons]
      apply bind hok
      cases answer with
      | true => exact (ih hrest).congr (by simp [hanswer.mp rfl])
      | false =>
          exact of_false fun hall =>
            absurd (hanswer.mpr (hall item List.mem_cons_self)) Bool.false_ne_true

end Query.Decides

namespace Heap

/-- An object has another one as a part. -/
def HasPart (heap : Heap) (ref part : Ref) : Prop :=
  ∃ object, heap.get? ref = some object ∧ part ∈ object.parts

/-- References resolve, attributes have distinct names, and nothing is a part of
itself. -/
structure Comparable (heap : Heap) : Prop where
  closed : ∀ ref object, heap.get? ref = some object → ∀ other ∈ object.edges,
    heap.isLive other = true
  distinct : heap.DistinctNames
  acyclic : Acyclic heap.HasPart

/-- The tracer follows every part. -/
theorem parts_subset_edges (object : HeapObject) :
    object.parts ⊆ object.edges := by
  have hitems : object.payload.items ⊆ object.payload.edges := by
    cases object.payload <;> simp [Object.items, Object.edges]
  intro part hpart
  rcases List.mem_append.mp hpart with hvalue | hitem
  · exact List.mem_append_left _ hvalue
  · exact List.mem_append_right _ (hitems hitem)

/-- The parts of comparable objects are live. -/
theorem Comparable.isLive_part {heap : Heap} (hheap : heap.Comparable)
    {ref part : Ref} (hpart : heap.HasPart ref part) :
    heap.isLive part = true := by
  obtain ⟨object, hget, hmem⟩ := hpart
  exact hheap.closed ref object hget part (parts_subset_edges object hmem)

end Heap

namespace Eval

variable {state : Interpreter} {a b : Ref}

/-- **The comparison decides identity**, if it has fuel for the way down from
the first object. -/
theorem decides_identicalWithin (hheap : state.heap.Comparable) {steps : Nat}
    (hends : Heap.EndsWithin state.heap.HasPart steps a)
    (ha : state.heap.isLive a = true) (hb : state.heap.isLive b = true) :
    (identicalWithin steps a b).Decides state (state.heap.Identical a b) := by
  induction hends generalizing b with
  | @step steps a hnext ih =>
      obtain ⟨x, hx⟩ := Option.isSome_iff_exists.mp ha
      obtain ⟨y, hy⟩ := Option.isSome_iff_exists.mp hb
      have hpart : ∀ p ∈ x.parts, ∀ q ∈ y.parts,
          (identicalWithin steps p q).Decides state (state.heap.Identical p q) := by
        intro p hp q hq
        have hparts : state.heap.HasPart a p := ⟨x, hx, hp⟩
        exact ih p hparts (hheap.isLive_part hparts) (hheap.isLive_part ⟨y, hy, hq⟩)
      unfold identicalWithin
      by_cases hab : a = b
      · rw [if_pos hab]
        exact .of_true (hab ▸ .same a)
      · rw [if_neg hab]
        apply Query.Decides.bind (fetch_eq_ok_iff.mpr hx)
        apply Query.Decides.bind (fetch_eq_ok_iff.mpr hy)
        apply Query.Decides.congr ?_ (Heap.identical_iff_of_ne hab hx hy).symm
        by_cases hcount : x.attributes.length = y.attributes.length
        · rw [if_neg (not_not.mpr hcount)]
          apply Query.Decides.congr ?_ (and_iff_right hcount).symm
          apply Query.Decides.and
          · apply Query.Decides.allM
            intro entry hentry
            obtain ⟨name, value⟩ := entry
            dsimp only
            cases hother : y.attribute? name with
            | none =>
                apply Query.Decides.of_false
                intro hsome
                obtain ⟨other, hsame, -⟩ := hsome
                cases hsame
            | some other =>
                have hvalue := HeapObject.mem_parts_of_attribute hentry
                have hpaired := HeapObject.mem_parts_of_attribute
                  (HeapObject.mem_attributes_of_attribute? hother)
                exact (hpart value hvalue other hpaired).congr (by simp)
          · apply Query.Decides.guard
            split
            · next xs ys hxs hys =>
                rw [hxs, hys]
                apply Query.Decides.allM
                intro pair hpair
                obtain ⟨hp, hq⟩ := List.of_mem_zip hpair
                have hfirst : pair.1 ∈ x.parts := HeapObject.mem_parts_of_item (hxs ▸ hp)
                have hsecond : pair.2 ∈ y.parts := HeapObject.mem_parts_of_item (hys ▸ hq)
                exact hpart pair.1 hfirst pair.2 hsecond
            · next hlists =>
                apply Query.Decides.of_true
                rw [Object.zip_items_eq_nil hlists]
                exact nofun
        · rw [if_pos hcount]
          exact .of_false fun hall => hcount hall.1

/-- As much depth as there are cells is enough. -/
theorem decides_identicalWithin_of_live (hheap : state.heap.Comparable)
    (ha : state.heap.isLive a = true) (hb : state.heap.isLive b = true)
    {depth : Nat} (hdepth : state.heap.totalCells ≤ depth) :
    (identicalWithin depth a b).Decides state (state.heap.Identical a b) := by
  have hends := hheap.acyclic.endsWithin (fun _ _ hpart => hheap.isLive_part hpart) ha
  exact decides_identicalWithin hheap (hends.mono hdepth) ha hb

/-- **Identity is an equivalence.**  If all references resolve, attributes have
distinct names, and no object is a part of itself, then the comparison of any
two objects comes to an end by itself, whatever further fuel it has.  Its answer
is yes exactly if the objects agree all the way down, and this is an
equivalence. -/
theorem identity_is_equivalence (hheap : state.heap.Comparable) :
    (∀ a b, state.heap.isLive a = true → state.heap.isLive b = true →
      ∃ answer, identicalObjects a b state = .ok answer ∧
        (∀ depth, state.heap.totalCells ≤ depth → identicalWithin depth a b state = .ok answer) ∧
        (answer = true ↔ state.heap.Identical a b)) ∧
    Equivalence fun a b : { ref // state.heap.isLive ref = true } =>
      identicalObjects a b state = .ok true := by
  have hwalk : ∀ a b, identicalObjects a b state =
      identicalWithin (state.heap.totalCells + 1) a b state := fun _ _ => rfl
  have hdecides : ∀ {a b}, state.heap.isLive a = true → state.heap.isLive b = true →
      (identicalObjects a b state = .ok true ↔ state.heap.Identical a b) := by
    intro a b ha hb
    obtain ⟨answer, hok, hanswer⟩ := decides_identicalWithin_of_live hheap ha hb (Nat.le_succ _)
    rw [hwalk, hok, ← hanswer, Except.ok.injEq]
  refine ⟨?_, ?_, ?_, ?_⟩
  · intro a b ha hb
    obtain ⟨answer, hok, hanswer⟩ := decides_identicalWithin_of_live hheap ha hb (Nat.le_succ _)
    refine ⟨answer, hok, ?_, hanswer⟩
    intro depth hdepth
    obtain ⟨other, hother, hsame⟩ := decides_identicalWithin_of_live hheap ha hb hdepth
    rw [hother, Bool.eq_iff_iff.mpr (hsame.trans hanswer.symm)]
  · intro a
    exact (hdecides a.2 a.2).mpr (.same a.1)
  · intro a b hab
    exact (hdecides b.2 a.2).mpr (((hdecides a.2 b.2).mp hab).symm hheap.distinct)
  · intro a b c hab hbc
    exact (hdecides a.2 c.2).mpr (((hdecides a.2 b.2).mp hab).trans ((hdecides b.2 c.2).mp hbc))

end Eval

/-! ## Two lists that are identical -/

section Witness

open Eval

/-- Whether references resolve, names are distinct, and parts lie at lower
places. -/
def Heap.comparesDownward (heap : Heap) : Bool :=
  heap.refs.all fun ref =>
    (heap.get? ref).all fun object =>
      object.edges.all heap.isLive && object.attributeNames.Nodup &&
        object.parts.all (·.index.toNat < ref.index.toNat)

/-- The check of a heap is right. -/
theorem Heap.comparable_of_comparesDownward {heap : Heap}
    (hcheck : heap.comparesDownward = true) :
    heap.Comparable := by
  have hall : ∀ ref object, heap.get? ref = some object →
      (∀ other ∈ object.edges, heap.isLive other = true) ∧ object.attributeNames.Nodup ∧
        ∀ part ∈ object.parts, part.index.toNat < ref.index.toNat := by
    intro ref object hget
    have href := List.all_eq_true.mp hcheck ref (Heap.mem_refs_of_get? hget)
    simp only [hget, Option.all_some, Bool.and_eq_true, List.all_eq_true, decide_eq_true_eq] at href
    exact ⟨href.1.1, href.1.2, href.2⟩
  refine ⟨fun ref object hget => (hall ref object hget).1,
    fun ref object hget => (hall ref object hget).2.1,
    Heap.acyclic_of_descends (·.index.toNat) ?_⟩
  intro ref part hpart
  obtain ⟨object, hget, hmem⟩ := hpart
  exact (hall ref object hget).2.2 part hmem

/-- Makes two lists that share an item that is not a number.  Their other items
are equal, and their attributes stand in opposite order. -/
def makeAlike : Eval (Ref × Ref) := do
  let state ← get
  let nan ← allocPayload (.double [0 / 0])
  let one ← allocPayload (.double [1])
  let other ← allocPayload (.double [1])
  let label ← allocStrings ["a", "b"]
  let copy ← allocStrings ["a", "b"]
  let first ← allocate
    ⟨.list [nan, one], [(state.reserved.names, label), (state.reserved.cls, copy)]⟩
  let second ← allocate
    ⟨.list [nan, other], [(state.reserved.cls, label), (state.reserved.names, copy)]⟩
  return (first, second)

/-- Whether two different objects can be compared, and the answer is yes. -/
def comparesAlike (made : Ref × Ref) (state : Interpreter) : Bool :=
  state.heap.comparesDownward && state.heap.isLive made.1 && state.heap.isLive made.2 &&
    made.1 ≠ made.2 && (identicalObjects made.1 made.2 state).toOption = some true

set_option maxRecDepth 1000000 in
/-- Two lists that are alike but not the same object. -/
theorem exists_makeAlike : ∃ start first second state,
    Interpreter.start smallConfig .empty = .ok start ∧
    makeAlike start = .ok (first, second) state ∧ state.heap.Comparable ∧
    state.heap.isLive first = true ∧ state.heap.isLive second = true ∧
    first ≠ second ∧
    identicalObjects first second state = .ok true := by
  have hcheck : freshPasses makeAlike comparesAlike = true := by decide +kernel
  obtain ⟨start, ⟨first, second⟩, state, hstart, hmade, htest⟩ := exists_of_freshPasses hcheck
  simp only [comparesAlike, Bool.and_eq_true, decide_eq_true_eq] at htest
  obtain ⟨⟨⟨⟨hcompares, hfirst⟩, hsecond⟩, hne⟩, hanswer⟩ := htest
  refine ⟨start, first, second, state, hstart, hmade, Heap.comparable_of_comparesDownward hcompares,
    hfirst, hsecond, hne, ?_⟩
  cases hrun : identicalObjects first second state with
  | ok answer =>
      rw [hrun] at hanswer
      cases hanswer
      rfl
  | error stop =>
      rw [hrun] at hanswer
      cases hanswer

/-- The lists are identical in either order, and each to itself, though they
hold what is not a number. -/
theorem identity_is_equivalence_makeAlike : ∃ start first second state,
    Interpreter.start smallConfig .empty = .ok start ∧
    makeAlike start = .ok (first, second) state ∧ state.heap.Comparable ∧ first ≠ second ∧
    identicalObjects first second state = .ok true ∧
    identicalObjects second first state = .ok true ∧
    identicalObjects first first state = .ok true ∧ state.heap.Identical second first := by
  obtain ⟨start, first, second, state, hstart, hmade, hheap, hfirst, hsecond, hne, hanswer⟩ :=
    exists_makeAlike
  obtain ⟨hdecides, hequiv⟩ := identity_is_equivalence hheap
  have hback : identicalObjects second first state = .ok true :=
    hequiv.symm (show identicalObjects (⟨first, hfirst⟩ : { ref // state.heap.isLive ref = true }).1
      (⟨second, hsecond⟩ : { ref // state.heap.isLive ref = true }).1 state = .ok true from hanswer)
  obtain ⟨answer, hrun, -, hiff⟩ := hdecides second first hsecond hfirst
  rw [hback] at hrun
  cases hrun
  exact ⟨start, first, second, state, hstart, hmade, hheap, hne, hanswer, hback,
    hequiv.refl ⟨first, hfirst⟩, hiff.mp rfl⟩

end Witness

end LazyDispatch
