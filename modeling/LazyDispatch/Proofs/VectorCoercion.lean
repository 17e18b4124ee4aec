import LazyDispatch.Coercion
import Mathlib.Data.List.Basic

/-!
# One coercion of elements

Four functions read the elements of an object as elements of one kind of vector,
and each of them skips an object that it does not expect.  Here is what they
have in common.  An object consists of elements (`Object.elements`), an element
is coerced to a kind (`Element.coerce`), and objects that are put together come
to their coerced elements in order (`Object.exists_concat`), as long as no
object is wider than the kind.  The widest kind among the objects is wide
enough.

Up to doubles it makes no difference if an element is first coerced to a kind
between (`Element.coerce_coerce`).  For text it does: the text of a logical
value is not that of its integer.
-/

namespace LazyDispatch

/-! ## Kinds -/

namespace Mode

/-- The widest of some kinds, or the narrowest one of all if there are none. -/
structure IsWidest (kinds : List Mode) (mode : Mode) : Prop where
  bound : ∀ kind ∈ kinds, kind.rank ≤ mode.rank
  attained : mode = null ∨ mode ∈ kinds

variable {a b mode other : Mode} {kinds : List Mode}

/-- A kind that is at least as wide as all of them is at least as wide as the
widest one. -/
theorem IsWidest.rank_le (hwidest : IsWidest kinds mode)
    (hbound : ∀ kind ∈ kinds, kind.rank ≤ other.rank) :
    mode.rank ≤ other.rank := by
  rcases hwidest.attained with hnull | hmem
  · rw [hnull]
    exact Nat.zero_le _
  · exact hbound mode hmem

theorem ne_list_of_rank_le (hle : mode.rank ≤ double.rank) : mode ≠ list := by
  intro heq
  rw [heq] at hle
  exact absurd hle (by decide)

theorem rank_le_wider_left : a.rank ≤ (a.wider b).rank := by
  unfold wider
  split
  · assumption
  · exact Nat.le_refl _

theorem rank_le_wider_right : b.rank ≤ (a.wider b).rank := by
  unfold wider
  split
  · exact Nat.le_refl _
  · omega

theorem wider_eq_or : a.wider b = a ∨ a.wider b = b := by
  unfold wider
  split
  · exact Or.inr rfl
  · exact Or.inl rfl

theorem null_wider (mode : Mode) : null.wider mode = mode :=
  if_pos (Nat.zero_le _)

/-- The widest kind is found step by step. -/
theorem isWidest_foldl (kinds : List Mode) (start : Mode) :
    start.rank ≤ (kinds.foldl wider start).rank ∧
      (∀ kind ∈ kinds, kind.rank ≤ (kinds.foldl wider start).rank) ∧
      (kinds.foldl wider start = start ∨ kinds.foldl wider start ∈ kinds) := by
  induction kinds generalizing start with
  | nil => exact ⟨Nat.le_refl _, nofun, Or.inl rfl⟩
  | cons kind kinds ih =>
      obtain ⟨hstart, hbound, hattained⟩ := ih (start.wider kind)
      rw [List.foldl_cons]
      refine ⟨Nat.le_trans rank_le_wider_left hstart, ?_, ?_⟩
      · exact List.forall_mem_cons.mpr ⟨Nat.le_trans rank_le_wider_right hstart, hbound⟩
      · rcases hattained with heq | hmem
        · rw [heq]
          rcases wider_eq_or (a := start) (b := kind) with hleft | hright
          · exact Or.inl hleft
          · exact Or.inr (List.mem_cons.mpr (Or.inl hright))
        · exact Or.inr (List.mem_cons_of_mem _ hmem)

end Mode

namespace Object

theorem widestMode_eq_foldl (objects : List Object) :
    widestMode objects = (objects.map mode).foldl Mode.wider .null :=
  (List.foldl_map).symm

theorem isWidest_widestMode (objects : List Object) :
    Mode.IsWidest (objects.map mode) (widestMode objects) := by
  rw [widestMode_eq_foldl]
  exact ⟨(Mode.isWidest_foldl _ _).2.1, (Mode.isWidest_foldl _ _).2.2⟩

/-- A vector of the widest kind stands for the objects that it was put together
from. -/
theorem widestMode_cons_of_mode {inner : Object} {objects : List Object}
    (hinner : inner.mode = widestMode objects) (others : List Object) :
    widestMode (inner :: others) = widestMode (objects ++ others) := by
  rw [widestMode, List.foldl_cons, Mode.null_wider, hinner, widestMode,
    widestMode, List.foldl_append]

end Object

/-! ## Elements -/

/-- What objects consist of when they are put together. -/
inductive Element where
  | logical (b : Bool)
  | integer (i : Int64)
  | double (d : Float)
  | text (s : String)
  /-- An object that is not taken apart. -/
  | object (ref : Ref)

namespace Element

/-- An element as an element of a wider kind.  A list takes any element as it
is. -/
def coerce : Mode → Element → Element
  | .integer, logical b => integer (integerOfLogical b)
  | .double, logical b => double (integerOfLogical b).toFloat
  | .double, integer i => double i.toFloat
  | .character, logical b => text (logicalText b)
  | .character, integer i => text (integerText i)
  | .character, double d => text (Text.doubleText d)
  | _, element => element

/-- The vector that consists of one element. -/
def scalar? : Element → Option Object
  | logical b => some (.logical [b])
  | integer i => some (.integer [i])
  | double d => some (.double [d])
  | text s => some (.character [s])
  | object _ => none

/-- Up to doubles, **coercing step by step is coercing at once**. -/
theorem coerce_coerce {first second : Mode} (hle : first.rank ≤ second.rank)
    (hdouble : second.rank ≤ Mode.double.rank) (element : Element) :
    (element.coerce first).coerce second = element.coerce second := by
  cases second <;> cases first <;> simp [Mode.rank] at hle hdouble <;> cases element <;> rfl

theorem coerce_list (element : Element) : element.coerce .list = element := by
  cases element <;> rfl

end Element

namespace Object

variable {object : Object} {kind : Mode} {ref : Ref} {read : Ref → Object} {values : List Ref}

/-- The elements of the object at a reference.  What is neither a vector nor a
list is one element. -/
def elements (ref : Ref) : Object → List Element
  | null => []
  | logical values => values.map .logical
  | integer values => values.map .integer
  | double values => values.map .double
  | character values => values.map .text
  | list items => items.map .object
  | _ => [.object ref]

/-- The elements of an object, as the function for a kind of vector reads them. -/
def elementsAs : Mode → Object → List Element
  | .logical, object => object.logicals.map .logical
  | .integer, object => object.integers.map .integer
  | .double, object => object.doubles.map .double
  | .character, object => (object.texts?.getD []).map .text
  | _, _ => []

/-- The function for a kind reads all of an object that is not wider. -/
theorem elementsAs_eq (hle : object.mode.rank ≤ kind.rank) (hkind : kind ≠ .list) (ref : Ref) :
    object.elementsAs kind = (object.elements ref).map (Element.coerce kind) := by
  cases kind with
  | list => exact absurd rfl hkind
  | _ =>
      cases object <;>
        simp [mode, Mode.rank, elementsAs, elements, logicals, integers, doubles, texts?,
          Element.coerce] at hle ⊢

theorem length_elements (hmode : object.mode ≠ .list) (ref : Ref) :
    (object.elements ref).length = object.length := by
  cases object <;> simp [mode, elements, length] at hmode ⊢

/-- Objects are put together as vectors of a kind. -/
theorem concat?_eq (objects : List Object) (hkind : kind ≠ .list) :
    ∃ result, concat? objects kind = some result ∧ result.mode = kind ∧
      ∀ ref, result.elements ref = objects.flatMap (elementsAs kind) := by
  cases kind with
  | null => exact ⟨_, rfl, rfl, fun _ => (List.flatMap_eq_nil_iff.mpr fun _ _ => rfl).symm⟩
  | list => exact absurd rfl hkind
  | _ => exact ⟨_, rfl, rfl, fun _ => List.map_flatMap⟩

/-- **Putting objects together keeps all their elements in order**, each coerced
once. -/
theorem exists_concat (hkind : kind ≠ .list)
    (hle : ∀ value ∈ values, (read value).mode.rank ≤ kind.rank) :
    ∃ result, concat? (values.map read) kind = some result ∧ result.mode = kind ∧
      ∀ ref, result.elements ref =
        (values.flatMap fun value => (read value).elements value).map (Element.coerce kind) := by
  obtain ⟨result, hconcat, hmode, helements⟩ := concat?_eq (values.map read) hkind
  refine ⟨result, hconcat, hmode, ?_⟩
  intro ref
  rw [helements, List.flatMap_map, List.map_flatMap]
  exact List.flatMap_congr fun value hvalue => elementsAs_eq (hle value hvalue) hkind value

theorem elements_of_mode (hmode : object.mode = .list)
    (hlist : ∀ items, object ≠ .list items) :
    object.elements ref = [.object ref] := by
  cases object with
  | list items => exact absurd rfl (hlist items)
  | null | logical | integer | double | character => cases hmode
  | _ => rfl

theorem ne_null_of_mem_scalars {scalar : Object}
    (hmem : scalar ∈ object.scalars) : scalar ≠ null := by
  cases object <;> simp only [scalars, List.mem_map, List.not_mem_nil] at hmem <;>
    obtain ⟨_, -, rfl⟩ := hmem <;> exact nofun

/-- The vectors of length one that an atomic vector is split into hold its
elements. -/
theorem map_some_scalars (hmode : object.mode ≠ .list) (ref : Ref) :
    object.scalars.map some = (object.elements ref).map Element.scalar? := by
  cases object <;> simp [mode, scalars, elements, Element.scalar?] at hmode ⊢

end Object

end LazyDispatch
