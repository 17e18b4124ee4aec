import LazyDispatch.Arithmetic
import Mathlib.Algebra.Group.Int.Defs
import Mathlib.Data.List.Basic

/-!
# Integer arithmetic is exact or fails

Addition, subtraction, multiplication and the unary minus of integer and logical
vectors.  The values of such a vector are mathematical integers
(`Object.wholes?`), and the results are worked out in them first (`IsRecycled`).
If all results are in the range of integers they are the answer, and if one of
them is not, wherever it stands, the operation fails as a whole
(`ExactOrFails`).
-/

namespace LazyDispatch

/-! ## Repeating the shorter operand -/

section Recycle

variable {α β γ δ : Type}

/-- The results of an operation on two vectors, of which the shorter one is
repeated.  The places that are read exist; there are no results if one of the
vectors is empty. -/
structure IsRecycled (f : α → β → γ) (xs : List α) (ys : List β)
    (results : List γ) : Prop where
  length : results.length =
    if xs.length = 0 ∨ ys.length = 0 then 0 else max xs.length ys.length
  element : ∀ i < results.length, 0 < xs.length ∧ 0 < ys.length ∧
    ∃ x y, xs[i % xs.length]? = some x ∧ ys[i % ys.length]? = some y ∧ results[i]? = some (f x y)

theorem isRecycled_recycle (f : α → β → γ) (xs : List α) (ys : List β) :
    IsRecycled f xs ys (recycle f xs ys) := by
  unfold recycle
  split
  · next hpos =>
      refine ⟨?_, fun i hi => ⟨hpos.1, hpos.2, _, _, List.getElem?_eq_getElem (Nat.mod_lt i hpos.1),
        List.getElem?_eq_getElem (Nat.mod_lt i hpos.2), ?_⟩⟩
      · rw [List.length_map, List.length_range, if_neg (by omega)]
      · rw [List.getElem?_eq_getElem hi, List.getElem_map, List.getElem_range]
        rfl
  · next hempty =>
      refine ⟨?_, fun i hi => absurd hi (Nat.not_lt_zero i)⟩
      rw [List.length_nil, if_pos (by omega)]

/-- There is one list of results. -/
theorem IsRecycled.eq {f : α → β → γ} {xs : List α} {ys : List β}
    {results others : List γ} (hresults : IsRecycled f xs ys results)
    (hothers : IsRecycled f xs ys others) :
    results = others := by
  have hlength : results.length = others.length := hresults.length.trans hothers.length.symm
  refine List.ext_getElem? fun i => ?_
  by_cases hi : i < results.length
  · obtain ⟨-, -, x, y, hx, hy, hresult⟩ := hresults.element i hi
    obtain ⟨-, -, x', y', hx', hy', hother⟩ := hothers.element i (hlength ▸ hi)
    cases hx.symm.trans hx'
    cases hy.symm.trans hy'
    exact hresult.trans hother.symm
  · rw [List.getElem?_eq_none (Nat.le_of_not_lt hi), List.getElem?_eq_none (by omega)]

/-- Results may be worked out in other values first. -/
theorem recycle_comp {α' β' : Type} (g : γ → δ) (f : α → β → γ) (left : α' → α)
    (right : β' → β) (xs : List α') (ys : List β') :
    recycle (fun x y => g (f (left x) (right y))) xs ys =
      (recycle f (xs.map left) (ys.map right)).map g := by
  unfold recycle
  simp only [List.length_map]
  split
  · rw [List.map_map]
    refine List.map_congr_left fun i _ => ?_
    simp
  · rfl

/-- The operands may be swapped if the operation lets them. -/
theorem recycle_comm {f : α → α → γ} (hcomm : ∀ x y, f x y = f y x)
    (xs ys : List α) :
    recycle f xs ys = recycle f ys xs := by
  refine (isRecycled_recycle f xs ys).eq ⟨?_, fun i hi => ?_⟩
  · rw [(isRecycled_recycle f ys xs).length, Nat.max_comm]
    simp only [or_comm]
  · obtain ⟨hy, hx, y, x, hgety, hgetx, hresult⟩ := (isRecycled_recycle f ys xs).element i hi
    exact ⟨hx, hy, x, y, hgetx, hgety, hcomm x y ▸ hresult⟩

end Recycle

/-! ## The range of integers -/

/-- A value is in the range of integers. -/
def IntegerRange (value : Int) : Prop := -2 ^ 63 ≤ value ∧ value < 2 ^ 63

instance decidableIntegerRange (value : Int) : Decidable (IntegerRange value) :=
  inferInstanceAs (Decidable (_ ∧ _))

theorem integerRange_toInt (i : Int64) : IntegerRange i.toInt :=
  ⟨i.le_toInt, i.toInt_lt⟩

theorem fitting?_of_range {value : Int} (hrange : IntegerRange value) :
    fitting? value = some (.ofInt value) := by
  obtain ⟨hlow, hhigh⟩ := hrange
  refine if_pos ⟨?_, ?_⟩
  · exact hlow
  · exact Int.le_of_lt_add_one hhigh

theorem fitting?_of_not_range {value : Int} (hrange : ¬IntegerRange value) :
    fitting? value = none := by
  refine if_neg fun hfits => hrange ⟨hfits.1, ?_⟩
  exact Int.lt_add_one_of_le hfits.2

theorem toInt_ofInt_of_range {value : Int} (hrange : IntegerRange value) :
    (Int64.ofInt value).toInt = value :=
  Int64.toInt_ofInt_of_le hrange.1 hrange.2

/-- The outcome of arithmetic with certain results: the integers with these
values, or an overflow if there is a result that is not in the range of
integers. -/
def ExactOrFails (results : List Int) (outcome : Except TypeError Numbers) :
    Prop :=
  ((∀ result ∈ results, IntegerRange result) ∧
    ∃ values, outcome = .ok (.integers values) ∧ values.map Int64.toInt = results) ∨
  ((∃ result ∈ results, ¬IntegerRange result) ∧ outcome = .error .integerOverflow)

namespace Numbers

theorem mapM_fitting?_of_range {results : List Int}
    (hrange : ∀ result ∈ results, IntegerRange result) :
    (results.map fitting?).mapM id = some (results.map Int64.ofInt) := by
  induction results with
  | nil => rfl
  | cons result rest ih =>
      have hrest := ih fun other hother => hrange other (List.mem_cons_of_mem _ hother)
      rw [List.map_cons, List.mapM_cons,
        fitting?_of_range (hrange result List.mem_cons_self), hrest]
      rfl

theorem mapM_fitting?_of_not_range {results : List Int} {result : Int}
    (hmem : result ∈ results) (hrange : ¬IntegerRange result) :
    (results.map fitting?).mapM id = none := by
  induction results with
  | nil => cases hmem
  | cons first rest ih =>
      rw [List.map_cons, List.mapM_cons]
      rcases List.mem_cons.mp hmem with rfl | hrest
      · rw [fitting?_of_not_range hrange]
        rfl
      · rw [ih hrest]
        cases fitting? first <;> rfl

theorem exactOrFails_ofExact (results : List Int) :
    ExactOrFails results (ofExact (results.map fitting?)) := by
  unfold ofExact
  by_cases hrange : ∀ result ∈ results, IntegerRange result
  · refine Or.inl ⟨hrange, results.map .ofInt, ?_, ?_⟩
    · rw [mapM_fitting?_of_range hrange]
    · rw [List.map_map]
      exact (List.map_congr_left fun result hresult =>
        toInt_ofInt_of_range (hrange result hresult)).trans (List.map_id results)
  · obtain ⟨result, hmem, hout⟩ : ∃ result ∈ results, ¬IntegerRange result := by
      simpa using hrange
    refine Or.inr ⟨⟨result, hmem, hout⟩, ?_⟩
    rw [mapM_fitting?_of_not_range hmem hout]

end Numbers

/-! ## Operators -/

/-- The values of an integer or logical vector, as mathematical integers. -/
def Object.wholes? : Object → Option (List Int)
  | .integer values => some (values.map Int64.toInt)
  | .logical values => some (values.map fun b => if b then 1 else 0)
  | _ => none

/-- A vector with whole values is an operand with these values. -/
theorem Object.ofObject?_of_wholes {object : Object} {xs : List Int}
    (hwholes : object.wholes? = some xs) :
    ∃ values, Numbers.ofObject? object = some (.integers values) ∧ values.map Int64.toInt = xs := by
  cases object with
  | integer values =>
      cases hwholes
      exact ⟨values, rfl, rfl⟩
  | logical values =>
      cases hwholes
      refine ⟨values.map integerOfLogical, rfl, ?_⟩
      rw [List.map_map]
      refine List.map_congr_left fun b _ => ?_
      cases b <;> rfl
  | _ => cases hwholes

namespace ArithmeticOp

/-- The operators of integer arithmetic, with what they compute. -/
def exactOps : List (ArithmeticOp × (Int → Int → Int)) :=
  [(add, (· + ·)), (subtract, (· - ·)), (multiply, (· * ·))]

/-- An operator of integer arithmetic fits its results into integers. -/
theorem binary_integers {op : ArithmeticOp} {f : Int → Int → Int} (hop : op.onIntegers? = some f)
    (xs ys : List Int64) :
    op.binary (.integers xs) (.integers ys) =
      Numbers.ofExact ((recycle f (xs.map Int64.toInt) (ys.map Int64.toInt)).map fitting?) := by
  rw [← recycle_comp]
  unfold binary
  rw [hop]

theorem onIntegers?_of_mem {op : ArithmeticOp} {f : Int → Int → Int}
    (hop : (op, f) ∈ exactOps) :
    op.onIntegers? = some f := by
  simp only [exactOps, List.mem_cons, Prod.mk.injEq, List.not_mem_nil, or_false] at hop
  rcases hop with ⟨rfl, rfl⟩ | ⟨rfl, rfl⟩ | ⟨rfl, rfl⟩ <;> rfl

/-- Negation of integers fits the exact negatives into integers. -/
theorem unary_integers (xs : List Int64) :
    subtract.unary (.integers xs) =
      Numbers.ofExact (((xs.map Int64.toInt).map (- ·)).map fitting?) := by
  rw [List.map_map, List.map_map]
  rfl

/-- An integer has a negative in the range unless it is the least one. -/
theorem integerRange_neg_iff (i : Int64) :
    IntegerRange (-i.toInt) ↔ i.toInt ≠ -2 ^ 63 := by
  obtain ⟨hlow, hhigh⟩ := integerRange_toInt i
  unfold IntegerRange
  omega

/-- **Integer arithmetic is exact or fails.**  On integer and logical vectors
`+`, `-` and `*` work on the whole values, with the shorter operand repeated and
at places that exist; so does the unary minus, which fails only for the least
integer.  If all results are in the range of integers they are the answer, and
otherwise there is an integer overflow.  The operands of `+` and `*` may be
swapped. -/
theorem integer_arithmetic_exact_or_fails {lhs rhs : Object} {xs ys : List Int}
    (hlhs : lhs.wholes? = some xs) (hrhs : rhs.wholes? = some ys) :
    ∃ a b, Numbers.ofObject? lhs = some a ∧ Numbers.ofObject? rhs = some b ∧
      (∀ op f, (op, f) ∈ exactOps →
        ∃ results, IsRecycled f xs ys results ∧ ExactOrFails results (op.binary a b)) ∧
      ExactOrFails (xs.map (- ·)) (subtract.unary a) ∧
      (subtract.unary a = .error .integerOverflow ↔ -2 ^ 63 ∈ xs) ∧
      (∀ op ∈ [add, multiply], op.binary a b = op.binary b a) ∧
      TypeError.integerOverflow.message = "integer overflow" := by
  obtain ⟨left, hleft, rfl⟩ := Object.ofObject?_of_wholes hlhs
  obtain ⟨right, hright, rfl⟩ := Object.ofObject?_of_wholes hrhs
  have hnegated : ExactOrFails _ (subtract.unary (.integers left)) :=
    unary_integers left ▸ Numbers.exactOrFails_ofExact _
  refine ⟨_, _, hleft, hright, fun op f hop => ⟨_, isRecycled_recycle f _ _, ?_⟩, hnegated, ?_,
    fun op hop => ?_, rfl⟩
  · rw [binary_integers (onIntegers?_of_mem hop)]
    exact Numbers.exactOrFails_ofExact _
  · -- The least integer is the only one whose negative is out of range.
    have hleast : (∃ result ∈ (left.map Int64.toInt).map (- ·), ¬IntegerRange result) ↔
        -2 ^ 63 ∈ left.map Int64.toInt := by
      simp only [List.map_map, List.mem_map, Function.comp_apply, exists_exists_and_eq_and,
        integerRange_neg_iff, ne_eq, not_not]
    rcases hnegated with ⟨hrange, values, hvalues, -⟩ | ⟨hout, hoverflow⟩
    · refine iff_of_false (fun hoverflow => ?_) fun hmem => ?_
      · cases hvalues.symm.trans hoverflow
      · obtain ⟨result, hresult, hout⟩ := hleast.mpr hmem
        exact hout (hrange result hresult)
    · exact iff_of_true hoverflow (hleast.mp hout)
  · simp only [List.mem_cons, List.not_mem_nil, or_false] at hop
    rcases hop with rfl | rfl
    · rw [binary_integers rfl, binary_integers rfl, recycle_comm Int.add_comm]
    · rw [binary_integers rfl, binary_integers rfl, recycle_comm Int.mul_comm]

/-- The third sum of three numbers and two truth values, of which the first one
is added again, is too large by one; their products are all in the range. -/
theorem integer_arithmetic_exact_or_fails_thirdSum : ∃ a b,
    Numbers.ofObject? (.integer [-9223372036854775808, 7, 9223372036854775807]) = some a ∧
    Numbers.ofObject? (.logical [true, false]) = some b ∧
    add.binary a b = .error .integerOverflow ∧ subtract.unary a = .error .integerOverflow ∧
    ∃ values, multiply.binary b a = .ok (.integers values) ∧
      values.map Int64.toInt = [-9223372036854775808, 0, 9223372036854775807] := by
  have hlhs : (Object.integer [-9223372036854775808, 7, 9223372036854775807]).wholes? =
      some [-9223372036854775808, 7, 9223372036854775807] := by decide
  have hrhs : (Object.logical [true, false]).wholes? = some [1, 0] := by decide
  obtain ⟨a, b, ha, hb, hops, -, hnegated, hcomm, -⟩ := integer_arithmetic_exact_or_fails hlhs hrhs
  obtain ⟨sums, hsums, hadd⟩ := hops add (· + ·) (by simp [exactOps])
  obtain ⟨products, hproducts, hmultiply⟩ := hops multiply (· * ·) (by simp [exactOps])
  cases hsums.eq (isRecycled_recycle _ _ _)
  cases hproducts.eq (isRecycled_recycle _ _ _)
  refine ⟨a, b, ha, hb, ?_, hnegated.mpr (by decide), ?_⟩
  · rcases hadd with ⟨hrange, -⟩ | ⟨-, hoverflow⟩
    · exact absurd (hrange 9223372036854775808 (by decide)) (by decide)
    · exact hoverflow
  · rcases hmultiply with ⟨-, values, hvalues, hexact⟩ | ⟨hout, -⟩
    · exact ⟨values, hcomm multiply (by decide) ▸ hvalues, hexact⟩
    · exact absurd hout (by decide)

end ArithmeticOp

end LazyDispatch
