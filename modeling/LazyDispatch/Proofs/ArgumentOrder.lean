import LazyDispatch.Proofs.ArgumentMatching
import Mathlib.Data.List.Perm.Basic
import Mathlib.Data.Prod.Basic

/-!
# Matching does not depend on where named arguments are written

Two calls have the same arguments, and the untagged ones come in the same order.
Then the arguments of the one can be numbered as in the other, by a function
that keeps the order of the untagged ones.  Each pass of matching goes through
on both calls or on neither, and the assignments that it gives differ in the
numbering only.

The second pass is the one that goes through the arguments in order and changes
what it tests.  But the candidates of an argument depend on the first pass
alone, so two neighbouring steps can be exchanged.
-/

namespace LazyDispatch.Matching

variable {formals : List Formal} {places : List Nat}

/-! ## Numberings -/

/-- A permutation of the images of a list is the image of a permutation of the
list, which keeps the order of the elements with a property if their images have
the same order. -/
theorem exists_perm_of_map_perm {α β : Type} (f : α → β) (p : β → Bool)
    (items : List α) {images : List β} (hperm : images.Perm (items.map f))
    (hfilter : images.filter p = (items.map f).filter p) :
    ∃ others : List α, others.map f = images ∧ others.Perm items ∧
      others.filter (p ∘ f) = items.filter (p ∘ f) := by
  induction images generalizing items with
  | nil =>
      cases List.map_eq_nil_iff.mp hperm.nil_eq.symm
      exact ⟨[], rfl, .nil, rfl⟩
  | cons image images ih =>
      -- The preimage is the first element with the property, or any if the
      -- image does not have it.
      obtain ⟨front, item, back, rfl, rfl, hfront⟩ : ∃ front item back,
          items = front ++ item :: back ∧ f item = image ∧
            (p image → ∀ other ∈ front, ¬ p (f other)) := by
        by_cases hp : p image
        · rw [List.filter_cons_of_pos hp, List.filter_map, eq_comm, List.map_eq_cons_iff] at hfilter
          obtain ⟨item, rest, hitems, himage, -⟩ := hfilter
          obtain ⟨front, back, hsplit, hfront, -⟩ := List.filter_eq_cons_iff.mp hitems
          exact ⟨front, item, back, hsplit, himage, fun _ => hfront⟩
        · obtain ⟨item, hitem, himage⟩ := List.mem_map.mp (hperm.subset List.mem_cons_self)
          obtain ⟨front, back, hsplit⟩ := List.append_of_mem hitem
          exact ⟨front, item, back, hsplit, himage, fun htrue => absurd htrue hp⟩
      have hmiddle : (front ++ item :: back).Perm (item :: (front ++ back)) := List.perm_middle
      have hfilter' : (front ++ item :: back).filter (p ∘ f) =
          (item :: (front ++ back)).filter (p ∘ f) := by
        by_cases hp : p (f item)
        · have hnone : front.filter (p ∘ f) = [] := List.filter_eq_nil_iff.mpr (hfront hp)
          simp [hnone, hp]
        · simp [hp]
      have hrest : images.filter p = ((front ++ back).map f).filter p := by
        rw [List.filter_map, hfilter', ← List.filter_map, List.map_cons] at hfilter
        by_cases hp : p (f item)
        · simpa only [List.filter_cons_of_pos hp, List.cons.injEq, true_and] using hfilter
        · simpa only [List.filter_cons_of_neg hp] using hfilter
      obtain ⟨others, himages, hothers, hkept⟩ :=
        ih (front ++ back) ((hperm.trans (hmiddle.map f)).cons_inv) hrest
      refine ⟨item :: others, by rw [List.map_cons, himages],
        (hothers.cons item).trans hmiddle.symm, ?_⟩
      rw [hfilter', List.filter_cons, List.filter_cons, hkept]

/-- Reading a permutation of the numbers below a bound, and beyond it every
number as itself. -/
theorem injective_getD {numbers : List Nat} {count : Nat}
    (hperm : numbers.Perm (List.range count)) :
    Function.Injective fun index : Nat => numbers[index]?.getD index := by
  have hlength : numbers.length = count := by simpa using hperm.length_eq
  have hbeyond : ∀ {i j number : Nat}, numbers[i]? = none →
      numbers[j]? = some number → i ≠ number := by
    intro i j number hi hj
    have hlt := List.mem_range.mp (hperm.subset (List.mem_of_getElem? hj))
    have hge := List.getElem?_eq_none_iff.mp hi
    omega
  intro i j heq
  cases hi : numbers[i]? with
  | none =>
      cases hj : numbers[j]? with
      | none => simpa [hi, hj] using heq
      | some number => exact absurd (by simpa [hi, hj] using heq) (hbeyond hi hj)
  | some number =>
      cases hj : numbers[j]? with
      | none => exact absurd (by simpa [hi, hj] using heq.symm) (hbeyond hj hi)
      | some other =>
          cases (by simpa [hi, hj] using heq : number = other)
          exact (List.getElem?_inj (List.getElem?_eq_some_iff.mp hi).1
            (hperm.nodup_iff.mpr List.nodup_range)).mp (hi.trans hj.symm)

/-- A function that takes the index of an argument of one call to an index in
another call with the same arguments, where the untagged ones have the same
order. -/
structure Renumbers (number : Nat → Nat) (actuals others : List Arg) :
    Prop where
  injective : Function.Injective number
  perm : (actuals.zipIdx.map (Prod.map id number)).Perm others.zipIdx
  untagged : (actuals.zipIdx.map (Prod.map id number)).filter (·.1.tag.isNone) =
    others.zipIdx.filter (·.1.tag.isNone)

/-- Rearranged arguments have a renumbering, if the untagged ones keep their
order. -/
theorem exists_renumbers {actuals others : List Arg}
    (hperm : actuals.Perm others)
    (huntagged : actuals.filter (·.tag.isNone) = others.filter (·.tag.isNone)) :
    ∃ number, Renumbers number actuals others := by
  have hothers : others.zipIdx.map Prod.fst = others := List.zipIdx_map_fst 0 others
  obtain ⟨labelled, hactuals, hlabelled, hkept⟩ :=
    exists_perm_of_map_perm Prod.fst (·.tag.isNone) others.zipIdx (hothers.symm ▸ hperm)
      (hothers.symm ▸ huntagged)
  have hnumbers : (labelled.map Prod.snd).Perm (List.range others.length) := by
    simpa [List.zipIdx_map_snd, List.range_eq_range'] using hlabelled.map Prod.snd
  refine ⟨fun index : Nat => (labelled.map Prod.snd)[index]?.getD index, ?_⟩
  have hzip : actuals.zipIdx.map
      (Prod.map id fun index : Nat => (labelled.map Prod.snd)[index]?.getD index) = labelled := by
    refine List.ext_getElem? fun index => ?_
    rw [List.getElem?_map, List.getElem?_zipIdx, ← hactuals, List.getElem?_map]
    cases hitem : labelled[index]? with
    | none => rfl
    | some item => simp [hitem]
  exact ⟨injective_getD hnumbers, hzip.symm ▸ hlabelled, hzip.symm ▸ hkept⟩

/-- An assignment with other numbers for the arguments. -/
def renumber (number : Nat → Nat) : Assignment → Assignment :=
  List.map (Option.map number)

/-- A renumbered argument is taken exactly if it was before. -/
theorem contains_renumber {number : Nat → Nat}
    (hinjective : Function.Injective number) (assignment : Assignment)
    (index : Nat) :
    (renumber number assignment).contains (some (number index)) =
      assignment.contains (some index) := by
  rw [Bool.eq_iff_iff, List.contains_iff_mem, List.contains_iff_mem, renumber, ← Option.map_some,
    List.mem_map_of_injective (Option.map_injective hinjective)]

/-- Each place takes the renumbered argument. -/
theorem getElem?_renumber (number : Nat → Nat) (assignment : Assignment) (place : Nat) :
    (renumber number assignment)[place]? = assignment[place]?.map (Option.map number) :=
  List.getElem?_map

/-- The open places are the same. -/
theorem isNone_renumber (number : Nat → Nat) (assignment : Assignment)
    (place : Nat) :
    ((renumber number assignment)[place]?.getD none).isNone =
      (assignment[place]?.getD none).isNone := by
  rw [getElem?_renumber]
  cases assignment[place]? with
  | none => rfl
  | some taken => simp

section

variable {number : Nat → Nat} {actuals others : List Arg}

namespace Renumbers

/-- The argument of a new number is that of the old one. -/
theorem getElem? (hnumber : Renumbers number actuals others) (index : Nat) :
    others[number index]? = actuals[index]? := by
  refine Option.ext fun actual => ?_
  rw [← List.mem_zipIdx_iff_getElem? (x := (actual, number index)), ← hnumber.perm.mem_iff,
    ← List.mem_zipIdx_iff_getElem? (x := (actual, index))]
  exact List.mem_map_of_injective (f := Prod.map id number)
    (Function.injective_id.prodMap hnumber.injective) (a := (actual, index))

/-- The same arguments are selected under their new numbers. -/
theorem indicesWhere_perm (hnumber : Renumbers number actuals others)
    (p : Arg → Bool) :
    (indicesWhere p others).Perm ((indicesWhere p actuals).map number) := by
  have hfilter := ((hnumber.perm.filter fun item => p item.1).map Prod.snd).symm
  rw [List.filter_map, List.map_map] at hfilter
  rw [indicesWhere, indicesWhere, List.map_map]
  exact hfilter

/-- The untagged ones also come in the same order. -/
theorem indicesWhere_untagged (hnumber : Renumbers number actuals others) :
    indicesWhere (·.tag.isNone) others = (indicesWhere (·.tag.isNone) actuals).map number := by
  have hfilter := congrArg (List.map Prod.snd) hnumber.untagged.symm
  rw [List.filter_map, List.map_map] at hfilter
  rw [indicesWhere, indicesWhere, List.map_map]
  exact hfilter

/-- A formal receives the same value. -/
theorem received_eq (hnumber : Renumbers number actuals others)
    (taken : Option Nat) :
    received others (taken.map number) = received actuals taken := by
  cases taken with
  | none => rfl
  | some index => simp only [received, Option.map_some, Option.bind_some, hnumber.getElem?]

end Renumbers

/-! ## The passes on both calls -/

/-- A function of the results can be applied after all steps. -/
theorem mapM_map {α β γ : Type} (g : β → γ) (f : α → Except MatchError β)
    (items : List α) :
    items.mapM (fun item => g <$> f item) = List.map g <$> items.mapM f := by
  induction items with
  | nil => rfl
  | cons item rest ih => simp [List.mapM_cons, ih]

/-- Places are filled in the same order. -/
theorem fill_renumber (number : Nat → Nat) (assignment : Assignment)
    (indices : List Nat) :
    fill (renumber number assignment) (indices.map number) =
      renumber number (fill assignment indices) := by
  fun_induction fill assignment indices <;> simp_all [renumber, fill]

/-- The pass by position takes the same arguments, since the untagged ones are
in order. -/
theorem assignPositional_renumber (hnumber : Renumbers number actuals others)
    (limit : Nat) (assignment : Assignment) :
    assignPositional limit others (renumber number assignment) =
      renumber number (assignPositional limit actuals assignment) := by
  have htake : (renumber number assignment).take limit = renumber number (assignment.take limit) :=
    List.map_take.symm
  have hdrop : (renumber number assignment).drop limit = renumber number (assignment.drop limit) :=
    List.map_drop.symm
  rw [assignPositional, hnumber.indicesWhere_untagged, htake, hdrop, fill_renumber]
  exact List.map_append.symm

end

/-- Lets an argument take a place, if that is open. -/
def takeOpen (index place : Nat) (assignment : Assignment) :
    Option Assignment :=
  if (assignment[place]?.getD none).isNone then some (assignment.set place (some index)) else none

/-- Two arguments that take places can do so in either order. -/
theorem takeOpen_comm (i j p q : Nat) (assignment : Assignment) :
    (takeOpen i p assignment >>= takeOpen j q) = (takeOpen j q assignment >>= takeOpen i p) := by
  by_cases hne : p = q
  · subst hne
    -- The second of the two finds the place taken, unless there is no such
    -- place.
    by_cases hlt : p < assignment.length
    · cases hopen : assignment[p] <;> simp [takeOpen, hlt, hopen]
    · have hset : ∀ taken, assignment.set p taken = assignment := fun taken =>
        List.set_eq_of_length_le (Nat.le_of_not_lt hlt)
      simp [takeOpen, hset, hlt]
  · have hq : ∀ taken, (assignment.set p taken)[q]? = assignment[q]? := fun taken =>
      List.getElem?_set_ne hne
    have hp : ∀ taken, (assignment.set q taken)[p]? = assignment[p]? := fun taken =>
      List.getElem?_set_ne (Ne.symm hne)
    cases hopen : assignment[p]?.getD none <;> cases hopen' : assignment[q]?.getD none <;>
      simp [takeOpen, hp, hq, hopen, hopen', List.set_comm _ _ hne]

/-- An argument takes its only candidate if that is open, and otherwise there is
an error. -/
theorem toOption_assignCandidate
    (hplaces : ∀ place ∈ places, place < formals.length) (index : Nat) (assignment : Assignment) :
    (assignCandidate formals index places assignment).toOption =
      match places with
      | [] => some assignment
      | [place] => takeOpen index place assignment
      | _ => none := by
  rcases places with _ | ⟨first, _ | ⟨second, rest⟩⟩
  · rfl
  · have hformal := List.getElem?_eq_getElem (hplaces first (by simp))
    simp only [assignCandidate, hformal, takeOpen]
    cases assignment[first]?.getD none <;> rfl
  · rfl

/-- Two neighbouring steps of the second pass can be exchanged. -/
theorem assignCandidate_comm {others : List Nat}
    (hplaces : ∀ place ∈ places, place < formals.length)
    (hothers : ∀ place ∈ others, place < formals.length) (i j : Nat) (assignment : Assignment) :
    ((assignCandidate formals i places assignment).toOption >>= fun following =>
        (assignCandidate formals j others following).toOption) =
      ((assignCandidate formals j others assignment).toOption >>= fun following =>
        (assignCandidate formals i places following).toOption) := by
  simp only [toOption_assignCandidate hplaces, toOption_assignCandidate hothers]
  rcases places with _ | ⟨p, _ | ⟨p', ps⟩⟩
  · rcases others with _ | ⟨q, _ | ⟨q', qs⟩⟩ <;> simp
  · rcases others with _ | ⟨q, _ | ⟨q', qs⟩⟩
    · simp
    · exact takeOpen_comm i j p q assignment
    · simp
  · rcases others with _ | ⟨q, _ | ⟨q', qs⟩⟩ <;> simp

/-- A run of steps succeeds as one does that forgets which error there was. -/
theorem toOption_foldlM {α β : Type} (f : β → α → Except MatchError β)
    (items : List α) (start : β) :
    (items.foldlM f start).toOption =
      items.foldlM (fun value item => (f value item).toOption) start := by
  induction items generalizing start with
  | nil => rfl
  | cons item rest ih =>
      rw [List.foldlM_cons, List.foldlM_cons]
      cases f start item with
      | error error => rfl
      | ok value => exact ih value

/-- Steps that commute can be run in any order. -/
theorem foldlM_perm {α β : Type} {f : β → α → Option β} {items others : List α}
    (hperm : items.Perm others)
    (hcomm : ∀ x ∈ items, ∀ y ∈ items, ∀ value, (f value x >>= (f · y)) = (f value y >>= (f · x)))
    (start : β) : items.foldlM f start = others.foldlM f start := by
  rw [List.foldlM_eq_foldl, List.foldlM_eq_foldl]
  refine hperm.foldl_eq' (fun x hx y hy value => ?_) _
  cases value with
  | none => rfl
  | some value => exact hcomm x hx y hy value

/-- Steps that respect a map of the values do so as a whole. -/
theorem foldlM_map_value {α β γ : Type} {f : β → α → Option β} {f' : γ → α → Option γ} (g : β → γ)
    (hstep : ∀ value item, f' (g value) item = (f value item).map g) (items : List α) (start : β) :
    items.foldlM f' (g start) = (items.foldlM f start).map g := by
  induction items generalizing start with
  | nil => rfl
  | cons item rest ih =>
      rw [List.foldlM_cons, List.foldlM_cons, hstep]
      cases f start item with
      | none => rfl
      | some value => exact ih value

/-- A renumbered argument takes the same place. -/
theorem takeOpen_renumber (number : Nat → Nat) (index place : Nat)
    (assignment : Assignment) :
    takeOpen (number index) place (renumber number assignment) =
      (takeOpen index place assignment).map (renumber number) := by
  simp only [takeOpen, isNone_renumber]
  split
  · simp [renumber]
  · rfl

/-- So it does when it takes its only candidate. -/
theorem assignCandidate_renumber
    (hplaces : ∀ place ∈ places, place < formals.length) (number : Nat → Nat) (index : Nat)
    (assignment : Assignment) :
    (assignCandidate formals (number index) places (renumber number assignment)).toOption =
      (assignCandidate formals index places assignment).toOption.map (renumber number) := by
  rw [toOption_assignCandidate hplaces, toOption_assignCandidate hplaces]
  rcases places with _ | ⟨first, _ | ⟨second, rest⟩⟩
  · rfl
  · exact takeOpen_renumber number index first assignment
  · rfl

/-- A step succeeds with a value exactly if it has that value. -/
theorem toOption_eq_some_iff {α : Type} {step : Except MatchError α} {value : α}
    :
    step.toOption = some value ↔ step = .ok value := by
  cases step <;> simp [Except.toOption]

/-- If all steps together succeed, then each one does. -/
theorem mapM_eq_ok {α β : Type} {f : α → Except MatchError β} {items : List α}
    {results : List β} (hok : items.mapM f = .ok results) :
    List.Forall₂ (fun item result => f item = .ok result) items results := by
  induction items generalizing results with
  | nil =>
      cases hok
      exact .nil
  | cons item rest ih =>
      rw [List.mapM_cons] at hok
      cases hitem : f item with
      | error error => rw [hitem] at hok; cases hok
      | ok result =>
          rw [hitem] at hok
          cases hrest : rest.mapM f with
          | error error => simp only [bind, Except.bind, hrest, reduceCtorEq] at hok
          | ok others =>
              simp only [bind, Except.bind, hrest] at hok
              cases hok
              exact .cons hitem (ih hrest)

/-- What every step keeps holds after all of them. -/
theorem foldlM_invariant {α β : Type} {f : β → α → Except MatchError β}
    {items : List α} (inv : β → Prop)
    (hstep : ∀ item ∈ items, ∀ value following, inv value →
      f value item = .ok following → inv following) {start result : β}
    (hstart : inv start) (hok : items.foldlM f start = .ok result) :
    inv result := by
  induction items generalizing start with
  | nil =>
      cases hok
      exact hstart
  | cons item rest ih =>
      rw [List.foldlM_cons] at hok
      cases hitem : f start item with
      | error error => rw [hitem] at hok; cases hok
      | ok following =>
          rw [hitem] at hok
          exact ih (fun other hother => hstep other (List.mem_cons_of_mem _ hother))
            (hstep item List.mem_cons_self start following hstart hitem) hok

/-- Without an error, an argument has no candidate or takes the one that it has. -/
theorem assignCandidate_eq_ok {index : Nat}
    {assignment following : Assignment}
    (hok : assignCandidate formals index places assignment = .ok following) :
    places = [] ∧ following = assignment ∨
      ∃ place, places = [place] ∧ following = assignment.set place (some index) := by
  unfold assignCandidate at hok
  split at hok
  · cases hok
    exact .inl ⟨rfl, rfl⟩
  · next place =>
      split at hok
      · cases hok
      · cases hok
        exact .inr ⟨place, rfl, rfl⟩
  · cases hok

namespace Setting

variable {assignment : Assignment}

variable {s : Setting} {number : Nat → Nat} {others : List Arg}

/-- The same function, called with other arguments. -/
def calledWith (s : Setting) (others : List Arg) : Setting :=
  { s with actuals := others }

/-- A formal is named exactly by the same argument. -/
theorem exactIndex_calledWith (hnumber : Renumbers number s.actuals others)
    (formal : Formal) (place : Nat) :
    (s.calledWith others).exactIndex formal place =
      Option.map number <$> s.exactIndex formal place := by
  have hperm := hnumber.indicesWhere_perm (·.tag = some formal.name)
  unfold exactIndex
  by_cases hdots : dotsPlace? s.dots s.formals = some place
  · rw [if_pos hdots, if_pos (by exact hdots)]
    rfl
  · rw [if_neg hdots, if_neg (by exact hdots)]
    simp only [calledWith]
    generalize indicesWhere (·.tag = some formal.name) s.actuals = indices at hperm
    generalize indicesWhere (·.tag = some formal.name) others = indices' at hperm
    rcases indices with _ | ⟨first, _ | ⟨second, rest⟩⟩
    · cases hperm.eq_nil
      rfl
    · cases List.perm_singleton.mp hperm
      rfl
    · rcases indices' with _ | ⟨first', _ | ⟨second', rest'⟩⟩
      · simp at hperm
      · simp at hperm
      · rfl

/-- The exact pass takes the same arguments, or fails with the same error. -/
theorem assignExact_calledWith (hnumber : Renumbers number s.actuals others) :
    assignExact (dotsPlace? s.dots s.formals) s.formals others =
      renumber number <$> assignExact (dotsPlace? s.dots s.formals) s.formals s.actuals := by
  have hexact := assignExact_eq (s := s.calledWith others)
  simp only [exactIndex_calledWith hnumber, mapM_map] at hexact
  exact hexact

/-- The candidates of one argument of the second pass. -/
def candidatesOf (s : Setting) (exact : Assignment) (item : Arg × Nat) :
    List Nat :=
  match item.1.tag with
  | none => []
  | some tag =>
    if exact.contains (some item.2) then [] else candidates s.names s.formals s.leading exact tag

/-- The step of the partial pass is that an argument takes its candidate. -/
theorem assignOne_eq (exact assignment : Assignment) (item : Arg × Nat) :
    s.assignOne exact assignment item.1 item.2 =
      assignCandidate s.formals item.2 (s.candidatesOf exact item) assignment := by
  unfold assignOne candidatesOf
  cases item.1.tag with
  | none => rfl
  | some tag => dsimp only; split <;> rfl

/-- Candidates are formals. -/
theorem lt_of_mem_candidatesOf {exact : Assignment} {item : Arg × Nat}
    {place : Nat} (hplace : place ∈ s.candidatesOf exact item) :
    place < s.formals.length := by
  unfold candidatesOf at hplace
  split at hplace
  · cases hplace
  · split at hplace
    · cases hplace
    · have hbegins := (Bool.and_eq_true_iff.mp (List.mem_filter.mp hplace).2).2
      obtain ⟨formal, hformal, -⟩ := (Option.any_eq_true ..).mp hbegins
      exact (List.getElem?_eq_some_iff.mp hformal).1

/-- An argument has the same candidates. -/
theorem candidatesOf_renumber (hinjective : Function.Injective number) (exact : Assignment)
    (item : Arg × Nat) :
    (s.calledWith others).candidatesOf (renumber number exact) (Prod.map id number item) =
      s.candidatesOf exact item := by
  unfold candidatesOf candidates
  simp only [Prod.map_fst, Prod.map_snd, contains_renumber hinjective, isNone_renumber]
  rfl

/-- The partial pass succeeds as the run of these steps does. -/
theorem toOption_assignPartial (exact : Assignment) :
    (assignPartial s.names s.formals s.leading s.actuals exact).toOption =
      s.actuals.zipIdx.foldlM (fun assignment item =>
        (assignCandidate s.formals item.2 (s.candidatesOf exact item)
          assignment).toOption) exact := by
  simp only [assignPartial_eq, assignOne_eq, toOption_foldlM]

/-- The partial pass takes the same arguments, since its steps commute. -/
theorem assignPartial_calledWith (hnumber : Renumbers number s.actuals others)
    (exact : Assignment) :
    (assignPartial s.names s.formals s.leading others (renumber number exact)).toOption =
      (assignPartial s.names s.formals s.leading s.actuals exact).toOption.map
        (renumber number) := by
  have hothers : (assignPartial s.names s.formals s.leading others
    (renumber number exact)).toOption =
      others.zipIdx.foldlM (fun assignment item =>
        (assignCandidate s.formals item.2
          ((s.calledWith others).candidatesOf (renumber number exact) item) assignment).toOption)
        (renumber number exact) :=
    toOption_assignPartial (s := s.calledWith others) (renumber number exact)
  have hlt : ∀ item, ∀ place ∈ (s.calledWith others).candidatesOf (renumber number exact) item,
      place < s.formals.length := fun item place hplace => lt_of_mem_candidatesOf hplace
  rw [hothers, toOption_assignPartial, ← foldlM_perm hnumber.perm fun x _ y _ assignment =>
    assignCandidate_comm (hlt x) (hlt y) x.2 y.2 assignment, List.foldlM_map]
  refine foldlM_map_value (renumber number) (fun assignment item => ?_) s.actuals.zipIdx exact
  rw [candidatesOf_renumber hnumber.injective]
  exact assignCandidate_renumber (fun place hplace => lt_of_mem_candidatesOf hplace) number item.2
    assignment

/-! ## Outcomes -/

/-- The assignment that the passes make. -/
def assign (s : Setting) : Except MatchError Assignment := do
  let exact ← assignExact (dotsPlace? s.dots s.formals) s.formals s.actuals
  let partly ← assignPartial s.names s.formals s.leading s.actuals exact
  return assignPositional s.leading s.actuals partly

/-- The arguments that `...` gathers. -/
def gathered (s : Setting) (assignment : Assignment) : List Arg :=
  (leftover s.actuals assignment).filterMap (s.actuals[·]?)

/-- What the formals receive from an assignment. -/
def distribute (s : Setting) (assignment : Assignment) : List Matched :=
  assignment.zipIdx.map fun item =>
    if dotsPlace? s.dots s.formals = some item.2 then .dots (s.gathered assignment)
    else received s.actuals item.1

/-- An assignment is made in three passes. -/
theorem assign_eq_ok_iff :
    s.assign = .ok assignment ↔ ∃ exact partly,
    assignExact (dotsPlace? s.dots s.formals) s.formals s.actuals = .ok exact ∧
      assignPartial s.names s.formals s.leading s.actuals exact = .ok partly ∧
      assignPositional s.leading s.actuals partly = assignment := by
  unfold assign
  constructor
  · intro hassign
    cases hexact : assignExact (dotsPlace? s.dots s.formals) s.formals s.actuals with
    | error error => rw [hexact] at hassign; cases hassign
    | ok exact =>
        rw [hexact] at hassign
        cases hpartly : assignPartial s.names s.formals s.leading s.actuals exact with
        | error error => simp only [bind, Except.bind, hpartly, reduceCtorEq] at hassign
        | ok partly =>
            simp only [bind, Except.bind, hpartly] at hassign
            exact ⟨exact, partly, rfl, hpartly, Except.ok.inj hassign⟩
  · intro hpasses
    obtain ⟨exact, partly, hexact, hpartly, rfl⟩ := hpasses
    simp only [bind, Except.bind, hexact, hpartly]
    rfl

/-- Matching assigns, refuses arguments that are left over if there are no dots,
and distributes. -/
theorem outcome_eq : s.outcome = s.assign >>= fun assignment =>
    if (dotsPlace? s.dots s.formals).isNone && !(leftover s.actuals assignment).isEmpty then
      .error (.unused (leftover s.actuals assignment))
    else .ok (s.distribute assignment) := by
  unfold outcome matchArgs assign
  dsimp only
  rw [getD_dotsPlace?]
  cases assignExact (dotsPlace? s.dots s.formals) s.formals s.actuals with
  | error error => rfl
  | ok exact =>
      dsimp only [bind, Except.bind]
      cases assignPartial s.names s.formals s.leading s.actuals exact with
      | error error => rfl
      | ok partly => rfl

/-- Matching succeeds exactly if the passes do and the dots take what is left
over, if anything is. -/
theorem outcome_eq_ok_iff {matched : List Matched} : s.outcome = .ok matched ↔
    ∃ assignment, s.assign = .ok assignment ∧
      ((dotsPlace? s.dots s.formals).isSome ∨ leftover s.actuals assignment = []) ∧
      s.distribute assignment = matched := by
  rw [outcome_eq]
  cases s.assign with
  | error error => exact ⟨nofun, nofun⟩
  | ok assignment =>
      have hroom : ((dotsPlace? s.dots s.formals).isNone &&
          !(leftover s.actuals assignment).isEmpty) = false ↔
            ((dotsPlace? s.dots s.formals).isSome ∨ leftover s.actuals assignment = []) := by
        cases dotsPlace? s.dots s.formals <;> simp
      simp only [bind, Except.bind, Except.ok.injEq, exists_eq_left', ← hroom]
      split <;> simp_all

/-- All three passes together take the same arguments. -/
theorem assign_calledWith (hnumber : Renumbers number s.actuals others)
    (hassign : s.assign = .ok assignment) :
    (s.calledWith others).assign = .ok (renumber number assignment) := by
  obtain ⟨exact, partly, hexact, hpartly, rfl⟩ := assign_eq_ok_iff.mp hassign
  refine assign_eq_ok_iff.mpr ⟨renumber number exact, renumber number partly, ?_, ?_,
    assignPositional_renumber hnumber s.leading partly⟩
  · have hothers := assignExact_calledWith hnumber
    rw [hexact] at hothers
    exact hothers
  · have hothers := assignPartial_calledWith hnumber exact
    rw [hpartly] at hothers
    exact toOption_eq_some_iff.mp hothers

/-- The arguments that no formal took, with their indices. -/
def spare (s : Setting) (assignment : Assignment) : List (Arg × Nat) :=
  s.actuals.zipIdx.filter fun item => !assignment.contains (some item.2)

/-- The numbers that are left over are those of the spare arguments. -/
theorem leftover_eq_map (assignment : Assignment) :
    leftover s.actuals assignment = (s.spare assignment).map Prod.snd := by
  have hfilter := List.filter_map (p := fun index => !assignment.contains (some index))
    (f := Prod.snd) (l := s.actuals.zipIdx)
  rw [List.zipIdx_map_snd, ← List.range_eq_range'] at hfilter
  exact hfilter

/-- The dots gather the spare arguments. -/
theorem gathered_eq_map (assignment : Assignment) :
    s.gathered assignment = (s.spare assignment).map Prod.fst := by
  rw [gathered, leftover_eq_map, List.filterMap_map, ← List.filterMap_eq_map]
  refine List.filterMap_congr fun item hitem => ?_
  exact List.mem_zipIdx_iff_getElem?.mp (List.mem_filter.mp hitem).1

/-- The same arguments are spare, and the untagged ones among them keep their
order. -/
theorem spare_calledWith (hnumber : Renumbers number s.actuals others) (assignment : Assignment) :
    ((s.spare assignment).map (Prod.map id number)).Perm
        ((s.calledWith others).spare (renumber number assignment)) ∧
      ((s.spare assignment).map (Prod.map id number)).filter (·.1.tag.isNone) =
        ((s.calledWith others).spare (renumber number assignment)).filter (·.1.tag.isNone) := by
  have hspare : (s.spare assignment).map (Prod.map id number) =
      (s.actuals.zipIdx.map (Prod.map id number)).filter fun item =>
        !(renumber number assignment).contains (some item.2) := by
    rw [List.filter_map, spare]
    congr 2
    funext item
    simp only [Function.comp_apply, Prod.map_snd, contains_renumber hnumber.injective]
  rw [hspare]
  refine ⟨hnumber.perm.filter _, ?_⟩
  rw [List.filter_comm, hnumber.untagged, List.filter_comm]
  rfl

/-- Each formal has its place. -/
theorem length_assign
    (hassign : s.assign = .ok assignment) :
    assignment.length = s.formals.length := by
  obtain ⟨exact, partly, hexact, hpartly, rfl⟩ := assign_eq_ok_iff.mp hassign
  have hlength : partly.length = exact.length := by
    rw [assignPartial_eq] at hpartly
    refine foldlM_invariant (·.length = exact.length)
      (fun item _ assignment following hkept hstep => ?_) rfl hpartly
    rcases assignCandidate_eq_ok ((assignOne_eq ..).symm.trans hstep) with
      ⟨-, rfl⟩ | ⟨place, -, rfl⟩
    · exact hkept
    · rwa [List.length_set]
  have hlength' : exact.length = s.formals.length := by
    simpa using (mapM_eq_ok hexact).length_eq.symm
  rw [assignPositional, List.length_append, length_fill, ← List.length_append,
    List.take_append_drop, hlength, hlength']

/-- Each formal gets what its place takes, and the dots what is spare. -/
theorem getElem?_distribute (assignment : Assignment) (place : Nat) :
    (s.distribute assignment)[place]? = assignment[place]?.map fun taken =>
      if dotsPlace? s.dots s.formals = some place then .dots (s.gathered assignment)
      else received s.actuals taken := by
  rw [distribute, List.getElem?_map, List.getElem?_zipIdx, Option.map_map]
  simp [Function.comp_def]

/-- A formal without dots is missing or supplied. -/
theorem received_cases (actuals : List Arg) (taken : Option Nat) :
    received actuals taken = .missing ∨ ∃ value, received actuals taken = .supplied value := by
  unfold received
  split
  · next value _ => exact .inr ⟨value, rfl⟩
  · exact .inl rfl

/-- Matching that goes through goes through in the other order as well. -/
theorem outcome_calledWith (hnumber : Renumbers number s.actuals others) {matched : List Matched}
    (hok : s.outcome = .ok matched) :
    ∃ assignment, assignment.length = s.formals.length ∧ s.distribute assignment = matched ∧
      (s.calledWith others).outcome =
        .ok ((s.calledWith others).distribute (renumber number assignment)) := by
  obtain ⟨assignment, hassign, hroom, hmatched⟩ := outcome_eq_ok_iff.mp hok
  refine ⟨assignment, length_assign hassign, hmatched,
    outcome_eq_ok_iff.mpr ⟨_, assign_calledWith hnumber hassign, hroom.imp id fun hnone => ?_, rfl⟩⟩
  rw [leftover_eq_map, List.map_eq_nil_iff] at hnone ⊢
  have hspare := (spare_calledWith hnumber assignment).1
  rw [hnone] at hspare
  exact hspare.nil_eq.symm

/-- What `...` gathers, in both orders. -/
theorem gathered_calledWith (hnumber : Renumbers number s.actuals others)
    (assignment : Assignment) :
    (s.gathered assignment).Perm ((s.calledWith others).gathered (renumber number assignment)) ∧
      (s.gathered assignment).filter (·.tag.isNone) =
        ((s.calledWith others).gathered (renumber number assignment)).filter (·.tag.isNone) := by
  obtain ⟨hperm, huntagged⟩ := spare_calledWith hnumber assignment
  have hfst : ((s.spare assignment).map (Prod.map id number)).map Prod.fst =
      (s.spare assignment).map Prod.fst := by
    rw [List.map_map]
    rfl
  rw [gathered_eq_map, gathered_eq_map, ← hfst]
  refine ⟨hperm.map Prod.fst, ?_⟩
  rw [List.filter_map (f := Prod.fst), List.filter_map (f := Prod.fst)]
  exact congrArg (List.map Prod.fst) huntagged

end Setting

open Setting in
/-- **Matching does not depend on where named arguments are written.**  Of two
calls of a function with the same arguments, in which the untagged ones have the
same order, both match or neither does.  If they match, then every formal but
`...` receives the same, and `...` gathers the same arguments, of which the
untagged ones have the same order. -/
theorem matching_ignores_order_of_named (names : Symbol → String) (dots : Symbol)
    (formals : List Formal) (actuals others : List Arg) (hperm : actuals.Perm others)
    (huntagged : actuals.filter (·.tag.isNone) = others.filter (·.tag.isNone)) :
    ((∃ matched, matchArgs names dots formals actuals = .ok matched) ↔
        ∃ matched, matchArgs names dots formals others = .ok matched) ∧
      ∀ matched matched', matchArgs names dots formals actuals = .ok matched →
        matchArgs names dots formals others = .ok matched' →
        ∀ place < formals.length,
          (dotsPlace? dots formals ≠ some place →
            matched[place]? = matched'[place]? ∧
              (matched[place]? = some .missing ∨
                ∃ value, matched[place]? = some (.supplied value))) ∧
          (dotsPlace? dots formals = some place →
            ∃ args args', matched[place]? = some (.dots args) ∧
              matched'[place]? = some (.dots args') ∧
              args.Perm args' ∧ args.filter (·.tag.isNone) = args'.filter (·.tag.isNone)) := by
  have hforth : ∀ {first second : List Arg}, first.Perm second →
      first.filter (·.tag.isNone) = second.filter (·.tag.isNone) →
      (∃ matched, matchArgs names dots formals first = .ok matched) →
      ∃ matched, matchArgs names dots formals second = .ok matched := by
    intro first second hperm huntagged hok
    obtain ⟨number, hnumber⟩ := exists_renumbers hperm huntagged
    obtain ⟨matched, hok⟩ := hok
    obtain ⟨assignment, -, -, hothers⟩ :=
      outcome_calledWith (s := ⟨names, dots, formals, first⟩) hnumber hok
    exact ⟨_, hothers⟩
  refine ⟨⟨hforth hperm huntagged, hforth hperm.symm huntagged.symm⟩, ?_⟩
  intro matched matched' hok hok' place hplace
  obtain ⟨number, hnumber⟩ := exists_renumbers hperm huntagged
  obtain ⟨assignment, hlength, rfl, hothers⟩ :=
    outcome_calledWith (s := ⟨names, dots, formals, actuals⟩) hnumber hok
  cases hok'.symm.trans hothers
  obtain ⟨taken, htaken⟩ : ∃ taken, assignment[place]? = some taken :=
    ⟨_, List.getElem?_eq_getElem (hlength ▸ hplace)⟩
  simp only [getElem?_distribute, getElem?_renumber, htaken, Option.map_some, Option.some.injEq]
  refine ⟨fun hdots => ?_, fun hdots => ?_⟩
  · rw [if_neg hdots, if_neg (by exact hdots)]
    exact ⟨(hnumber.received_eq taken).symm, received_cases actuals taken⟩
  · rw [if_pos hdots, if_pos (by exact hdots)]
    exact ⟨_, _, rfl, rfl, gathered_calledWith hnumber assignment⟩

/-- The call `mixedCall` with its named arguments in other places. -/
def mixedCallReordered : List Arg :=
  [⟨none, some (.ofParts 0 0 0)⟩, ⟨some ⟨5⟩, some (.ofParts 0 3 0)⟩, ⟨none, some (.ofParts 0 2 0)⟩,
    ⟨some ⟨4⟩, some (.ofParts 0 1 0)⟩, ⟨some ⟨3⟩, none⟩]

/-- The tagged arguments of a call with dots change places, and each formal
receives what it did. -/
theorem matching_ignores_order_of_named_mixedCall :
    mixedCall.actuals.Perm mixedCallReordered ∧
      mixedCall.actuals.filter (·.tag.isNone) = mixedCallReordered.filter (·.tag.isNone) ∧
      ∃ matched args, matchArgs mixedCall.names mixedCall.dots mixedCall.formals
        mixedCallReordered =
          .ok matched ∧
        matched[0]? = some (.supplied (.ofParts 0 0 0)) ∧
        matched[1]? = some (.supplied (.ofParts 0 1 0)) ∧ matched[2]? = some (.dots args) ∧
        matched[3]? = some .missing ∧
        [⟨none, some (.ofParts 0 2 0)⟩, ⟨some ⟨5⟩, some (.ofParts 0 3 0)⟩].Perm args := by
  have hperm : mixedCall.actuals.Perm mixedCallReordered := by decide
  have huntagged : mixedCall.actuals.filter (·.tag.isNone) =
      mixedCallReordered.filter (·.tag.isNone) := by decide
  have hok : matchArgs mixedCall.names mixedCall.dots mixedCall.formals mixedCall.actuals =
      .ok [.supplied (.ofParts 0 0 0), .supplied (.ofParts 0 1 0),
        .dots [⟨none, some (.ofParts 0 2 0)⟩, ⟨some ⟨5⟩, some (.ofParts 0 3 0)⟩], .missing] := by
    decide +kernel
  have horder := matching_ignores_order_of_named mixedCall.names mixedCall.dots mixedCall.formals
    _ _ hperm huntagged
  obtain ⟨matched, hmatched⟩ := horder.1.mp ⟨_, hok⟩
  have hplace := horder.2 _ matched hok hmatched
  obtain ⟨args, args', hargs, hdots, hgathered, -⟩ := (hplace 2 (by decide)).2 (by decide)
  cases hargs
  exact ⟨hperm, huntagged, matched, args', hmatched,
    ((hplace 0 (by decide)).1 (by decide)).1.symm, ((hplace 1 (by decide)).1 (by decide)).1.symm,
    hdots, ((hplace 3 (by decide)).1 (by decide)).1.symm, hgathered⟩

end LazyDispatch.Matching
