import LazyDispatch.Proofs.MatchingRule

/-!
# Matching follows the rule

Matching is done in three passes that hand on an assignment.  Each pass is one
lemma: when it goes through, the assignment records a part of the rule, and when
it fails, the error names what is wrong with the call.
-/

namespace LazyDispatch.Matching

/-! ## Lists of indices -/

theorem indicesWhere_cons {α : Type} (p : α → Bool) (item : α) (rest : List α) :
    indicesWhere p (item :: rest) =
      if p item then 0 :: (indicesWhere p rest).map (· + 1)
        else (indicesWhere p rest).map (· + 1) := by
  have hrest : ((rest.zipIdx 1).filter fun item => p item.1).map (·.2) =
      (indicesWhere p rest).map (· + 1) := by
    rw [List.zipIdx_succ, List.filter_map, List.map_map, indicesWhere, List.map_map]
    rfl
  rw [indicesWhere, List.zipIdx_cons, List.filter_cons]
  split <;> simp_all

theorem indicesWhere_eq_filter {α : Type} (p : α → Bool) (items : List α) :
    indicesWhere p items = (List.range items.length).filter fun index => items[index]?.any p := by
  induction items with
  | nil => rfl
  | cons item rest ih =>
      rw [indicesWhere_cons, ih, List.length_cons, List.range_succ_eq_map, List.filter_cons,
        List.filter_map]
      simp [Function.comp_def]

theorem mem_indicesWhere {α : Type} {p : α → Bool} {items : List α} {index : Nat} :
    index ∈ indicesWhere p items ↔ ∃ item, items[index]? = some item ∧ p item := by
  simp only [indicesWhere_eq_filter, List.mem_filter, List.mem_range, Option.any_eq_true]
  refine ⟨fun hmem => hmem.2, fun hitem => ⟨?_, hitem⟩⟩
  obtain ⟨item, hitem, -⟩ := hitem
  exact (List.getElem?_eq_some_iff.mp hitem).1

theorem nodup_indicesWhere {α : Type} (p : α → Bool) (items : List α) :
    (indicesWhere p items).Nodup := by
  rw [indicesWhere_eq_filter]
  exact List.nodup_range.filter _

/-- Filling keeps what is assigned, and gives the open places the indices in
order. -/
theorem getElem?_fill {assignment : Assignment} {indices : List Nat}
    {place index : Nat} :
    (fill assignment indices)[place]? = some (some index) ↔
      assignment[place]? = some (some index) ∨ ∃ number : Nat,
        (indicesWhere Option.isNone assignment)[number]? = some place ∧
          indices[number]? = some index := by
  fun_induction fill assignment indices generalizing place with
  | case1 indices => simp [indicesWhere]
  | case2 taken rest indices ih =>
      cases place with
      | zero => simp [indicesWhere_cons]
      | succ place => simp [indicesWhere_cons, ih]
  | case3 rest => simp
  | case4 rest first indices ih =>
      cases place with
      | zero =>
          simp only [indicesWhere_cons, Option.isNone_none, if_true, List.getElem?_cons_zero]
          constructor
          · intro hfirst
            exact .inr ⟨0, rfl, by simpa using hfirst⟩
          · intro htaken
            rcases htaken with hnone | ⟨number, hplace, hindex⟩
            · cases hnone
            · cases number with
              | zero => simpa using hindex
              | succ number => simp at hplace
      | succ place =>
          simp only [indicesWhere_cons, Option.isNone_none, if_true, List.getElem?_cons_succ, ih]
          refine or_congr_right ⟨fun htaken => ?_, fun htaken => ?_⟩
          · obtain ⟨number, hplace, hindex⟩ := htaken
            exact ⟨number + 1, by simpa using hplace, by simpa using hindex⟩
          · obtain ⟨number, hplace, hindex⟩ := htaken
            cases number with
            | zero => simp at hplace
            | succ number => exact ⟨number, by simpa using hplace, by simpa using hindex⟩

theorem length_fill (assignment : Assignment) (indices : List Nat) :
    (fill assignment indices).length = assignment.length := by
  fun_induction fill assignment indices <;> simp_all

/-! ## The tables of the second pass -/

/-- The places below `limit` that the first pass left open and whose names begin
with a tag. -/
def candidates (names : Symbol → String) (formals : List Formal) (limit : Nat)
    (exact : Assignment) (tag : Symbol) : List Nat :=
  (List.range limit).filter fun place =>
    (exact[place]?.getD none).isNone &&
      formals[place]?.any fun formal => Text.begins (names tag) (names formal.name)

/-- Lets one argument of the second pass, at `index`, take its sole candidate. -/
def assignCandidate (formals : List Formal) (index : Nat) (places : List Nat)
    (assignment : Assignment) : Except MatchError Assignment :=
  match places with
  | [] => .ok assignment
  | [place] =>
    match formals[place]?, assignment[place]?.getD none with
    | some formal, some _ => .error (.multipleMatch formal.name)
    | _, _ => .ok (assignment.set place (some index))
  | _ => .error (.ambiguous index)

namespace PartialTables

/-- The tables tell apart what the first pass assigned and what the second pass
assigned to the arguments before an index. -/
structure Follows (exact : Assignment) (count : Nat) (tables : PartialTables) :
    Prop where
  length : tables.partly.length = tables.bound.length
  partly : ∀ place : Nat, tables.isPartly place =
    ((exact[place]?.getD none).isNone && (tables.bound[place]?.getD none).isSome)
  kept : ∀ place : Nat, (exact[place]?.getD none).isSome →
    (tables.bound[place]?.getD none).isSome
  later : ∀ index, count ≤ index →
    (some index ∈ tables.bound ↔ some index ∈ exact)

/-- The second pass begins with what the first one assigned. -/
theorem follows_start (exact : Assignment) :
    Follows exact 0 (.start exact) where
  length := by simp [start]
  partly place := by
    simp only [start, isPartly, List.getElem?_map]
    cases exact[place]? with
    | none => rfl
    | some taken => cases taken <;> rfl
  kept _ htaken := htaken
  later _ _ := Iff.rfl

variable {exact : Assignment} {count place : Nat} {tables after : PartialTables}

/-- A formal is open if the first pass gave it no argument. -/
theorem Follows.isOpen (hfollows : Follows exact count tables) (place : Nat) :
    tables.isOpen place = (exact[place]?.getD none).isNone := by
  have hkept := hfollows.kept place
  rw [PartialTables.isOpen, hfollows.partly place]
  cases hexact : exact[place]?.getD none with
  | none => cases tables.bound[place]?.getD none <;> rfl
  | some index =>
      rw [hexact] at hkept
      cases hbound : tables.bound[place]?.getD none with
      | none =>
          rw [hbound] at hkept
          exact absurd (hkept rfl) Bool.false_ne_true
      | some taken => rfl

/-- So the candidates can be told from the first pass. -/
theorem Follows.candidates (hfollows : Follows exact count tables)
    (names : Symbol → String) (formals : List Formal) (limit : Nat)
    (tag : Symbol) :
    tables.candidates names formals limit tag =
      Matching.candidates names formals limit exact tag := by
  simp only [PartialTables.candidates, Matching.candidates, hfollows.isOpen]

/-- Only arguments before the next one are taken, apart from those that the
first pass assigned. -/
theorem Follows.next (hfollows : Follows exact count tables) :
    Follows exact (count + 1) tables :=
  ⟨hfollows.length, hfollows.partly, hfollows.kept,
    fun index hindex => hfollows.later index (Nat.le_of_succ_le hindex)⟩

/-- A formal that is open and was not taken takes an argument. -/
theorem Follows.set (hfollows : Follows exact count tables)
    (hopen : (exact[place]?.getD none).isNone)
    (hfree : tables.isPartly place = false) :
    Follows exact (count + 1)
      ⟨tables.bound.set place (some count), tables.partly.set place true⟩ := by
  have hnone : tables.bound[place]?.getD none = none := by
    have hpartly := hfollows.partly place
    rw [hfree, hopen, Bool.true_and] at hpartly
    exact Option.not_isSome_iff_eq_none.mp (ne_true_of_eq_false hpartly.symm)
  refine ⟨by simp [hfollows.length], fun other => ?_, fun other htaken => ?_,
    fun index hindex => ?_⟩
  · by_cases hother : place = other
    · subst hother
      rw [isPartly, List.getElem?_set, List.getElem?_set, hopen, hfollows.length]
      by_cases hlt : place < tables.bound.length <;> simp [hlt]
    · have hpartly := hfollows.partly other
      rw [isPartly] at hpartly ⊢
      rw [List.getElem?_set_ne hother, List.getElem?_set_ne hother]
      exact hpartly
  · have hother : place ≠ other := by
      intro hsame
      subst hsame
      rw [Option.isNone_iff_eq_none.mp hopen] at htaken
      cases htaken
    rw [List.getElem?_set_ne hother]
    exact hfollows.kept other htaken
  · -- The argument that is taken comes before the others, and replaces none of them.
    rw [← hfollows.later index (Nat.le_of_succ_le hindex)]
    simp only [List.mem_iff_getElem?]
    refine exists_congr fun other => ?_
    by_cases hother : place = other
    · subst hother
      have hcount : count ≠ index := by omega
      have htaken : tables.bound[place]? ≠ some (some index) := by
        intro htaken
        rw [htaken] at hnone
        cases hnone
      refine iff_of_false (fun hset => ?_) htaken
      rw [List.getElem?_set] at hset
      by_cases hlt : place < tables.bound.length <;> simp [hlt, hcount] at hset
    · rw [List.getElem?_set_ne hother]

/-- The argument at an index takes its sole candidate, told from the tables or
from the assignment. -/
theorem Follows.take (hfollows : Follows exact count tables)
    {formals : List Formal} {places : List Nat}
    (hopen : ∀ place ∈ places, (exact[place]?.getD none).isNone ∧
      ∃ formal, formals[place]? = some formal) :
    (tables.take formals count places).map bound =
        assignCandidate formals count places tables.bound ∧
      ∀ after, tables.take formals count places = .ok after →
        Follows exact (count + 1) after := by
  unfold PartialTables.take assignCandidate
  rcases places with _ | ⟨place, _ | ⟨second, rest⟩⟩
  · refine ⟨rfl, fun after hafter => ?_⟩
    cases hafter
    exact hfollows.next
  · obtain ⟨hplace, formal, hformal⟩ := hopen place List.mem_cons_self
    have hpartly := hfollows.partly place
    rw [hplace, Bool.true_and] at hpartly
    simp only [hformal]
    cases hbound : tables.bound[place]?.getD none with
    | none =>
        have hfree : tables.isPartly place = false := by
          rw [hpartly, hbound]
          rfl
        rw [hfree]
        refine ⟨rfl, fun after hafter => ?_⟩
        cases hafter
        exact hfollows.set hplace hfree
    | some taken =>
        have htaken : tables.isPartly place = true := by
          rw [hpartly, hbound]
          rfl
        rw [htaken]
        refine ⟨rfl, fun after hafter => ?_⟩
        cases hafter
  · refine ⟨rfl, fun after hafter => ?_⟩
    cases hafter

/-- The candidates are formals that the first pass left open. -/
theorem isOpen_of_mem_candidates {names : Symbol → String} {formals : List Formal}
    {limit : Nat} {tag : Symbol}
    (hplace : place ∈ Matching.candidates names formals limit exact tag) :
    (exact[place]?.getD none).isNone ∧ ∃ formal, formals[place]? = some formal := by
  obtain ⟨hopen, hbegins⟩ := Bool.and_eq_true_iff.mp (List.mem_filter.mp hplace).2
  obtain ⟨formal, hformal, -⟩ := (Option.any_eq_true ..).mp hbegins
  exact ⟨hopen, formal, hformal⟩

end PartialTables

namespace Setting

variable {error : MatchError}

variable {exact : Assignment}

variable {s : Setting} {index place : Nat}

/-! ## Steps that explain their errors -/

/-- A step of matching gives a value with a property, or an error that says what
is wrong. -/
def Explained (s : Setting) {α : Type} (right : α → Prop) : Except MatchError α → Prop
  | .ok value => right value
  | .error error => s.Explains error

theorem Explained.imp {α : Type} {p q : α → Prop} {step : Except MatchError α}
    (hstep : s.Explained p step) (himp : ∀ value, p value → q value) :
    s.Explained q step := by
  cases step with
  | ok value => exact himp value hstep
  | error error => exact hstep

theorem Explained.bind {α β : Type} {p : α → Prop} {q : β → Prop}
    {step : Except MatchError α} {following : α → Except MatchError β}
    (hstep : s.Explained p step)
    (hfollowing : ∀ value, p value → s.Explained q (following value)) :
    s.Explained q (step >>= following) := by
  cases step with
  | ok value => exact hfollowing value hstep
  | error error => exact hstep

theorem Explained.mapM {α β : Type} {right : α → β → Prop}
    {f : α → Except MatchError β} {items : List α}
    (hitems : ∀ item ∈ items, s.Explained (right item) (f item)) :
    s.Explained (List.Forall₂ right items) (items.mapM f) := by
  induction items with
  | nil => exact .nil
  | cons item rest ih =>
      rw [List.mapM_cons]
      refine (hitems item List.mem_cons_self).bind fun result hresult => ?_
      refine (ih fun other hother => hitems other (List.mem_cons_of_mem _ hother)).bind ?_
      intro results hresults
      exact .cons hresult hresults

/-! ## Assignments -/

/-- An assignment gives each formal the argument that a part of the rule says. -/
structure Records (s : Setting) (part : Nat → Nat → Prop)
    (assignment : Assignment) : Prop where
  length : assignment.length = s.formals.length
  takes : ∀ place index, assignment[place]? = some (some index) ↔ part index place

theorem Records.mem_iff {part : Nat → Nat → Prop} {assignment : Assignment}
    (hrecords : s.Records part assignment) :
    some index ∈ assignment ↔ ∃ place, part index place := by
  simp [List.mem_iff_getElem?, hrecords.takes]

theorem Records.isNone_iff {part : Nat → Nat → Prop} {assignment : Assignment}
    (hrecords : s.Records part assignment) :
    (assignment[place]?.getD none).isNone ↔ ∀ index, ¬ part index place := by
  simp only [← hrecords.takes]
  cases assignment[place]? with
  | none => simp
  | some taken => cases taken <;> simp

/-! ## The three passes -/

theorem dotsPlace?_eq_some_iff (hdistinct : (s.formals.map (·.name)).Nodup) :
    dotsPlace? s.dots s.formals = some place ↔ s.nameAt place = some s.dots := by
  rw [dotsPlace?, List.findIdx?_eq_some_iff_getElem]
  constructor
  · intro hfound
    obtain ⟨hlt, hname, -⟩ := hfound
    simpa [nameAt, List.getElem?_eq_getElem hlt] using hname
  · intro hname
    have hlt := lt_of_nameAt hname
    refine ⟨hlt, by simpa [nameAt, List.getElem?_eq_getElem hlt] using hname, ?_⟩
    intro earlier hearlier
    have hne : s.nameAt earlier ≠ some s.dots := fun hdots =>
      Nat.ne_of_lt hearlier (nameAt_inj hdistinct hdots hname)
    simpa [nameAt, List.getElem?_eq_getElem (Nat.lt_trans hearlier hlt)] using hne

theorem dotsPlace?_eq_none_iff :
    dotsPlace? s.dots s.formals = none ↔ s.dots ∉ s.formals.map (·.name) := by
  simp [dotsPlace?, List.findIdx?_eq_none_iff]

theorem getD_dotsPlace? :
    (dotsPlace? s.dots s.formals).getD s.formals.length = s.leading := by
  rw [dotsPlace?, ← List.findIdx_eq_getD_findIdx?, leading, List.takeWhile_eq_take_findIdx_not,
    List.length_take]
  simp [List.findIdx_le_length]

/-- The indices that the first pass looks for. -/
theorem mem_tagged_iff {formal : Formal} (hformal : s.formals[place]? = some formal)
    (hne : formal.name ≠ s.dots) :
    index ∈ indicesWhere (·.tag = some formal.name) s.actuals ↔ s.NamesExactly index place := by
  simp [mem_indicesWhere, NamesExactly, nameAt, tagAt, hformal, hne, Option.bind_eq_some_iff]

/-- What the first pass decides about one formal. -/
def exactIndex (s : Setting) (formal : Formal) (place : Nat) :
    Except MatchError (Option Nat) :=
  if dotsPlace? s.dots s.formals = some place then .ok none
  else
    match indicesWhere (·.tag = some formal.name) s.actuals with
    | [] => .ok none
    | [index] => .ok (some index)
    | _ => .error (.multipleMatch formal.name)

theorem assignExact_eq : assignExact (dotsPlace? s.dots s.formals) s.formals s.actuals =
    s.formals.zipIdx.mapM fun item => s.exactIndex item.1 item.2 := rfl

theorem explained_exactIndex (hdistinct : (s.formals.map (·.name)).Nodup) {formal : Formal}
    (hformal : s.formals[place]? = some formal) :
    s.Explained (fun taken => (∀ index, taken = some index ↔ s.NamesExactly index place) ∧
      ∀ i j, s.NamesExactly i place → s.NamesExactly j place → i = j)
      (s.exactIndex formal place) := by
  have hname : s.nameAt place = some formal.name := by simp [nameAt, hformal]
  unfold exactIndex
  by_cases hdots : formal.name = s.dots
  · have hnone : ∀ index, ¬ s.NamesExactly index place := by
      intro index hexact
      obtain ⟨name, hname', hne, -⟩ := hexact
      cases hname.symm.trans hname'
      exact hne hdots
    rw [if_pos ((dotsPlace?_eq_some_iff hdistinct).mpr (hdots ▸ hname))]
    exact ⟨fun index => by simp [hnone], fun i j hi => absurd hi (hnone i)⟩
  · have hplace : dotsPlace? s.dots s.formals ≠ some place := by
      intro hplace
      have hdots' := (dotsPlace?_eq_some_iff hdistinct).mp hplace
      exact hdots (Option.some.inj (hname.symm.trans hdots'))
    rw [if_neg hplace]
    have hmem : ∀ index, index ∈ indicesWhere (·.tag = some formal.name) s.actuals ↔
        s.NamesExactly index place := fun index => mem_tagged_iff hformal hdots
    have hnodup := nodup_indicesWhere (·.tag = some formal.name) s.actuals
    generalize indicesWhere (·.tag = some formal.name) s.actuals = indices at hmem hnodup
    rcases indices with _ | ⟨first, _ | ⟨second, rest⟩⟩
    · exact ⟨by simpa using hmem, fun i j hi => absurd ((hmem i).mpr hi) (by simp)⟩
    · simp only [List.mem_singleton] at hmem
      refine ⟨fun index => ?_, fun i j hi hj => ?_⟩
      · rw [← hmem, Option.some.injEq, eq_comm]
      · rw [(hmem i).mpr hi, (hmem j).mpr hj]
    · refine ⟨place, first, second, hname, ?_,
        .inl ⟨(hmem first).mp (by simp), (hmem second).mp (by simp)⟩⟩
      intro heq
      simp [heq] at hnodup

/-- **First pass.**  Every formal but `...` takes the argument tagged with its
name, if there is no second one. -/
theorem explained_assignExact (hdistinct : (s.formals.map (·.name)).Nodup) :
    s.Explained (fun exact => s.NamedOnce ∧ s.Records s.NamesExactly exact)
      (assignExact (dotsPlace? s.dots s.formals) s.formals s.actuals) := by
  rw [assignExact_eq]
  have hall : s.Explained _ (s.formals.zipIdx.mapM fun item => s.exactIndex item.1 item.2) :=
    .mapM fun item hitem => explained_exactIndex hdistinct (List.mem_zipIdx_iff_getElem?.mp hitem)
  refine hall.imp fun exact hexact => ?_
  have hlength : exact.length = s.formals.length := by
    simpa using hexact.length_eq.symm
  have hplace : ∀ {place}, place < s.formals.length →
      (∀ index, exact[place]? = some (some index) ↔ s.NamesExactly index place) ∧
        ∀ i j, s.NamesExactly i place → s.NamesExactly j place → i = j := by
    intro place hlt
    have hresult := (List.forall₂_iff_get.mp hexact).2 place (by simpa using hlt) (by omega)
    simp only [List.get_eq_getElem, List.getElem_zipIdx, Nat.zero_add] at hresult
    rw [List.getElem?_eq_getElem (by omega)]
    simpa using hresult
  refine ⟨fun place i j hi hj => (hplace hi.lt_formals).2 i j hi hj, hlength, fun place index => ?_⟩
  constructor
  · intro htaken
    have hlt := (List.getElem?_eq_some_iff.mp htaken).1
    exact ((hplace (hlength ▸ hlt)).1 index).mp htaken
  · intro hnames
    exact ((hplace hnames.lt_formals).1 index).mpr hnames

/-- The part of the rule that is recorded when the second pass has come to an
index. -/
def Upto (s : Setting) (count index place : Nat) : Prop :=
  s.NamesExactly index place ∨ index < count ∧ s.IsSole index place

/-- The second pass has come to an index, and the arguments before it have been
given their formals. -/
structure Reached (s : Setting) (count : Nat) (assignment : Assignment) :
    Prop where
  records : s.Records (s.Upto count) assignment
  unambiguous : ∀ index < count, ∀ p q, s.IsCandidate index p → s.IsCandidate index q → p = q
  unshared : ∀ i < count, ∀ j < count, ∀ place, s.IsSole i place → s.IsSole j place → i = j

/-- What the second pass does with one argument. -/
def assignOne (s : Setting) (exact assignment : Assignment) (actual : Arg)
    (index : Nat) :
    Except MatchError Assignment :=
  match actual.tag with
  | none => .ok assignment
  | some tag =>
    if exact.contains (some index) then .ok assignment
    else assignCandidate s.formals index
      (candidates s.names s.formals s.leading exact tag) assignment

/-- The step on the tables is the step on the assignment. -/
theorem assignOne_eq_advance {count : Nat}
    {tables : PartialTables} (hfollows : tables.Follows exact count) (actual : Arg) :
    (tables.advance s.names s.formals s.leading actual count).map PartialTables.bound =
        s.assignOne exact tables.bound actual count ∧
      ∀ after, tables.advance s.names s.formals s.leading actual count = .ok after →
        after.Follows exact (count + 1) := by
  have hsame : (Except.ok tables : Except MatchError PartialTables).map
        PartialTables.bound = .ok tables.bound ∧
      ∀ after, Except.ok tables = (.ok after : Except MatchError PartialTables) →
        after.Follows exact (count + 1) := by
    refine ⟨rfl, fun after hafter => ?_⟩
    cases hafter
    exact hfollows.next
  have hused : tables.bound.contains (some count) = exact.contains (some count) := by
    rw [Bool.eq_iff_iff, List.contains_iff_mem, List.contains_iff_mem]
    exact hfollows.later count (Nat.le_refl count)
  unfold PartialTables.advance assignOne
  cases actual.tag with
  | none => exact hsame
  | some tag =>
      dsimp only
      rw [hused, hfollows.candidates]
      split
      · exact hsame
      · exact hfollows.take fun place hplace =>
          PartialTables.isOpen_of_mem_candidates hplace

/-- **The second pass can be told without its tables:** what is open to it is
what the first pass left open. -/
theorem assignPartial_eq (exact : Assignment) :
    assignPartial s.names s.formals s.leading s.actuals exact =
      s.actuals.zipIdx.foldlM (fun assignment item =>
        s.assignOne exact assignment item.1 item.2) exact := by
  -- The pass goes through the arguments in order, so it stands at the index of
  -- the first of the rest.
  have hrun : ∀ (rest : List Arg) (count : Nat) (tables : PartialTables),
      tables.Follows exact count →
      ((rest.zipIdx count).foldlM (fun (tables : PartialTables) item =>
          tables.advance s.names s.formals s.leading item.1 item.2) tables).map
            PartialTables.bound =
        (rest.zipIdx count).foldlM (fun assignment item =>
          s.assignOne exact assignment item.1 item.2) tables.bound := by
    intro rest
    induction rest with
    | nil => exact fun _ _ _ => rfl
    | cons actual rest ih =>
        intro count tables hfollows
        obtain ⟨hsame, hnext⟩ := assignOne_eq_advance (s := s) hfollows actual
        rw [List.zipIdx_cons, List.foldlM_cons, List.foldlM_cons, ← hsame]
        cases hstep : tables.advance s.names s.formals s.leading actual count with
        | error error => rfl
        | ok after => exact ih (count + 1) after (hnext after hstep)
  exact hrun s.actuals 0 (.start exact) (PartialTables.follows_start exact)

theorem mem_candidates (hexact : s.Records s.NamesExactly exact) {tag : Symbol}
    (htag : s.tagAt index = some tag) (hnot : some index ∉ exact) :
    place ∈ candidates s.names s.formals s.leading exact tag ↔ s.IsCandidate index place := by
  have hnames : ∀ other, ¬ s.NamesExactly index other := by
    simpa [hexact.mem_iff] using hnot
  simp only [candidates, List.mem_filter, List.mem_range, Bool.and_eq_true, hexact.isNone_iff,
    Option.any_eq_true, IsCandidate, htag, nameAt, Option.mem_def, Option.some.injEq,
    Option.map_eq_some_iff]
  constructor
  · intro hplace
    obtain ⟨hlt, hopen, formal, hformal, hbegins⟩ := hplace
    exact ⟨fun other _ => hnames other, hlt, fun other _ => hopen other, tag, rfl, formal.name,
      ⟨formal, hformal, rfl⟩, hbegins⟩
  · intro hcandidate
    obtain ⟨-, hlt, hopen, _, rfl, _, ⟨formal, hformal, rfl⟩, hbegins⟩ := hcandidate
    exact ⟨hlt, fun other hother => hopen other hother.lt_actuals hother, formal, hformal, hbegins⟩

theorem nodup_candidates (names : Symbol → String) (formals : List Formal)
    (limit : Nat) (exact : Assignment) (tag : Symbol) :
    (candidates names formals limit exact tag).Nodup :=
  List.nodup_range.filter _

variable {count : Nat} {assignment : Assignment}

/-- The second pass leaves an argument without candidates alone. -/
theorem Reached.skip (hreached : s.Reached count assignment)
    (hnone : ∀ place, ¬ s.IsCandidate count place) :
    s.Reached (count + 1) assignment where
  records := by
    refine ⟨hreached.records.length,
      fun place index => (hreached.records.takes place index).trans ?_⟩
    refine or_congr_right (and_congr_left fun hsole => ?_)
    have hne : index ≠ count := fun heq => hnone place (heq ▸ hsole.1)
    omega
  unambiguous := by
    intro index hlt p q hp hq
    have hne : index ≠ count := fun heq => hnone p (heq ▸ hp)
    exact hreached.unambiguous index (by omega) p q hp hq
  unshared := by
    intro i hi j hj place hsole hsole'
    have hne : i ≠ count := fun heq => hnone place (heq ▸ hsole.1)
    have hne' : j ≠ count := fun heq => hnone place (heq ▸ hsole'.1)
    exact hreached.unshared i (by omega) j (by omega) place hsole hsole'

/-- The second pass gives an argument its sole candidate. -/
theorem Reached.set (hreached : s.Reached count assignment)
    (hsole : s.IsSole count place) (hfree : ∀ index, ¬ s.Upto count index place)
    :
    s.Reached (count + 1) (assignment.set place (some count)) where
  records := by
    have hlt : place < assignment.length := hreached.records.length.symm ▸ hsole.1.lt_formals
    refine ⟨by simpa using hreached.records.length, fun other index => ?_⟩
    by_cases hother : place = other
    · subst hother
      rw [List.getElem?_set_self hlt]
      constructor
      · intro htaken
        cases htaken
        exact .inr ⟨by omega, hsole⟩
      · intro hupto
        have hindex : index = count := by
          rcases hupto with hexact | ⟨hle, hsole'⟩
          · exact absurd (.inl hexact) (hfree index)
          · have hge : ¬ index < count := fun hlt => hfree index (.inr ⟨hlt, hsole'⟩)
            omega
        rw [hindex]
    · rw [List.getElem?_set_ne hother, hreached.records.takes]
      refine or_congr_right (and_congr_left fun hsole' => ?_)
      have hne : index ≠ count := by
        intro heq
        subst heq
        exact hother (hsole'.eq hsole.1)
      omega
  unambiguous := by
    intro index hlt p q hp hq
    rcases Nat.lt_succ_iff_lt_or_eq.mp hlt with hlt | rfl
    · exact hreached.unambiguous index hlt p q hp hq
    · rw [hsole.eq hp, hsole.eq hq]
  unshared := by
    have hnew : ∀ i < count, ∀ other, s.IsSole i other → ¬ s.IsSole count other := by
      intro i hi other hi' hcount
      cases hsole.eq hcount.1
      exact hfree i (.inr ⟨hi, hi'⟩)
    intro i hi j hj other hfirst hsecond
    rcases Nat.lt_succ_iff_lt_or_eq.mp hi with hi | rfl
    · rcases Nat.lt_succ_iff_lt_or_eq.mp hj with hj | rfl
      · exact hreached.unshared i hi j hj other hfirst hsecond
      · exact absurd hsecond (hnew i hi other hfirst)
    · rcases Nat.lt_succ_iff_lt_or_eq.mp hj with hj | rfl
      · exact absurd hfirst (hnew j hj other hsecond)
      · rfl

theorem explained_assignCandidate (hreached : s.Reached count assignment) {places : List Nat}
    (hnodup : places.Nodup) (hmem : ∀ place, place ∈ places ↔ s.IsCandidate count place) :
    s.Explained (s.Reached (count + 1)) (assignCandidate s.formals count places assignment) := by
  unfold assignCandidate
  split
  · exact hreached.skip fun place => by simp [← hmem]
  · next place =>
      simp only [List.mem_singleton] at hmem
      have hsole : s.IsSole count place := .of_candidates fun other => (hmem other).symm
      split
      · next formal other hformal htaken =>
          have hupto : s.Upto count other place := by
            rw [← hreached.records.takes]
            cases hentry : assignment[place]? with
            | none => simp [hentry] at htaken
            | some entry => simpa [hentry] using htaken
          rcases hupto with hnames | ⟨hearlier, hother⟩
          · exact absurd hnames (hsole.1.2.2.1 other hnames.lt_actuals)
          · exact ⟨place, other, count, by simp [nameAt, hformal], by omega, .inr ⟨hother, hsole⟩⟩
      · next hfree =>
          refine hreached.set hsole (hreached.records.isNone_iff.mp ?_)
          have hformal := List.getElem?_eq_getElem hsole.1.lt_formals
          cases htaken : assignment[place]?.getD none with
          | none => rfl
          | some other => exact absurd htaken (hfree _ other hformal)
  · next hnil hsingle =>
      rcases places with _ | ⟨first, _ | ⟨second, rest⟩⟩
      · exact absurd rfl hnil
      · exact absurd rfl (hsingle first)
      · refine ⟨first, second, ?_, (hmem first).mp (by simp), (hmem second).mp (by simp)⟩
        intro heq
        simp [heq] at hnodup

/-- One step of the second pass. -/
theorem explained_assignOne (hexact : s.Records s.NamesExactly exact)
    (hreached : s.Reached count assignment) {actual : Arg}
    (hactual : s.actuals[count]? = some actual) :
    s.Explained (s.Reached (count + 1)) (s.assignOne exact assignment actual count) := by
  have htag : s.tagAt count = actual.tag := by simp [tagAt, hactual]
  unfold assignOne
  split
  · next hnone =>
      refine hreached.skip fun place hcandidate => ?_
      obtain ⟨-, -, -, tag, htag', -⟩ := hcandidate
      cases (htag'.symm.trans htag).trans hnone
  · next tag hsome =>
      split
      · next hcontains =>
          refine hreached.skip fun place hcandidate => ?_
          obtain ⟨other, hother⟩ := hexact.mem_iff.mp (List.contains_iff_mem.mp hcontains)
          exact hcandidate.1 other hother.lt_formals hother
      · next hcontains =>
          exact explained_assignCandidate hreached (nodup_candidates ..) fun place =>
            mem_candidates hexact (htag.trans hsome) (mt List.contains_iff_mem.mpr hcontains)

/-- **Second pass.**  An argument whose tag begins the name of exactly one
formal is taken by it, if there is no second one. -/
theorem explained_assignPartial (hexact : s.Records s.NamesExactly exact) :
    s.Explained (s.Reached s.actuals.length)
      (assignPartial s.names s.formals s.leading s.actuals exact) := by
  -- The pass goes through the arguments in order, so it stands at the index of
  -- the first of the rest.
  have hrun : ∀ (rest : List Arg) (count : Nat) (assignment : Assignment),
      s.actuals.drop count = rest → s.Reached count assignment →
      s.Explained (s.Reached (count + rest.length))
        ((rest.zipIdx count).foldlM (fun assignment item =>
          s.assignOne exact assignment item.1 item.2) assignment) := by
    intro rest
    induction rest with
    | nil => intro count assignment _ hreached; exact hreached
    | cons actual rest ih =>
        intro count assignment hdrop hreached
        have hactual : s.actuals[count]? = some actual := by
          rw [← List.head?_drop, hdrop, List.head?_cons]
        have hdrop' : s.actuals.drop (count + 1) = rest := by
          rw [← List.tail_drop, hdrop, List.tail_cons]
        rw [List.zipIdx_cons, List.foldlM_cons, List.length_cons,
          show count + (rest.length + 1) = count + 1 + rest.length by omega]
        exact (explained_assignOne hexact hreached hactual).bind fun following hfollowing =>
          ih _ _ hdrop' hfollowing
  have hstart : s.Reached 0 exact :=
    ⟨⟨hexact.length, fun place index => by simp [Upto, hexact.takes]⟩, nofun, nofun⟩
  simpa [assignPartial_eq] using hrun s.actuals 0 exact rfl hstart

theorem Reached.unmistaken (hreached : s.Reached s.actuals.length assignment)
    (honce : s.NamedOnce) : s.Unmistaken where
  namedOnce := honce
  unambiguous := fun index p q hp hq => hreached.unambiguous index hp.lt_actuals p q hp hq
  unshared := fun place i j hi hj =>
    hreached.unshared i hi.1.lt_actuals j hj.1.lt_actuals place hi hj

theorem sameNumber_iff : s.SameNumber index place ↔ ∃ number : Nat,
    s.openPlaces[number]? = some place ∧ s.untagged[number]? = some index := by
  constructor
  · intro hsame
    obtain ⟨number, -, hnumber⟩ := hsame
    exact ⟨number, hnumber⟩
  · intro hsame
    obtain ⟨number, hplace, hindex⟩ := hsame
    exact ⟨number, (List.getElem?_eq_some_iff.mp hplace).1, hplace, hindex⟩

theorem untagged_eq : indicesWhere (·.tag.isNone) s.actuals = s.untagged := by
  rw [indicesWhere_eq_filter, untagged]
  refine List.filter_congr fun index hindex => ?_
  rw [tagAt, List.getElem?_eq_getElem (List.mem_range.mp hindex), Option.any_some, Option.bind_some,
    Bool.eq_iff_iff, decide_eq_true_iff, Option.isNone_iff_eq_none]

theorem Reached.takes (hreached : s.Reached s.actuals.length assignment) :
    assignment[place]? = some (some index) ↔ s.NamesExactly index place ∨ s.IsSole index place := by
  rw [hreached.records.takes]
  exact or_congr_right (and_iff_right_of_imp fun hsole => hsole.1.lt_actuals)

theorem Reached.leading_le (hreached : s.Reached count assignment) :
    s.leading ≤ assignment.length :=
  hreached.records.length.symm ▸ Setting.leading_le

theorem Reached.openPlaces_eq (hreached : s.Reached s.actuals.length assignment)
    :
    indicesWhere Option.isNone (assignment.take s.leading) = s.openPlaces := by
  rw [indicesWhere_eq_filter, List.length_take, Nat.min_eq_left hreached.leading_le, openPlaces]
  refine List.filter_congr fun place hplace => ?_
  have hlt : place < s.leading := List.mem_range.mp hplace
  have hsome := List.getElem?_eq_getElem (Nat.lt_of_lt_of_le hlt hreached.leading_le)
  rw [List.getElem?_take_of_lt hlt, hsome, Option.any_some, Bool.eq_iff_iff, decide_eq_true_iff]
  simp only [Option.isNone_iff_eq_none, Option.eq_none_iff_forall_ne_some]
  constructor
  · intro hnone index _
    rw [← not_or, ← hreached.takes, hsome]
    exact fun heq => hnone index (Option.some.inj heq)
  · intro hopen index heq
    rcases hreached.takes.mp (hsome.trans (congrArg some heq)) with hexact | hsole
    · exact (hopen index hexact.lt_actuals).1 hexact
    · exact (hopen index hsole.1.lt_actuals).2 hsole

/-- **Third pass.**  The untagged arguments fill the open places before `...`. -/
theorem Reached.records_takes (hreached : s.Reached s.actuals.length assignment)
    :
    s.Records s.Takes (assignPositional s.leading s.actuals assignment) := by
  have hfill : (fill (assignment.take s.leading) s.untagged).length = s.leading := by
    rw [length_fill, List.length_take]
    exact Nat.min_eq_left hreached.leading_le
  rw [assignPositional, untagged_eq]
  refine ⟨?_, fun place index => ?_⟩
  · rw [List.length_append, hfill, List.length_drop, ← hreached.records.length]
    exact Nat.add_sub_of_le hreached.leading_le
  · by_cases hlt : place < s.leading
    · rw [List.getElem?_append_left (hfill.symm ▸ hlt), getElem?_fill, List.getElem?_take_of_lt hlt,
        hreached.takes, hreached.openPlaces_eq, ← sameNumber_iff, or_assoc, Takes]
    · rw [List.getElem?_append_right (hfill.symm ▸ Nat.le_of_not_lt hlt), hfill, List.getElem?_drop,
        Nat.add_sub_cancel' (Nat.le_of_not_lt hlt), hreached.takes, Takes]
      refine or_congr_right (or_iff_left_of_imp fun hsame => ?_).symm
      exact absurd (mem_openPlaces.mp hsame.mem.1).1 hlt

/-! ## What is left over and what is received -/

theorem leftover_eq (hrecords : s.Records s.Takes assignment) :
    leftover s.actuals assignment = s.untaken := by
  refine List.filter_congr fun index _ => ?_
  rw [Bool.eq_iff_iff, decide_eq_true_iff, Bool.not_eq_true', ← Bool.not_eq_true,
    List.contains_iff_mem, hrecords.mem_iff, not_exists]
  exact ⟨fun hnone place _ => hnone place, fun hnone place htakes =>
    hnone place htakes.lt_formals htakes⟩

theorem receives_received (hrecords : s.Records s.Takes assignment)
    {taken : Option Nat} (htaken : assignment[place]? = some taken)
    (hname : s.nameAt place ≠ some s.dots) :
    s.Receives place (received s.actuals taken) := by
  unfold received
  split
  · next tag value hvalue =>
      obtain ⟨index, hindex, hactual⟩ := Option.bind_eq_some_iff.mp hvalue
      subst hindex
      exact ⟨hname, index, tag, (hrecords.takes place index).mp htaken, hactual⟩
  · next hnone =>
      refine ⟨hname, fun index htakes => ?_⟩
      cases ((hrecords.takes place index).mpr htakes).symm.trans htaken
      obtain ⟨⟨tag, value⟩, hactual⟩ : ∃ actual, s.actuals[index]? = some actual :=
        ⟨_, List.getElem?_eq_getElem htakes.lt_actuals⟩
      cases value with
      | none => exact ⟨tag, hactual⟩
      | some value => exact absurd hactual (hnone tag value)

/-- Matching goes through its passes and gives each formal what it receives. -/
theorem explained_outcome (hdistinct : (s.formals.map (·.name)).Nodup) :
    s.Explained (fun matched => s.Matchable ∧ matched.length = s.formals.length ∧
      ∀ place received, matched[place]? = some received → s.Receives place received) s.outcome := by
  unfold outcome matchArgs
  dsimp only
  rw [getD_dotsPlace?]
  refine (explained_assignExact hdistinct).bind fun exact hexact => ?_
  refine (explained_assignPartial hexact.2).bind fun partly hreached => ?_
  have hright := hreached.unmistaken hexact.1
  have hrecords := hreached.records_takes
  rw [leftover_eq hrecords]
  split
  · next hunused =>
      rw [Bool.and_eq_true, Option.isNone_iff_eq_none, dotsPlace?_eq_none_iff] at hunused
      exact ⟨hright, hunused.1, by simpa using hunused.2, rfl⟩
  · next hused =>
      rw [Bool.and_eq_true, Option.isNone_iff_eq_none, dotsPlace?_eq_none_iff] at hused
      refine ⟨⟨hright, ?_⟩, by simp [hrecords.length], fun place received hreceived => ?_⟩
      · by_contra hneither
        rw [not_or] at hneither
        exact hused ⟨hneither.1, by simpa using hneither.2⟩
      · rw [List.getElem?_map, List.getElem?_zipIdx] at hreceived
        obtain ⟨_, hentry, rfl⟩ := Option.map_eq_some_iff.mp hreceived
        obtain ⟨taken, htaken, rfl⟩ := Option.map_eq_some_iff.mp hentry
        dsimp only
        rw [Nat.zero_add]
        split
        · next hdots => exact ⟨(dotsPlace?_eq_some_iff hdistinct).mp hdots, rfl⟩
        · next hdots =>
            exact receives_received hrecords htaken
              (mt (dotsPlace?_eq_some_iff hdistinct).mpr hdots)

/-- If the tags are right, then the error can only be about arguments that are
left over. -/
theorem Explains.eq_unused (hexplains : s.Explains error)
    (hright : s.Unmistaken) : error = .unused s.untaken := by
  cases error with
  | unused indices => rw [hexplains.2.2.2]
  | multipleMatch formal =>
      obtain ⟨place, i, j, -, hne, hnames | hsole⟩ := hexplains
      · exact absurd (hright.namedOnce place i j hnames.1 hnames.2) hne
      · exact absurd (hright.unshared place i j hsole.1 hsole.2) hne
  | ambiguous index =>
      obtain ⟨p, q, hne, hp, hq⟩ := hexplains
      exact absurd (hright.unambiguous index p q hp hq) hne

theorem Explains.not_matchable
    (hexplains : s.Explains error) :
    ¬ s.Matchable := by
  intro hmatchable
  obtain ⟨hright, hroom⟩ := hmatchable
  cases hexplains.eq_unused hright
  obtain ⟨-, hdots, hne, -⟩ := hexplains
  exact hroom.elim hdots hne

/-- The arguments match exactly if the call is matchable. -/
theorem outcome_ok_iff (hdistinct : (s.formals.map (·.name)).Nodup) :
    (∃ matched, s.outcome = .ok matched) ↔ s.Matchable := by
  have hexplained := explained_outcome hdistinct
  cases houtcome : s.outcome with
  | ok matched =>
      rw [houtcome] at hexplained
      exact ⟨fun _ => hexplained.1, fun _ => ⟨matched, rfl⟩⟩
  | error error =>
      rw [houtcome] at hexplained
      refine ⟨fun hok => ?_,
        fun hmatchable => absurd hmatchable (Explains.not_matchable hexplained)⟩
      obtain ⟨matched, hmatched⟩ := hok
      cases hmatched

theorem explains_of_outcome (hdistinct : (s.formals.map (·.name)).Nodup)
    (herror : s.outcome = .error error) :
    s.Explains error := by
  have hexplained := explained_outcome hdistinct
  rwa [herror] at hexplained

/-- Arguments are reported as left over exactly if nothing else is wrong. -/
theorem outcome_unused_iff (hdistinct : (s.formals.map (·.name)).Nodup)
    {indices : List Nat} :
    s.outcome = .error (.unused indices) ↔ s.Explains (.unused indices) := by
  refine ⟨explains_of_outcome hdistinct, fun hunused => ?_⟩
  cases houtcome : s.outcome with
  | ok matched =>
      exact absurd ((outcome_ok_iff hdistinct).mp ⟨matched, houtcome⟩) hunused.not_matchable
  | error error =>
      obtain ⟨hright, -, -, hindices⟩ := hunused
      rw [(explains_of_outcome hdistinct houtcome).eq_unused hright, hindices]

/-- An argument is either left over or taken by exactly one formal. -/
theorem untaken_or_existsUnique (hdistinct : (s.formals.map (·.name)).Nodup)
    (hindex : index < s.actuals.length) :
    index ∈ s.untaken ∧ (∀ place, ¬ s.Takes index place) ∨
      index ∉ s.untaken ∧ ∃! place, s.Takes index place := by
  by_cases htaken : ∃ place, s.Takes index place
  · obtain ⟨place, htakes⟩ := htaken
    refine .inr ⟨fun huntaken => (mem_untaken.mp huntaken).2 place htakes, place, htakes, ?_⟩
    exact fun other hother => hother.place_eq hdistinct htakes
  · have hnone := not_exists.mp htaken
    exact .inl ⟨mem_untaken.mpr ⟨hindex, hnone⟩, hnone⟩

end Setting

open Setting in
/-- **Matching follows the rule.**  Arguments match the formals exactly if their
tags are right and there is a place for each of them.  Then every formal
receives what the rule says, and every argument is used once: it is taken by one
formal, which takes no other, or it is left for `...`.  If the tags are right
but there is no `...` for the arguments that are left over, then the error lists
them in call order, and any other error names what is wrong with the tags. -/
theorem matching_follows_rule (s : Setting) (hdistinct : (s.formals.map (·.name)).Nodup) :
    ((∃ matched, matchArgs s.names s.dots s.formals s.actuals = .ok matched) ↔ s.Matchable) ∧
      (∀ matched, matchArgs s.names s.dots s.formals s.actuals = .ok matched →
        (matched.length = s.formals.length ∧
          ∀ place received, matched[place]? = some received → s.Receives place received) ∧
        (∀ index < s.actuals.length, index ∈ s.untaken ∧ (∀ place, ¬ s.Takes index place) ∨
          index ∉ s.untaken ∧ ∃! place, s.Takes index place) ∧
        ∀ place i j, s.Takes i place → s.Takes j place → i = j) ∧
      (∀ indices, matchArgs s.names s.dots s.formals s.actuals = .error (.unused indices) ↔
        s.Unmistaken ∧ s.dots ∉ s.formals.map (·.name) ∧ s.untaken ≠ [] ∧ indices = s.untaken) ∧
      ∀ error, matchArgs s.names s.dots s.formals s.actuals = .error error → s.Explains error := by
  refine ⟨outcome_ok_iff hdistinct, fun matched hok => ?_,
    fun indices => outcome_unused_iff hdistinct,
    fun error herror => explains_of_outcome hdistinct herror⟩
  have hexplained := explained_outcome hdistinct
  rw [outcome, hok] at hexplained
  obtain ⟨hmatchable, hreceives⟩ := hexplained
  exact ⟨hreceives, fun index hindex => untaken_or_existsUnique hdistinct hindex,
    fun place i j hi hj => hmatchable.1.index_eq hi hj⟩

/-- A call with arguments of every kind, of a function with the formals `x`,
`value`, `...`, `check`.  The last argument begins `check`, but that comes after
`...`. -/
def mixedCall : Setting where
  names := fun symbol => ["x", "value", "...", "check", "val", "ch"].getD symbol.index ""
  dots := ⟨2⟩
  formals := [⟨⟨0⟩, none⟩, ⟨⟨1⟩, none⟩, ⟨⟨2⟩, none⟩, ⟨⟨3⟩, none⟩]
  actuals := [⟨some ⟨3⟩, none⟩, ⟨none, some (.ofParts 0 0 0)⟩, ⟨some ⟨4⟩, some (.ofParts 0 1 0)⟩,
    ⟨none, some (.ofParts 0 2 0)⟩, ⟨some ⟨5⟩, some (.ofParts 0 3 0)⟩]

theorem matching_follows_rule_mixedCall :
    (mixedCall.formals.map (·.name)).Nodup ∧
      mixedCall.outcome = .ok [.supplied (.ofParts 0 0 0), .supplied (.ofParts 0 1 0),
        .dots [⟨none, some (.ofParts 0 2 0)⟩, ⟨some ⟨5⟩, some (.ofParts 0 3 0)⟩], .missing] ∧
      mixedCall.Matchable ∧ mixedCall.Receives 1 (.supplied (.ofParts 0 1 0)) ∧
      mixedCall.Receives 3 .missing ∧ ∃! place, mixedCall.Takes 2 place := by
  have hdistinct : (mixedCall.formals.map (·.name)).Nodup := by decide
  have hok : mixedCall.outcome = .ok [.supplied (.ofParts 0 0 0), .supplied (.ofParts 0 1 0),
      .dots [⟨none, some (.ofParts 0 2 0)⟩, ⟨some ⟨5⟩, some (.ofParts 0 3 0)⟩], .missing] := by
    decide +kernel
  have hrule := matching_follows_rule mixedCall hdistinct
  obtain ⟨⟨-, hreceives⟩, honce, -⟩ := hrule.2.1 _ hok
  have hsecond := (honce 2 (by decide)).resolve_left fun huntaken =>
    huntaken.2 1 (.inr (.inl (by decide +kernel)))
  exact ⟨hdistinct, hok, hrule.1.mp ⟨_, hok⟩, hreceives 1 _ rfl, hreceives 3 _ rfl, hsecond.2⟩

end LazyDispatch.Matching
