import LazyDispatch.Args
import Mathlib.Data.List.Induction
import Mathlib.Data.List.Nodup
import Mathlib.Data.List.ReduceOption

/-!
# Merged arguments

The arguments of a second list are merged into a first one, one after the other,
and each of them is looked for among all that was merged so far.  So a tag of
the second list can meet an argument of the first list as well as one that was
added before, and a tag that is there twice settles on its last value.

The rule says for each argument, from what stands before it, what merging makes
of it (`settle`).  The arguments of both lists follow it, except that a tag that
stands before is kept in the first list and dropped in the second.  The rule is
proved along the second list: one more argument changes one value, or adds one
argument (`mergeOne_settled`).

Merging is associative where the tags in the middle are distinct: setting a tag
that is there commutes with merging any other argument.
-/

namespace LazyDispatch.Args

/-- The tags of arguments, in order. -/
def tags (args : List Arg) : List Symbol :=
  args.filterMap (·.tag)

/-- An argument with the value of the last of `other` that has its tag. -/
def latest (other : List Arg) (arg : Arg) : Arg :=
  match (other.filter (·.tag = arg.tag)).getLast? with
  | some last => ⟨arg.tag, last.value⟩
  | none => arg

/-- What merging `other` makes of an argument that stands after `earlier`.  An
argument without a tag stays as it is, the first one with its tag takes the last
value for the tag, and a further one is kept or dropped. -/
def settle (repeats : Bool) (other earlier : List Arg) (arg : Arg) :
    Option Arg :=
  match arg.tag with
  | none => some arg
  | some tag =>
    if tag ∉ tags earlier then some (latest other arg)
    else if repeats then some arg else none

/-- What merging `other` makes of arguments that stand after `earlier`. -/
def settleAll (repeats : Bool) (other earlier args : List Arg) : List Arg :=
  (args.mapIdx fun index arg => settle repeats other (earlier ++ args.take index) arg).reduceOption

variable {tag : Symbol} {value : Option Ref} {arg item : Arg} {args other earlier : List Arg}
  {repeats : Bool}

/-! ## Tags -/

theorem mem_tags : tag ∈ tags args ↔ ∃ arg ∈ args, arg.tag = some tag :=
  List.mem_filterMap

theorem mem_tags_cons :
    tag ∈ tags (arg :: args) ↔ arg.tag = some tag ∨ tag ∈ tags args := by
  simp [mem_tags]

theorem tags_append (args other : List Arg) :
    tags (args ++ other) = tags args ++ tags other :=
  List.filterMap_append

theorem mem_tags_concat :
    tag ∈ tags (args ++ [arg]) ↔ tag ∈ tags args ∨ arg.tag = some tag := by
  simp [tags_append, mem_tags]

theorem latest_tag (other : List Arg) (arg : Arg) :
    (latest other arg).tag = arg.tag := by
  unfold latest
  split <;> rfl

theorem latest_concat_of_eq (htag : item.tag = arg.tag) :
    latest (other ++ [item]) arg = ⟨arg.tag, item.value⟩ := by
  simp [latest, List.filter_append, htag]

theorem latest_concat_of_ne (htag : item.tag ≠ arg.tag) :
    latest (other ++ [item]) arg = latest other arg := by
  simp [latest, List.filter_append, htag]

/-- What becomes of an argument keeps its tag. -/
theorem tag_of_settle (hsettle : settle repeats other earlier arg = some item) :
    item.tag = arg.tag := by
  unfold settle at hsettle
  split at hsettle
  · cases hsettle
    rfl
  · split at hsettle
    · cases hsettle
      exact latest_tag other arg
    · split at hsettle
      · cases hsettle
        rfl
      · cases hsettle

theorem not_mem_tags_settle (htag : arg.tag ≠ some tag) :
    tag ∉ tags (settle repeats other earlier arg).toList := by
  intro hmem
  obtain ⟨item, hitem, hitemTag⟩ := mem_tags.mp hmem
  have hsame := tag_of_settle (Option.mem_toList.mp hitem)
  exact htag (hsame.symm.trans hitemTag)

theorem settle_of_first (htag : arg.tag = some tag)
    (hfirst : tag ∉ tags earlier) :
    settle repeats other earlier arg = some (latest other arg) := by
  simp [settle, htag, hfirst]

theorem settle_of_repeated (hseen : tag ∈ tags earlier) :
    settle false other earlier ⟨some tag, value⟩ = none := by
  simp [settle, hseen]

/-- An argument is not concerned by one more that has another tag, or if its tag
stands before it. -/
theorem settle_concat (hother : arg.tag = item.tag →
    ∀ tag, item.tag = some tag → tag ∈ tags earlier) :
    settle repeats (other ++ [item]) earlier arg = settle repeats other earlier arg := by
  unfold settle
  split
  · rfl
  · next tag htag =>
      by_cases hseen : tag ∈ tags earlier
      · simp [hseen]
      · have hne : item.tag ≠ arg.tag := by
          intro heq
          exact hseen (hother heq.symm tag (heq.trans htag))
        rw [latest_concat_of_ne hne]

/-! ## Arguments one after the other -/

@[simp] theorem settleAll_nil (repeats : Bool) (other earlier : List Arg) :
    settleAll repeats other earlier [] = [] :=
  rfl

theorem settleAll_cons (repeats : Bool) (other earlier args : List Arg)
    (arg : Arg) :
    settleAll repeats other earlier (arg :: args) =
      (settle repeats other earlier arg).toList ++
        settleAll repeats other (earlier ++ [arg]) args := by
  cases hsettle : settle repeats other earlier arg <;>
    simp [settleAll, List.mapIdx_cons, List.reduceOption_cons_of_none,
      List.reduceOption_cons_of_some, hsettle]

theorem settleAll_append (repeats : Bool) (other earlier args more : List Arg) :
    settleAll repeats other earlier (args ++ more) =
      settleAll repeats other earlier args ++ settleAll repeats other (earlier ++ args) more := by
  induction args generalizing earlier with
  | nil => simp
  | cons arg args ih => simp [settleAll_cons, ih]

/-- Arguments whose repeated tags are kept stay as many, with their tags. -/
theorem map_tag_settleAll (other earlier args : List Arg) :
    (settleAll true other earlier args).map (·.tag) = args.map (·.tag) := by
  induction args generalizing earlier with
  | nil => rfl
  | cons arg args ih =>
      obtain ⟨item, hsettle⟩ : ∃ item, settle true other earlier arg = some item := by
        unfold settle
        split
        · exact ⟨_, rfl⟩
        · split
          · exact ⟨_, rfl⟩
          · exact ⟨_, rfl⟩
      rw [settleAll_cons, hsettle, Option.toList_some, List.singleton_append, List.map_cons,
        List.map_cons, ih, tag_of_settle hsettle]

theorem mem_tags_settleAll (hnew : tag ∉ tags earlier) :
    tag ∈ tags (settleAll repeats other earlier args) ↔ tag ∈ tags args := by
  induction args generalizing earlier with
  | nil => rfl
  | cons arg args ih =>
      rw [settleAll_cons, tags_append, List.mem_append, mem_tags_cons]
      by_cases htag : arg.tag = some tag
      · rw [settle_of_first htag hnew]
        simp [mem_tags, latest_tag, htag]
      · have hnext : tag ∉ tags (earlier ++ [arg]) := by simp [mem_tags_concat, hnew, htag]
        rw [ih hnext]
        simp [not_mem_tags_settle htag, htag]

/-- Arguments are not concerned by one more whose tag stands before them or not
among them. -/
theorem settleAll_concat
    (hother : ∀ tag, item.tag = some tag → tag ∈ tags earlier ∨ tag ∉ tags args) :
    settleAll repeats (other ++ [item]) earlier args = settleAll repeats other earlier args := by
  induction args generalizing earlier with
  | nil => rfl
  | cons arg args ih =>
      rw [settleAll_cons, settleAll_cons, settle_concat, ih]
      · intro tag htag
        rcases hother tag htag with hseen | hnot
        · exact Or.inl (mem_tags_concat.mpr (Or.inl hseen))
        · exact Or.inr fun hmem => hnot (mem_tags_cons.mpr (Or.inr hmem))
      · intro hsame tag htag
        rcases hother tag htag with hseen | hnot
        · exact hseen
        · exact absurd (mem_tags_cons.mpr (Or.inl (hsame.trans htag))) hnot

theorem settleAll_concat_tagged (hother : tag ∈ tags earlier ∨ tag ∉ tags args)
    :
    settleAll repeats (other ++ [⟨some tag, value⟩]) earlier args =
      settleAll repeats other earlier args := by
  apply settleAll_concat
  intro _ heq
  cases heq
  exact hother

/-! ## Setting a tag -/

theorem setTagged_of_not_mem (hnot : tag ∉ tags args) :
    setTagged tag value args = args ++ [⟨some tag, value⟩] := by
  induction args with
  | nil => rfl
  | cons arg args ih =>
      rw [mem_tags_cons, not_or] at hnot
      rw [setTagged, if_neg hnot.1, ih hnot.2, List.cons_append]

theorem setTagged_append_of_not_mem (hnot : tag ∉ tags args) :
    setTagged tag value (args ++ other) = args ++ setTagged tag value other := by
  induction args with
  | nil => rfl
  | cons arg args ih =>
      rw [mem_tags_cons, not_or] at hnot
      rw [List.cons_append, setTagged, if_neg hnot.1, ih hnot.2, List.cons_append]

theorem setTagged_append_of_mem (hmem : tag ∈ tags args) :
    setTagged tag value (args ++ other) = setTagged tag value args ++ other := by
  induction args with
  | nil => cases hmem
  | cons arg args ih =>
      rw [List.cons_append, setTagged, setTagged]
      by_cases htag : arg.tag = some tag
      · rw [if_pos htag, if_pos htag, List.cons_append]
      · rw [if_neg htag, if_neg htag, ih ((mem_tags_cons.mp hmem).resolve_left htag),
          List.cons_append]

/-- One more argument with a tag that is there for the first time after
`earlier`. -/
theorem setTagged_settleAll (hmem : tag ∈ tags args) (hnew : tag ∉ tags earlier)
    :
    setTagged tag value (settleAll repeats other earlier args) =
      settleAll repeats (other ++ [⟨some tag, value⟩]) earlier args := by
  induction args generalizing earlier with
  | nil => cases hmem
  | cons arg args ih =>
      rw [settleAll_cons, settleAll_cons]
      by_cases htag : arg.tag = some tag
      · -- This is the argument that takes the value, and no later one does.
        have hseen : tag ∈ tags (earlier ++ [arg]) := mem_tags_concat.mpr (Or.inr htag)
        rw [settle_of_first htag hnew, settle_of_first htag hnew,
          settleAll_concat_tagged (Or.inl hseen), latest_concat_of_eq htag.symm]
        simp [setTagged, latest_tag, htag]
      · have hnext : tag ∉ tags (earlier ++ [arg]) := by simp [mem_tags_concat, hnew, htag]
        have hrest := (mem_tags_cons.mp hmem).resolve_left htag
        rw [setTagged_append_of_not_mem (not_mem_tags_settle htag), ih hrest hnext,
          settle_concat fun heq => absurd heq htag]

/-! ## The rule -/

/-- One more argument is merged. -/
theorem mergeOne_settled (args other : List Arg) (item : Arg) :
    mergeOne (settleAll true other [] args ++ settleAll false other args other) item =
      settleAll true (other ++ [item]) [] args ++
        settleAll false (other ++ [item]) args (other ++ [item]) := by
  have hempty : ∀ tag, tag ∉ tags [] := fun _ => List.not_mem_nil
  obtain ⟨none | tag, value⟩ := item
  · -- Without a tag it comes last, as it is.
    have hlast : settleAll false (other ++ [⟨none, value⟩]) (args ++ other) [⟨none, value⟩] =
        [⟨none, value⟩] := rfl
    have huntagged : ∀ tag, (⟨none, value⟩ : Arg).tag ≠ some tag := fun _ htag => by cases htag
    rw [settleAll_append, hlast, settleAll_concat fun tag htag => absurd htag (huntagged tag),
      settleAll_concat fun tag htag => absurd htag (huntagged tag), mergeOne, List.append_assoc]
  · show setTagged tag value _ = _
    rw [settleAll_append, settleAll_cons, settleAll_nil, List.append_nil]
    by_cases hargs : tag ∈ tags args
    · -- It takes its place in the first list.
      have hseen : tag ∈ tags (args ++ other) := by simp [tags_append, hargs]
      rw [setTagged_append_of_mem ((mem_tags_settleAll (hempty tag)).mpr hargs),
        setTagged_settleAll hargs (hempty tag), settle_of_repeated hseen,
        settleAll_concat_tagged (Or.inl hargs), Option.toList_none, List.append_nil]
    · rw [setTagged_append_of_not_mem (mt (mem_tags_settleAll (hempty tag)).mp hargs),
        settleAll_concat_tagged (Or.inr hargs)]
      congr 1
      by_cases hother : tag ∈ tags other
      · -- It takes the place of the argument that was added for its tag.
        have hseen : tag ∈ tags (args ++ other) := by simp [tags_append, hother]
        rw [setTagged_settleAll hother hargs, settle_of_repeated hseen, Option.toList_none,
          List.append_nil]
      · -- Its tag is new.
        have hnew : tag ∉ tags (args ++ other) := by simp [tags_append, hargs, hother]
        rw [setTagged_of_not_mem (mt (mem_tags_settleAll hargs).mp hother),
          settleAll_concat_tagged (Or.inr hother), settle_of_first rfl hnew,
          latest_concat_of_eq rfl, Option.toList_some]

/-- Without further arguments nothing changes. -/
theorem settleAll_nothing (earlier args : List Arg) :
    settleAll true [] earlier args = args := by
  induction args generalizing earlier with
  | nil => rfl
  | cons arg args ih =>
      have hsettle : settle true [] earlier arg = some arg := by
        unfold settle
        split
        · rfl
        · split <;> rfl
      rw [settleAll_cons, hsettle, ih, Option.toList_some, List.singleton_append]

theorem merge_eq_settleAll (args other : List Arg) :
    merge args other = settleAll true other [] args ++ settleAll false other args other := by
  induction other using List.reverseRecOn with
  | nil => rw [settleAll_nothing, settleAll_nil, List.append_nil, merge, List.foldl_nil]
  | append_singleton other item ih =>
      rw [← mergeOne_settled, ← ih, merge, merge, List.foldl_append,
        List.foldl_cons, List.foldl_nil]

/-! ## Associativity -/

theorem mem_tags_setTagged_self (tag : Symbol) (value : Option Ref)
    (args : List Arg) :
    tag ∈ tags (setTagged tag value args) := by
  induction args with
  | nil => exact List.mem_singleton_self tag
  | cons arg args ih =>
      rw [setTagged]
      split
      · next htag => exact mem_tags_cons.mpr (Or.inl htag)
      · exact mem_tags_cons.mpr (Or.inr ih)

/-- Setting a tag that is there changes no tag. -/
theorem tags_setTagged_of_mem (hmem : tag ∈ tags args) :
    tags (setTagged tag value args) = tags args := by
  induction args with
  | nil => cases hmem
  | cons arg args ih =>
      rw [setTagged]
      split
      · rfl
      · next htag =>
          unfold tags at ih ⊢
          rw [List.filterMap_cons, List.filterMap_cons,
            ih ((mem_tags_cons.mp hmem).resolve_left htag)]

theorem setTagged_setTagged (tag : Symbol) (old value : Option Ref) (args : List Arg) :
    setTagged tag value (setTagged tag old args) = setTagged tag value args := by
  induction args with
  | nil => simp [setTagged]
  | cons arg args ih =>
      by_cases htag : arg.tag = some tag
      · simp [setTagged, htag]
      · simp [setTagged, htag, ih]

/-- Two tags are set in either order if one of them is there: then it does not
matter where the other one is added. -/
theorem setTagged_comm {second : Symbol} {content : Option Ref}
    (hmem : tag ∈ tags args) (hne : second ≠ tag) :
    setTagged tag value (setTagged second content args) =
      setTagged second content (setTagged tag value args) := by
  induction args with
  | nil => cases hmem
  | cons arg args ih =>
      by_cases htag : arg.tag = some tag
      · simp [setTagged, htag, hne.symm]
      · have hrest := ih ((mem_tags_cons.mp hmem).resolve_left htag)
        by_cases hsecond : arg.tag = some second
        · simp [setTagged, hsecond, hne]
        · simp [setTagged, htag, hsecond, hrest]

theorem setTagged_mergeOne (hmem : tag ∈ tags args) (hne : item.tag ≠ some tag) :
    setTagged tag value (mergeOne args item) = mergeOne (setTagged tag value args) item := by
  obtain ⟨none | second, content⟩ := item
  · exact setTagged_append_of_mem hmem
  · exact setTagged_comm hmem fun heq => hne (congrArg some heq)

theorem mem_tags_mergeOne (hmem : tag ∈ tags args) (item : Arg) :
    tag ∈ tags (mergeOne args item) := by
  obtain ⟨none | second, content⟩ := item
  · exact mem_tags_concat.mpr (Or.inl hmem)
  · show tag ∈ tags (setTagged second content args)
    by_cases hsecond : second ∈ tags args
    · rwa [tags_setTagged_of_mem hsecond]
    · rw [setTagged_of_not_mem hsecond]
      exact mem_tags_concat.mpr (Or.inl hmem)

theorem nodup_tags_mergeOne (hdistinct : (tags args).Nodup) (item : Arg) :
    (tags (mergeOne args item)).Nodup := by
  obtain ⟨none | tag, value⟩ := item
  · rw [mergeOne, tags_append]
    simpa [tags] using hdistinct
  · show (tags (setTagged tag value args)).Nodup
    by_cases hmem : tag ∈ tags args
    · rwa [tags_setTagged_of_mem hmem]
    · rw [setTagged_of_not_mem hmem, tags_append]
      exact List.Nodup.append hdistinct (List.nodup_singleton tag)
        (List.disjoint_singleton.mpr hmem)

/-- A tag that is there is set before arguments with other tags are merged, or
after. -/
theorem setTagged_merge (hmem : tag ∈ tags args) (hnot : tag ∉ tags other) :
    setTagged tag value (merge args other) = merge (setTagged tag value args) other := by
  induction other generalizing args with
  | nil => rfl
  | cons item other ih =>
      rw [mem_tags_cons, not_or] at hnot
      rw [merge, List.foldl_cons, ← merge, ih (mem_tags_mergeOne hmem item) hnot.2,
        setTagged_mergeOne hmem hnot.1]
      rfl

/-- A tag is set in the merged arguments, or in those that are merged in. -/
theorem merge_setTagged (hdistinct : (tags other).Nodup) (args : List Arg) :
    merge args (setTagged tag value other) = setTagged tag value (merge args other) := by
  induction other generalizing args with
  | nil => rfl
  | cons item other ih =>
      obtain ⟨itemTag, old⟩ := item
      by_cases htag : itemTag = some tag
      · subst htag
        obtain ⟨hnot, -⟩ := List.nodup_cons.mp hdistinct
        calc merge args (setTagged tag value (⟨some tag, old⟩ :: other))
            = merge (setTagged tag value args) other := by rw [setTagged, if_pos rfl]; rfl
          _ = merge (setTagged tag value (setTagged tag old args)) other := by
              rw [setTagged_setTagged]
          _ = setTagged tag value (merge (setTagged tag old args) other) :=
              (setTagged_merge (mem_tags_setTagged_self tag old args) hnot).symm
      · have hrest : (tags other).Nodup := by
          have hsublist : (tags other).Sublist (tags (⟨itemTag, old⟩ :: other)) :=
            (List.sublist_cons_self _ other).filterMap _
          exact hdistinct.sublist hsublist
        rw [setTagged, if_neg htag]
        exact ih hrest (mergeOne args ⟨itemTag, old⟩)

theorem merge_mergeOne (hdistinct : (tags other).Nodup) (args : List Arg)
    (item : Arg) :
    merge args (mergeOne other item) = mergeOne (merge args other) item := by
  obtain ⟨none | tag, value⟩ := item
  · rw [mergeOne, merge, List.foldl_append]
    rfl
  · exact merge_setTagged hdistinct args

/-- Merging is associative where the tags in the middle are distinct. -/
theorem merge_merge (hdistinct : (tags other).Nodup) (args third : List Arg) :
    merge (merge args other) third = merge args (merge other third) := by
  induction third generalizing other with
  | nil => rfl
  | cons item third ih =>
      calc merge (merge args other) (item :: third)
          = merge (mergeOne (merge args other) item) third := rfl
        _ = merge (merge args (mergeOne other item)) third := by rw [merge_mergeOne hdistinct]
        _ = merge args (merge (mergeOne other item) third) :=
            ih (nodup_tags_mergeOne hdistinct item)

/-! ## The whole rule -/

/-- **Merging follows its rule.**  The arguments of the first list keep their
places and tags, and the first one with a tag takes the last value that the
second list has for it; any other keeps its value.  After them come, in the
order of the second list, its arguments without a tag and, for each of its tags
that the first list does not have, one argument where the tag stands first, with
the last value.  Merging is associative if the tags in the middle are distinct. -/
theorem merge_rule (args other : List Arg) :
    (merge args other).take args.length = settleAll true other [] args ∧
    ((merge args other).take args.length).map (·.tag) = args.map (·.tag) ∧
    (merge args other).drop args.length = settleAll false other args other ∧
    ∀ third, (tags other).Nodup →
      merge (merge args other) third = merge args (merge other third) := by
  have hlength : (settleAll true other [] args).length = args.length := by
    rw [← List.length_map (·.tag), map_tag_settleAll, List.length_map]
  have htake : (merge args other).take args.length = settleAll true other [] args := by
    rw [merge_eq_settleAll, ← hlength, List.take_left']
    rfl
  refine ⟨htake, ?_, ?_, fun third hdistinct => merge_merge hdistinct args third⟩
  · rw [htake, map_tag_settleAll]
  · rw [merge_eq_settleAll, ← hlength, List.drop_left']
    rfl

/-- Arguments with repeated tags, an empty value and none of some tags. -/
def repeatedTags : List Arg :=
  [⟨some ⟨1⟩, some (.ofParts 0 0 0)⟩, ⟨none, some (.ofParts 0 1 0)⟩, ⟨some ⟨1⟩, none⟩]

/-- A call with distinct tags. -/
def distinctTags : List Arg :=
  [⟨some ⟨1⟩, some (.ofParts 0 2 0)⟩, ⟨none, none⟩, ⟨some ⟨2⟩, some (.ofParts 0 3 0)⟩]

theorem merge_rule_repeatedTags :
    (tags distinctTags).Nodup ∧
      merge repeatedTags distinctTags =
        [⟨some ⟨1⟩, some (.ofParts 0 2 0)⟩, ⟨none, some (.ofParts 0 1 0)⟩, ⟨some ⟨1⟩, none⟩,
          ⟨none, none⟩, ⟨some ⟨2⟩, some (.ofParts 0 3 0)⟩] ∧
      merge (merge repeatedTags distinctTags) repeatedTags =
        merge repeatedTags (merge distinctTags repeatedTags) := by
  have hdistinct : (tags distinctTags).Nodup := by decide
  exact ⟨hdistinct, by decide, (merge_rule repeatedTags distinctTags).2.2.2 repeatedTags hdistinct⟩

end LazyDispatch.Args
