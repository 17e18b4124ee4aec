/-!
# Association lists

Frames, attributes and symbol tables are small maps, kept as lists of entries in
the order in which their keys came.  The first entry of a key counts; putting a
value keeps the entry in its place, so a list without repeated keys stays one.
-/

namespace LazyDispatch

/-- No key has two entries. -/
def DistinctKeys {κ υ : Type} (entries : List (κ × υ)) : Prop :=
  (entries.map (·.1)).Nodup

/-- There are no keys without entries. -/
theorem distinctKeys_nil {κ υ : Type} : DistinctKeys ([] : List (κ × υ)) :=
  List.nodup_nil

variable {κ υ : Type} [DecidableEq κ]

/-- Replaces the first entry of a key, or adds one at the end. -/
def putEntry (key : κ) (value : υ) : List (κ × υ) → List (κ × υ)
  | [] => [(key, value)]
  | (other, old) :: rest =>
    if key = other then (key, value) :: rest
    else (other, old) :: putEntry key value rest

/-- Looking up a key right after putting its value. -/
theorem lookup_putEntry_self (key : κ) (value : υ) (entries : List (κ × υ)) :
    (putEntry key value entries).lookup key = some value := by
  induction entries with
  | nil => simp [putEntry]
  | cons entry rest ih =>
    obtain ⟨other, old⟩ := entry
    by_cases h : key = other
    · simp [putEntry, h]
    · simp [putEntry, h, List.lookup_cons, beq_false_of_ne h, ih]

/-- Putting the value of a key does not touch the others. -/
theorem lookup_putEntry_of_ne {key other : κ} (value : υ)
    (entries : List (κ × υ)) (h : other ≠ key) :
    (putEntry key value entries).lookup other = entries.lookup other := by
  induction entries with
  | nil => simp [putEntry, List.lookup_cons, beq_false_of_ne h]
  | cons entry rest ih =>
    obtain ⟨first, old⟩ := entry
    by_cases hkey : key = first
    · subst hkey
      simp [putEntry, List.lookup_cons, beq_false_of_ne h]
    · simp [putEntry, hkey, List.lookup_cons, ih]

/-- An entry is the one that was put, or it was there before. -/
theorem mem_putEntry {key : κ} {value : υ} {entries : List (κ × υ)}
    {entry : κ × υ} (hentry : entry ∈ putEntry key value entries) :
    entry = (key, value) ∨ entry ∈ entries := by
  fun_induction putEntry key value entries with
  | case1 => exact Or.inl (List.mem_singleton.mp hentry)
  | case2 old rest =>
      rcases List.mem_cons.mp hentry with rfl | hrest
      · exact Or.inl rfl
      · exact Or.inr (List.mem_cons_of_mem _ hrest)
  | case3 other old rest hkey ih =>
      rcases List.mem_cons.mp hentry with rfl | hrest
      · exact Or.inr (List.mem_cons_self ..)
      · exact (ih hrest).imp_right (List.mem_cons_of_mem _)

/-- A key that has no entry gets one at the end. -/
theorem putEntry_of_not_mem {key : κ} (value : υ) {entries : List (κ × υ)}
    (hnew : key ∉ entries.map (·.1)) :
    putEntry key value entries = entries ++ [(key, value)] := by
  fun_induction putEntry key value entries with
  | case1 => rfl
  | case2 old rest => exact absurd (List.mem_cons_self ..) hnew
  | case3 other old rest hkey ih =>
      rw [ih fun hrest => hnew (List.mem_cons_of_mem _ hrest), List.cons_append]

/-- The keys stay distinct when a value is put. -/
theorem DistinctKeys.putEntry {entries : List (κ × υ)}
    (hkeys : DistinctKeys entries) (key : κ) (value : υ) :
    DistinctKeys (putEntry key value entries) := by
  unfold DistinctKeys at *
  fun_induction LazyDispatch.putEntry key value entries with
  | case1 => exact List.nodup_cons.mpr ⟨List.not_mem_nil, List.nodup_nil⟩
  | case2 old rest => exact hkeys
  | case3 other old rest hkey ih =>
      obtain ⟨hother, hrest⟩ := List.nodup_cons.mp hkeys
      refine List.nodup_cons.mpr ⟨fun hmem => ?_, ih hrest⟩
      obtain ⟨entry, hentry, hsame⟩ := List.mem_map.mp hmem
      rcases mem_putEntry hentry with rfl | hold
      · exact hkey hsame
      · exact hother (hsame ▸ List.mem_map_of_mem hold)

end LazyDispatch
