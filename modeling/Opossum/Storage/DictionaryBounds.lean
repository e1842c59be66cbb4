import Opossum.Storage.DictionaryEncoding

/-!
# Searching a dictionary

The ids that `lower_bound` and `upper_bound` return, against the dictionary and against the rows of the
column: comparing ids is comparing values.
-/

namespace Opossum
variable {α : Type}

/-- `id` belongs to the first dictionary value that satisfies `p`; without such a value it is
`INVALID_VALUE_ID`. -/
inductive FirstID (dictionary : List α) (p : α → Prop) : ValueID → Prop
  | found {id x} : dictionary[id.toNat]? = some x → p x →
      (∀ (j : Nat) y, j < id.toNat → dictionary[j]? = some y → ¬p y) → FirstID dictionary p id
  | none : (∀ x ∈ dictionary, ¬p x) → FirstID dictionary p invalidValueID

theorem invalidValueID_toNat : invalidValueID.toNat = 2 ^ 32 - 1 := by
  decide

namespace DictionaryColumn
variable {c : DictionaryColumn α} {pos : Nat}

theorem idOfPosition_toNat (few : c.dictionary.length < 2 ^ 32 - 1) (inside : pos ≤ c.dictionary.length) :
    (c.idOfPosition pos).toNat = if pos = c.dictionary.length then 2 ^ 32 - 1 else pos := by
  unfold idOfPosition
  split
  · exact invalidValueID_toNat
  · rw [UInt32.toNat_ofNat', Nat.mod_eq_of_lt (by omega)]

/-- The sentinel is above all ids, just as the end of the range is behind all positions. -/
theorem lt_idOfPosition_iff (few : c.dictionary.length < 2 ^ 32 - 1) (inside : pos ≤ c.dictionary.length)
    {id : ValueID} (real : id.toNat < c.dictionary.length) : id < c.idOfPosition pos ↔ id.toNat < pos := by
  rw [UInt32.lt_iff_toNat_lt, idOfPosition_toNat few inside]
  split <;> omega

theorem idOfPosition_eq_invalid_iff (few : c.dictionary.length < 2 ^ 32 - 1)
    (inside : pos ≤ c.dictionary.length) :
    c.idOfPosition pos = invalidValueID ↔ pos = c.dictionary.length := by
  rw [← UInt32.toNat_inj, idOfPosition_toNat few inside, invalidValueID_toNat]
  split <;> omega

/-- A position before which `p` fails everywhere, and behind which it holds, gives the first id. -/
theorem firstID_of_position (few : c.dictionary.length < 2 ^ 32 - 1) (inside : pos ≤ c.dictionary.length)
    {p : α → Prop} (place : ∀ (i : Nat) x, c.dictionary[i]? = some x → (i < pos ↔ ¬p x)) :
    FirstID c.dictionary p (c.idOfPosition pos) := by
  by_cases atEnd : pos = c.dictionary.length
  · rw [(idOfPosition_eq_invalid_iff few inside).mpr atEnd]
    refine .none fun x member => ?_
    obtain ⟨i, found⟩ := List.mem_iff_getElem?.mp member
    obtain ⟨before, _⟩ := List.getElem?_eq_some_iff.mp found
    exact (place i x found).mp (by omega)
  · have toNat := idOfPosition_toNat few inside
    rw [if_neg atEnd] at toNat
    have found := List.getElem?_eq_getElem (l := c.dictionary) (i := pos) (by omega)
    refine .found (by rwa [toNat]) ?_ fun j y before atY => (place j y atY).mp (by omega)
    by_contra fails
    exact Nat.lt_irrefl pos ((place pos _ found).mpr fails)

variable [LT α] [DecidableLT α] [BEq α] [TotallyOrdered α]

/-- What the constructor has made of these values: a strictly ascending dictionary of just them, and for
each row the id of its value. -/
structure Encodes [Build] (c : DictionaryColumn α) (values : List α) : Prop where
  ascending : c.dictionary.Pairwise (· < ·)
  mem_iff : ∀ x, x ∈ c.dictionary ↔ x ∈ values
  few : c.dictionary.length < 2 ^ 32 - 1
  size : c.size = values.length
  row : ∀ i (inside : i < values.length), c.get i = .ok values[i] ∧ ∃ id, c.attributeVector.get i = .ok id ∧
    c.dictionary[id.toNat]? = some values[i]

theorem encodes_new [Build] {column : ValueColumn α} (made : new (some column) = .ok c) :
    c.Encodes column.values := by
  obtain ⟨rfl, _, small⟩ := eq_encoded made
  have ascending := Ranges.unique_sort_ascending column.values
  refine ⟨ascending, fun x => Ranges.mem_unique_sort, ?_, size_encoded _, fun i inside => ?_⟩
  · exact (length_dictionary_le column.values).trans_lt small
  · obtain ⟨⟨id, stored, place, _⟩, read⟩ := get_encoded small inside
    refine ⟨read, id, stored, ?_⟩
    rw [place]
    exact Ranges.getElem?_lowerBound ascending (Ranges.mem_unique_sort.mpr (List.getElem_mem inside))

theorem exists_encodes [Build] {column : ValueColumn α} (nonempty : column.values ≠ [])
    (small : column.values.length < 2 ^ 32 - 1) : ∃ c, new (some column) = .ok c ∧
    c.Encodes column.values := by
  obtain ⟨c, made⟩ := new_isOk_iff.mpr ⟨column, rfl, List.length_pos_iff.mpr nonempty, small⟩
  exact ⟨c, made, encodes_new made⟩

variable [Build] {values : List α}

theorem Encodes.firstID_lowerBound (encodes : c.Encodes values) (value : α) :
    FirstID c.dictionary (fun x => ¬x < value) (c.lowerBound value) :=
  firstID_of_position encodes.few (Ranges.lowerBound_le_length ..) fun i x found => by
    rw [Ranges.lt_lowerBound_iff encodes.ascending found, not_not]

theorem Encodes.firstID_upperBound (encodes : c.Encodes values) (value : α) :
    FirstID c.dictionary (fun x => value < x) (c.upperBound value) :=
  firstID_of_position encodes.few (Ranges.upperBound_le_length ..) fun _ _ found =>
    Ranges.lt_upperBound_iff encodes.ascending found

omit [DecidableLT α] [BEq α] [TotallyOrdered α] in
/-- Only a search that nothing satisfies returns the sentinel. -/
theorem Encodes.invalid_iff (encodes : c.Encodes values) {p : α → Prop} {id : ValueID}
    (first : FirstID c.dictionary p id) : id = invalidValueID ↔ ∀ x ∈ values, ¬p x := by
  have all : (∀ x ∈ values, ¬p x) ↔ ∀ x ∈ c.dictionary, ¬p x :=
    forall_congr' fun x => by rw [encodes.mem_iff]
  rw [all]
  cases first with
  | none fails => exact iff_of_true rfl fails
  | found here holds _ =>
    obtain ⟨inside, _⟩ := List.getElem?_eq_some_iff.mp here
    refine iff_of_false (fun same => ?_) fun fails => fails _ (List.mem_of_getElem? here) holds
    have few := encodes.few
    rw [same, invalidValueID_toNat] at inside
    omega

/-- The two bounds of a value answer all comparisons with it on the stored ids: the bounds are the first
ids of the values that are not less, and of those that are greater, and the id of a row is below a bound
exactly when its value is on that side. -/
theorem bounds_answer_comparisons {column : ValueColumn α} (nonempty : column.values ≠ [])
    (small : column.values.length < 2 ^ 32 - 1) :
    ∃ c, new (some column) = .ok c ∧ ∀ value,
      (FirstID c.dictionary (fun x => ¬x < value) (c.lowerBound value) ∧
        (c.lowerBound value = invalidValueID ↔ ∀ x ∈ column.values, x < value)) ∧
      (FirstID c.dictionary (fun x => value < x) (c.upperBound value) ∧
        (c.upperBound value = invalidValueID ↔ ∀ x ∈ column.values, ¬value < x)) ∧
      ∀ i (inside : i < column.values.length), ∃ id, c.attributeVector.get i = .ok id ∧
        c.get i = .ok column.values[i] ∧
        (id < c.lowerBound value ↔ column.values[i] < value) ∧
        (id < c.upperBound value ↔ ¬value < column.values[i]) ∧
        (column.values[i] = value ↔ c.lowerBound value ≤ id ∧ id < c.upperBound value) := by
  obtain ⟨c, made, encodes⟩ := exists_encodes nonempty small
  refine ⟨c, made, fun value => ⟨⟨encodes.firstID_lowerBound value, ?_⟩,
    ⟨encodes.firstID_upperBound value, ?_⟩, fun i inside => ?_⟩⟩
  · rw [encodes.invalid_iff (encodes.firstID_lowerBound value)]
    simp only [not_not]
  · exact encodes.invalid_iff (encodes.firstID_upperBound value)
  · obtain ⟨read, id, stored, found⟩ := encodes.row i inside
    obtain ⟨real, _⟩ := List.getElem?_eq_some_iff.mp found
    have below : id < c.lowerBound value ↔ column.values[i] < value := by
      rw [lowerBound, lt_idOfPosition_iff encodes.few (Ranges.lowerBound_le_length ..) real,
        Ranges.lt_lowerBound_iff encodes.ascending found]
    have notAbove : id < c.upperBound value ↔ ¬value < column.values[i] := by
      rw [upperBound, lt_idOfPosition_iff encodes.few (Ranges.upperBound_le_length ..) real,
        Ranges.lt_upperBound_iff encodes.ascending found]
    refine ⟨id, stored, read, below, notAbove, ?_⟩
    rw [notAbove, ← UInt32.not_lt, below]
    constructor
    · rintro rfl
      exact ⟨TotallyOrdered.irrefl _, TotallyOrdered.irrefl _⟩
    · rintro ⟨notLess, notGreater⟩
      rcases TotallyOrdered.connected column.values[i] value with less | same | greater
      · exact absurd less notLess
      · exact same
      · exact absurd greater notGreater

omit [LT α] [DecidableLT α] [BEq α] [TotallyOrdered α] [Build] in
theorem bounds_answer_comparisons_three_rows :
    letI := strictBuild
    ∃ c, new (some (ValueColumn.mk [(3 : Int32), 1, 3])) = .ok c ∧ c.lowerBound 2 = c.upperBound 2 ∧
      c.upperBound 3 = invalidValueID := by
  let _ := strictBuild
  have nonempty : (ValueColumn.mk [(3 : Int32), 1, 3]).values ≠ [] := by simp
  obtain ⟨c, made, bounds⟩ := bounds_answer_comparisons nonempty (by simp)
  exact ⟨c, made, by cases made; decide, (bounds 3).2.1.2.mpr (by simp)⟩

end DictionaryColumn

end Opossum
