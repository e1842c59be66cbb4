import Opossum.Storage.DictionaryColumn

namespace Opossum
variable {α : Type}

namespace DictionaryColumn
variable [LT α] [DecidableLT α]

/-- What the attribute vector stores for a value: its place in the dictionary, cast twice. -/
def encode (dictionary : List α) (w : Nat) (value : α) : BitVec w :=
  (UInt32.ofNat (Ranges.lowerBound dictionary value)).toBitVec.setWidth w

/-- Neither cast changes a place that fits the width. -/
theorem toNat_encode {dictionary : List α} {w : Nat} {value : α} (narrow : w ≤ 32)
    (fits : Ranges.lowerBound dictionary value < 2 ^ w) :
    (encode dictionary w value).toNat = Ranges.lowerBound dictionary value := by
  have wide : Ranges.lowerBound dictionary value < 2 ^ 32 :=
    fits.trans_le (Nat.pow_le_pow_right (by omega) narrow)
  simp only [encode, BitVec.toNat_setWidth, UInt32.toNat_toBitVec, UInt32.toNat_ofNat']
  rw [Nat.mod_eq_of_lt wide, Nat.mod_eq_of_lt fits]

/-- The constructor's loop, from the row with offset `done` on. -/
theorem loop_set {w : Nat} (dictionary values : List α) (data : List (BitVec w)) (done : Nat)
    (length : data.length = done + values.length) :
    Outcome.loop (storeValueID dictionary) (values.zipIdx done) ⟨⟨data⟩⟩ =
      .returned ⟨⟨data.take done ++ values.map (encode dictionary w)⟩⟩ := by
  induction values generalizing data done with
  | nil =>
    rw [List.length_nil, Nat.add_zero] at length
    simp [List.take_of_length_le length.le]
  | cons x values ih =>
    have inside : done < (FittedAttributeVector.mk data).size := by
      simp only [FittedAttributeVector.size, length, List.length_cons]
      omega
    have written : storeValueID dictionary (x, done) ⟨⟨data⟩⟩ =
        .returned ⟨⟨data.set done (encode dictionary w x)⟩⟩ := by
      rw [storeValueID, BaseAttributeVector.set, FittedAttributeVector.set_eq_returned inside]
      rfl
    rw [List.zipIdx_cons, Outcome.loop_cons, written, Outcome.returned_andThen,
      ih _ _ (by simp only [List.length_set, length, List.length_cons]; omega)]
    have front : (data.set done (encode dictionary w x)).take (done + 1) =
        data.take done ++ [encode dictionary w x] := by
      rw [List.take_add_one, List.take_set_of_le le_rfl, List.getElem?_set_self inside]
      rfl
    simp [front]

/-- The number of bits of a stored id follows the number of rows. -/
def fittedBits (attrSize : Nat) : Nat :=
  if attrSize < 2 ^ 8 - 1 then 8 else if attrSize < 2 ^ 16 - 1 then 16 else 32

theorem fittedBits_le (attrSize : Nat) : fittedBits attrSize ≤ 32 := by
  unfold fittedBits
  split
  · omega
  · split <;> omega

/-- The chosen width holds the number of rows, and a larger value still. -/
theorem lt_of_fittedBits {attrSize : Nat} (small : attrSize < 2 ^ 32 - 1) :
    attrSize < 2 ^ fittedBits attrSize - 1 := by
  unfold fittedBits
  split
  · assumption
  · split <;> assumption

theorem fittedVector_eq {attrSize : Nat} (small : attrSize < 2 ^ 32 - 1) :
    fittedVector attrSize =
      .ok ⟨⟨List.replicate attrSize (0 : BitVec (fittedBits attrSize))⟩⟩ := by
  have chosen : fittedVector attrSize = (FittedAttributeVector.new (fittedBits attrSize) attrSize).map
      .mk := by
    unfold fittedVector fittedBits
    by_cases one : attrSize < 2 ^ 8 - 1
    · rw [if_pos one, if_pos one]
    · by_cases two : attrSize < 2 ^ 16 - 1
      · rw [if_neg one, if_neg one, if_pos two, if_pos two]
      · rw [if_neg one, if_neg one, if_neg two, if_neg two]
  rw [chosen, FittedAttributeVector.new, if_pos (lt_of_fittedBits small).le]
  rfl

variable [BEq α]

/-- The column that the constructor makes of these values. -/
def encoded (values : List α) : DictionaryColumn α where
  dictionary := Ranges.unique (Ranges.sort values)
  attributeVector :=
    ⟨⟨values.map (encode (Ranges.unique (Ranges.sort values)) (fittedBits values.length))⟩⟩

theorem size_encoded (values : List α) : (encoded values).size = values.length := by
  simp [encoded, size, BaseAttributeVector.size, FittedAttributeVector.size]

theorem new_eq_encoded {column : ValueColumn α} (nonempty : column.values ≠ [])
    (small : column.values.length < 2 ^ 32 - 1) : new (some column) = .ok (encoded column.values) := by
  have vector := fittedVector_eq small
  have filled := loop_set (Ranges.unique (Ranges.sort column.values)) column.values
    (List.replicate column.values.length (0 : BitVec (fittedBits column.values.length))) 0 (by simp)
  have notEmpty : (!column.values.isEmpty) = true := by simpa using nonempty
  simp only [new, notEmpty, small, decide_true, assert, if_true, vector, filled, bind, Except.bind,
    Outcome.toExcept_returned, pure, Except.pure, List.take_zero, List.nil_append, encoded]

/-- The two assertions are all that can fail. -/
theorem new_isOk_iff {valColumn : Option (ValueColumn α)} :
    (∃ c, new valColumn = .ok c) ↔
      ∃ column, valColumn = some column ∧ 0 < column.size ∧ column.size < 2 ^ 32 - 1 := by
  constructor
  · rintro ⟨c, made⟩
    obtain _ | column := valColumn
    · cases made
    obtain ⟨_, nonempty, made⟩ := Except.bind_eq_ok.mp made
    obtain ⟨_, small, _⟩ := Except.bind_eq_ok.mp made
    refine ⟨column, rfl, ?_, of_decide_eq_true (assert_eq_ok.mp small)⟩
    have notEmpty := assert_eq_ok.mp nonempty
    exact List.length_pos_iff.mpr (by simpa using notEmpty)
  · rintro ⟨column, rfl, positive, small⟩
    exact ⟨_, new_eq_encoded (List.length_pos_iff.mp positive) small⟩

theorem eq_encoded {column : ValueColumn α} {c : DictionaryColumn α} (made : new (some column) = .ok c) :
    c = encoded column.values ∧ column.values ≠ [] ∧ column.values.length < 2 ^ 32 - 1 := by
  obtain ⟨_, same, positive, small⟩ := new_isOk_iff.mp ⟨c, made⟩
  cases same
  have nonempty := List.length_pos_iff.mp positive
  exact ⟨Except.ok.inj (made.symm.trans (new_eq_encoded nonempty small)), nonempty, small⟩

theorem catchable_of_new {valColumn : Option (ValueColumn α)} {fault : Fault}
    (thrown : new valColumn = .error fault) : fault.Catchable := by
  obtain _ | column := valColumn
  · cases thrown
    simp [Fault.Catchable]
  rcases Except.bind_eq_error.mp thrown with empty | ⟨_, nonempty, rest⟩
  · exact catchable_of_assert empty
  rcases Except.bind_eq_error.mp rest with large | ⟨_, small, _⟩
  · exact catchable_of_assert large
  · have positive : column.values ≠ [] := by simpa using assert_eq_ok.mp nonempty
    rw [new_eq_encoded positive (of_decide_eq_true (assert_eq_ok.mp small))] at thrown
    cases thrown

theorem length_dictionary_le (values : List α) :
    (Ranges.unique (Ranges.sort values)).length ≤ values.length :=
  (Ranges.length_unique_le _).trans (Ranges.length_sort values).le

variable [TotallyOrdered α]

theorem lowerBound_lt {values : List α} {x : α} (member : x ∈ values) :
    Ranges.lowerBound (Ranges.unique (Ranges.sort values)) x <
      (Ranges.unique (Ranges.sort values)).length :=
  (List.getElem?_eq_some_iff.mp (Ranges.getElem?_lowerBound (Ranges.unique_sort_ascending values)
    (Ranges.mem_unique_sort.mpr member))).1

/-- Reading one row of the column that the constructor makes. -/
theorem get_encoded [Build] {values : List α} (small : values.length < 2 ^ 32 - 1) {i : Nat}
    (inside : i < values.length) :
    (∃ id, (encoded values).attributeVector.get i = .ok id ∧
      id.toNat = Ranges.lowerBound (encoded values).dictionary values[i] ∧
      id.toNat < (encoded values).uniqueValuesCount) ∧ (encoded values).get i = .ok values[i] := by
  let w := fittedBits values.length
  let dictionary := Ranges.unique (Ranges.sort values)
  have member : values[i] ∈ values := List.getElem_mem inside
  have place : Ranges.lowerBound dictionary values[i] < dictionary.length := lowerBound_lt member
  have few : dictionary.length ≤ values.length := length_dictionary_le values
  have placeFits : Ranges.lowerBound dictionary values[i] < 2 ^ w := by
    have fits : values.length < 2 ^ w - 1 := lt_of_fittedBits small
    omega
  have narrow : w ≤ 32 := fittedBits_le values.length
  have wide : (2 : Nat) ^ w ≤ 2 ^ 32 := Nat.pow_le_pow_right (by omega) narrow
  have read : (encoded values).attributeVector.get i =
      .ok ⟨(encode dictionary w values[i]).setWidth 32⟩ := by
    have within : i < (FittedAttributeVector.mk (values.map (encode dictionary w))).size := by
      simpa [FittedAttributeVector.size] using inside
    rw [encoded, BaseAttributeVector.get, FittedAttributeVector.get_eq_ok within]
    simp [dictionary, w]
  have idEq : (UInt32.ofBitVec ((encode dictionary w values[i]).setWidth 32)).toNat =
      Ranges.lowerBound dictionary values[i] := by
    rw [UInt32.toNat_ofBitVec, BitVec.toNat_setWidth, toNat_encode narrow placeFits,
      Nat.mod_eq_of_lt (placeFits.trans_le wide)]
  refine ⟨⟨_, read, idEq, idEq ▸ place⟩, ?_⟩
  have found : (encoded values).dictionary[Ranges.lowerBound dictionary values[i]]? = some values[i] :=
    Ranges.getElem?_lowerBound (Ranges.unique_sort_ascending values)
      (Ranges.mem_unique_sort.mpr member)
  have placeInside : Ranges.lowerBound dictionary values[i] < (encoded values).dictionary.length := place
  simp only [get, read, bind, Except.bind, idEq, placeInside, decide_true, debugAssert_true, found]

/-- The column that the constructor makes has the rows of the one that it was given. -/
theorem reads_new [Build] {column : ValueColumn α} {c : DictionaryColumn α}
    (made : new (some column) = .ok c) :
    c.size = column.size ∧ ∀ i (inside : i < column.values.length), c.get i = .ok column.values[i] := by
  obtain ⟨rfl, _, small⟩ := eq_encoded made
  exact ⟨size_encoded column.values, fun i inside => (get_encoded small inside).2⟩

/-- Decoding undoes encoding: the constructor returns, no id is changed by the cast to the chosen
width, and every row reads back as the value it was made from. -/
theorem decode_encode [Build] {column : ValueColumn α} (nonempty : column.values ≠ [])
    (small : column.values.length < 2 ^ 32 - 1) :
    ∃ c, new (some column) = .ok c ∧ c.size = column.values.length ∧
      ∀ i (inside : i < column.values.length),
        (∃ id, c.attributeVector.get i = .ok id ∧
          id.toNat = Ranges.lowerBound c.dictionary column.values[i] ∧
          id.toNat < c.uniqueValuesCount) ∧
        c.get i = .ok column.values[i] :=
  ⟨_, new_eq_encoded nonempty small, size_encoded column.values, fun _ inside => get_encoded small inside⟩

theorem decode_encode_three_rows :
    letI := strictBuild
    ∃ c, new (some (ValueColumn.mk [(3 : Int32), 1, 3])) = .ok c ∧ c.size = 3 ∧
      ∀ i (inside : i < 3),
        (∃ id, c.attributeVector.get i = .ok id ∧
          id.toNat = Ranges.lowerBound c.dictionary [(3 : Int32), 1, 3][i] ∧
          id.toNat < c.uniqueValuesCount) ∧
        c.get i = .ok [(3 : Int32), 1, 3][i] := by
  let _ := strictBuild
  have nonempty : (ValueColumn.mk [(3 : Int32), 1, 3]).values ≠ [] := by simp
  exact decode_encode nonempty (by simp)

end DictionaryColumn

end Opossum
