import Mathlib.Logic.Equiv.Fin.Basic
import Opossum.Storage.DictionaryBounds

/-!
# What a dictionary column contains

The dictionary depends on the set of the values only, and the stored ids on the dictionary and the
values. The width of the ids depends on the number of rows.
-/

namespace Opossum
namespace DictionaryColumn
variable {α : Type} [LT α] [DecidableLT α] [BEq α] [TotallyOrdered α] [Build]
variable {c d : DictionaryColumn α} {values others : List α}

omit [DecidableLT α] in
/-- A value has one place in the dictionary. -/
theorem Encodes.place_unique (encodes : c.Encodes values) {i j : Nat} {x : α}
    (atI : c.dictionary[i]? = some x) (atJ : c.dictionary[j]? = some x) : i = j := by
  obtain ⟨inside, _⟩ := List.getElem?_eq_some_iff.mp atI
  exact (List.getElem?_inj inside (Ranges.nodup_of_ascending encodes.ascending)).mp (atI.trans atJ.symm)

omit [DecidableLT α] in
theorem Encodes.sameDictionary (encodes : c.Encodes values) (encodes' : d.Encodes others)
    (same : ∀ x, x ∈ values ↔ x ∈ others) : d.dictionary = c.dictionary :=
  Ranges.ascending_unique encodes'.ascending encodes.ascending fun x => by
    rw [encodes'.mem_iff, encodes.mem_iff, same]

omit [DecidableLT α] in
/-- Rows with one value have one id, in all columns with the same dictionary. -/
theorem Encodes.sameID (encodes : c.Encodes values) (encodes' : d.Encodes others)
    (same : d.dictionary = c.dictionary) {i j : Nat} (inside : i < values.length)
    (inside' : j < others.length) (equal : others[j] = values[i]) :
    d.attributeVector.get j = c.attributeVector.get i := by
  obtain ⟨_, id, stored, found⟩ := encodes.row i inside
  obtain ⟨_, id', stored', found'⟩ := encodes'.row j inside'
  rw [same, equal] at found'
  rw [stored, stored', UInt32.toNat_inj.mp (encodes.place_unique found' found)]

omit [DecidableLT α] in
theorem Encodes.occurs (encodes : c.Encodes values) {id : ValueID} (real : id.toNat < c.uniqueValuesCount) :
    ∃ i, i < values.length ∧ c.attributeVector.get i = .ok id ∧ c.valueByValueID id = c.get i := by
  have found := List.getElem?_eq_getElem (l := c.dictionary) real
  obtain ⟨i, inside, same⟩ := List.getElem_of_mem ((encodes.mem_iff _).mp (List.getElem_mem real))
  obtain ⟨read, id', stored, found'⟩ := encodes.row i inside
  rw [same] at found' read
  refine ⟨i, inside, ?_, ?_⟩
  · rw [stored, UInt32.toNat_inj.mp (encodes.place_unique found' found)]
  · rw [valueByValueID, found, read]

/-- The dictionary is the ascending list of the distinct values, and every entry is used. Two columns
with the same values have the same dictionary, and rows that change places take their ids along. -/
theorem dictionary_canonical {column : ValueColumn α} (nonempty : column.values ≠ [])
    (small : column.values.length < 2 ^ 32 - 1) : ∃ c, new (some column) = .ok c ∧
      c.dictionary.Pairwise (· < ·) ∧ (∀ x, x ∈ c.dictionary ↔ x ∈ column.values) ∧
      (∀ id : ValueID, id.toNat < c.uniqueValuesCount → ∃ i, i < column.values.length ∧
        c.attributeVector.get i = .ok id ∧ c.valueByValueID id = c.get i) ∧
      ∀ other d, new (some other) = .ok d →
        ((∀ x, x ∈ column.values ↔ x ∈ other.values) → d.dictionary = c.dictionary) ∧
        ∀ σ : Fin column.values.length ≃ Fin other.values.length,
          (∀ i, other.values.get (σ i) = column.values.get i) →
            d.attributeVector.width = c.attributeVector.width ∧
            ∀ i, d.attributeVector.get (σ i) = c.attributeVector.get i := by
  obtain ⟨c, made, encodes⟩ := exists_encodes nonempty small
  refine ⟨c, made, encodes.ascending, encodes.mem_iff, fun id real => encodes.occurs real,
    fun other d made' => ?_⟩
  have encodes' := encodes_new made'
  refine ⟨encodes.sameDictionary encodes', fun σ permuted => ⟨?_, fun i => ?_⟩⟩
  · have length := Fin.equiv_iff_eq.mp ⟨σ⟩
    obtain ⟨rfl, _⟩ := eq_encoded made
    obtain ⟨rfl, _⟩ := eq_encoded made'
    simp only [encoded, BaseAttributeVector.width, FittedAttributeVector.width, length]
  · have same : ∀ x, x ∈ column.values ↔ x ∈ other.values := by
      intro x
      constructor
      · intro member
        obtain ⟨i, rfl⟩ := List.get_of_mem member
        exact permuted i ▸ List.get_mem ..
      · intro member
        obtain ⟨j, rfl⟩ := List.get_of_mem member
        have back := permuted (σ.symm j)
        rw [Equiv.apply_symm_apply] at back
        exact back ▸ List.get_mem ..
    exact encodes.sameID encodes' (encodes.sameDictionary encodes' same) i.isLt (σ i).isLt (permuted i)

omit [LT α] [DecidableLT α] [BEq α] [TotallyOrdered α] [Build] in
theorem dictionary_canonical_three_rows :
    letI := strictBuild
    ∃ c, new (some (ValueColumn.mk [(3 : Int32), 1, 3])) = .ok c ∧ c.dictionary.Pairwise (· < ·) ∧
      ∀ x, x ∈ c.dictionary ↔ x ∈ [(3 : Int32), 1, 3] := by
  let _ := strictBuild
  have nonempty : (ValueColumn.mk [(3 : Int32), 1, 3]).values ≠ [] := by simp
  obtain ⟨c, made, ascending, mem_iff, _⟩ := dictionary_canonical nonempty (by simp)
  exact ⟨c, made, ascending, mem_iff⟩

end DictionaryColumn

/-- The narrowest of the three widths, in bytes, for which `holds`. -/
structure NarrowestWidth (holds : Nat → Prop) (width : Nat) : Prop where
  isWidth : width ∈ [1, 2, 4]
  enough : holds width
  narrowest : ∀ w ∈ [1, 2, 4], holds w → width ≤ w

namespace DictionaryColumn
variable {α : Type} [LT α] [DecidableLT α] [BEq α] [TotallyOrdered α] [Build]

omit [LT α] [DecidableLT α] [BEq α] [TotallyOrdered α] [Build] in
theorem narrowest_fittedBits {rows : Nat} (small : rows < 2 ^ 32 - 1) :
    NarrowestWidth (fun w => rows < 2 ^ (8 * w) - 1) (fittedBits rows / 8) := by
  have widths (p : Nat → Prop) : (∀ w ∈ [1, 2, 4], p w) ↔ p 1 ∧ p 2 ∧ p 4 := by simp
  unfold fittedBits
  split
  · rename_i one
    refine ⟨by simp, one, ?_⟩
    rw [widths]
    omega
  · rename_i notOne
    split
    · rename_i two
      refine ⟨by simp, two, ?_⟩
      rw [widths]
      exact ⟨fun one => absurd one notOne, by omega, by omega⟩
    · rename_i notTwo
      refine ⟨by simp, small, ?_⟩
      rw [widths]
      exact ⟨fun one => absurd one notOne, fun two => absurd two notTwo, by omega⟩

/-- The attribute vector is fitted to the number of rows: its width is the narrowest whose largest value
is above that number. It then has room for all ids, none of them the cast sentinel. -/
theorem width_fits_rows {column : ValueColumn α} (nonempty : column.values ≠ [])
    (small : column.values.length < 2 ^ 32 - 1) : ∃ c, new (some column) = .ok c ∧
      NarrowestWidth (fun w => column.values.length < 2 ^ (8 * w) - 1) c.attributeVector.width ∧
      (∀ id, id < c.uniqueValuesCount → id < 2 ^ (8 * c.attributeVector.width) - 1) ∧
      ∀ i, i < column.values.length → ∃ id, c.attributeVector.get i = .ok id ∧
        id.toNat < 2 ^ (8 * c.attributeVector.width) - 1 := by
  have narrowest := narrowest_fittedBits small
  have rows := narrowest.enough
  have few : (encoded column.values).uniqueValuesCount ≤ column.values.length :=
    length_dictionary_le column.values
  have width : (encoded column.values).attributeVector.width = fittedBits column.values.length / 8 := rfl
  refine ⟨_, new_eq_encoded nonempty small, ?_, fun id real => ?_, fun i inside => ?_⟩
  · rw [width]
    exact narrowest
  · rw [width]
    omega
  · obtain ⟨⟨id, stored, _, real⟩, _⟩ := get_encoded small inside
    refine ⟨id, stored, ?_⟩
    rw [width]
    omega

omit [LT α] [DecidableLT α] [BEq α] [TotallyOrdered α] [Build] in
theorem width_fits_rows_three_rows :
    letI := strictBuild
    ∃ c, new (some (ValueColumn.mk [(3 : Int32), 1, 3])) = .ok c ∧
      NarrowestWidth (fun w => 3 < 2 ^ (8 * w) - 1) c.attributeVector.width := by
  let _ := strictBuild
  have nonempty : (ValueColumn.mk [(3 : Int32), 1, 3]).values ≠ [] := by simp
  obtain ⟨c, made, narrowest, _⟩ := width_fits_rows nonempty (by simp)
  exact ⟨c, made, narrowest⟩

omit [LT α] [DecidableLT α] [BEq α] [TotallyOrdered α] [Build] in
/-- One value in 300 rows takes two bytes for each of them. -/
theorem width_ignores_distinct :
    ¬∀ (column : ValueColumn Int32) (c : DictionaryColumn Int32) (distinct : List Int32),
      column.values ≠ [] → column.values.length < 2 ^ 32 - 1 → new (some column) = .ok c →
        distinct.Nodup → (∀ x, x ∈ distinct ↔ x ∈ column.values) →
          NarrowestWidth (fun w => ∀ id, id < distinct.length → id < 2 ^ (8 * w) - 1)
            c.attributeVector.width := by
  intro all
  obtain ⟨values, length, mem_iff⟩ :
      ∃ values : List Int32, values.length = 300 ∧ ∀ x, x ∈ [(7 : Int32)] ↔ x ∈ values :=
    ⟨List.replicate 300 7, List.length_replicate, fun x => by
      rw [List.mem_replicate, List.mem_singleton, and_iff_right (by omega)]⟩
  have nonempty : values ≠ [] := List.length_pos_iff.mp (by omega)
  have small : values.length < 2 ^ 32 - 1 := by omega
  have claimed := all ⟨values⟩ _ [7] nonempty small (new_eq_encoded nonempty small)
    (List.nodup_singleton 7) mem_iff
  have oneByte := claimed.narrowest 1 (by simp) fun id first => by
    have zero : id = 0 := by simpa using first
    rw [zero]
    decide
  have width : (encoded values).attributeVector.width = fittedBits values.length / 8 := rfl
  rw [width, length] at oneByte
  revert oneByte
  decide

end DictionaryColumn

end Opossum
