import Opossum.NumberCasts
import Opossum.Storage.DictionaryBounds

/-!
# Searching an integral column for a variant

The searched number is cast to the type of the column first, and the dictionary is searched for what the cast
returns. Both searches agree where no value of the column is between the two numbers.
-/

namespace Opossum
open Decimal

section
variable {α : Type} {dictionary : List α} {p p' : α → Prop} {id : ValueID}

theorem FirstID.congr (first : FirstID dictionary p id) (same : ∀ x ∈ dictionary, (p x ↔ p' x)) :
    FirstID dictionary p' id := by
  cases first with
  | found here holds before =>
    refine .found here ((same _ (List.mem_of_getElem? here)).mp holds) fun j y less there => ?_
    rw [← same y (List.mem_of_getElem? there)]
    exact before j y less there
  | none fails => exact .none fun x member => by rw [← same x member]; exact fails x member

variable [LT α] (ascending : dictionary.Pairwise (· < ·)) (few : dictionary.length < 2 ^ 32 - 1)
include ascending few

/-- Where `p` passes on to greater values, the values from the first id on are those that satisfy it. -/
theorem FirstID.holds_iff (first : FirstID dictionary p id) (upward : ∀ x y, x < y → p x → p y) {j : Nat}
    {x : α} (found : dictionary[j]? = some x) : p x ↔ id.toNat ≤ j := by
  obtain ⟨inside, rfl⟩ := List.getElem?_eq_some_iff.mp found
  cases first with
  | found here holds before =>
    obtain ⟨inside', rfl⟩ := List.getElem?_eq_some_iff.mp here
    constructor
    · intro satisfied
      by_contra less
      exact before j _ (not_le.mp less) found satisfied
    · intro behind
      rcases behind.eq_or_lt with same | less
      · simpa only [same] using holds
      · exact upward _ _ (List.pairwise_iff_getElem.mp ascending _ _ inside' inside less) holds
  | none fails =>
    refine iff_of_false (fails _ (List.getElem_mem inside)) ?_
    rw [invalidValueID_toNat]
    omega

/-- A first id for `p` is one for `p'` exactly when the values cannot tell the two apart. -/
theorem FirstID.iff_forall (first : FirstID dictionary p id) (upward : ∀ x y, x < y → p x → p y)
    (upward' : ∀ x y, x < y → p' x → p' y) :
    FirstID dictionary p' id ↔ ∀ x ∈ dictionary, (p x ↔ p' x) := by
  constructor
  · intro first' x member
    obtain ⟨j, found⟩ := List.mem_iff_getElem?.mp member
    rw [first.holds_iff ascending few upward found, first'.holds_iff ascending few upward' found]
  · exact first.congr

end

instance : (I : IntegralType) → TotallyOrdered I.columnType.Elem
  | .int => inferInstanceAs (TotallyOrdered Int32)
  | .long => inferInstanceAs (TotallyOrdered Int64)

namespace DictionaryColumn
variable [Build] {I : IntegralType} {c : DictionaryColumn I.columnType.Elem} {value : AllTypeVariant} {q : ℚ}

/-- What the declarations of the two searches promise for a variant that holds `q`. -/
structure BoundsOf (c : DictionaryColumn I.columnType.Elem) (value : AllTypeVariant) (q : ℚ) : Prop where
  lower : ∃ id, c.lowerBoundVariant value = .ok id ∧ FirstID c.dictionary (fun x => q ≤ I.toInt x) id
  upper : ∃ id, c.upperBoundVariant value = .ok id ∧ FirstID c.dictionary (fun x => q < I.toInt x) id

theorem Encodes.lowerBound_iff {values : List I.columnType.Elem} (encodes : c.Encodes values) {t : Int}
    (inside : I.InRange t) : FirstID c.dictionary (fun x => q ≤ I.toInt x) (c.lowerBound (I.ofInt t)) ↔
      ∀ x ∈ values, (t ≤ I.toInt x ↔ q ≤ I.toInt x) := by
  have first := encodes.firstID_lowerBound (I.ofInt t)
  rw [first.iff_forall encodes.ascending encodes.few]
  · simp only [encodes.mem_iff, IntegralType.lt_iff_toInt_lt, I.toInt_ofInt inside, not_lt]
  · intro x y less notBelow below
    exact notBelow (TotallyOrdered.trans less below)
  · intro x y less above
    exact above.trans (I.cast_lt_of_lt less).le

theorem Encodes.upperBound_iff {values : List I.columnType.Elem} (encodes : c.Encodes values) {t : Int}
    (inside : I.InRange t) : FirstID c.dictionary (fun x => q < I.toInt x) (c.upperBound (I.ofInt t)) ↔
      ∀ x ∈ values, (t < I.toInt x ↔ q < I.toInt x) := by
  have first := encodes.firstID_upperBound (I.ofInt t)
  rw [first.iff_forall encodes.ascending encodes.few]
  · simp only [encodes.mem_iff, IntegralType.lt_iff_toInt_lt, I.toInt_ofInt inside]
  · intro x y less above
    exact TotallyOrdered.trans above less
  · intro x y less above
    exact above.trans (I.cast_lt_of_lt less)

theorem Encodes.answers_iff {values : List I.columnType.Elem} (encodes : c.Encodes values) {t : Int}
    (inside : I.InRange t) (cast : typeCast I.columnType value = .ok (I.ofInt t)) :
    c.BoundsOf value q ↔ (t : ℚ) = q ∨
      ∀ x ∈ values, (I.toInt x : ℚ) < min (t : ℚ) q ∨ max (t : ℚ) q < I.toInt x := by
  have lower : c.lowerBoundVariant value = .ok (c.lowerBound (I.ofInt t)) := by
    rw [lowerBoundVariant, cast]
    rfl
  have upper : c.upperBoundVariant value = .ok (c.upperBound (I.ofInt t)) := by
    rw [upperBoundVariant, cast]
    rfl
  have both : c.BoundsOf value q ↔ ∀ x ∈ values,
      ((t : ℚ) ≤ I.toInt x ↔ q ≤ I.toInt x) ∧ ((t : ℚ) < I.toInt x ↔ q < I.toInt x) := by
    simp only [Int.cast_le, Int.cast_lt, forall_and, ← encodes.lowerBound_iff inside,
      ← encodes.upperBound_iff inside]
    constructor
    · rintro ⟨⟨id, same, first⟩, ⟨id', same', first'⟩⟩
      rw [lower] at same
      rw [upper] at same'
      exact ⟨Except.ok.inj same ▸ first, Except.ok.inj same' ▸ first'⟩
    · rintro ⟨first, first'⟩
      exact ⟨⟨_, lower, first⟩, ⟨_, upper, first'⟩⟩
  rw [both]
  by_cases exact : (t : ℚ) = q
  · subst exact
    exact iff_of_true (fun _ _ => ⟨Iff.rfl, Iff.rfl⟩) (Or.inl rfl)
  · simp only [exact, false_or, Ranges.same_side_iff exact]

/-- The searches for a variant keep their promise exactly when its number is cast and no value of the column
is between the number and what the cast makes of it. -/
theorem boundsOf_iff (casts : BoostCasts) {column : ValueColumn I.columnType.Elem}
    (made : new (some column) = .ok c) (holds : value.Holds q) :
    c.BoundsOf value q ↔ I.InRange (truncate (value.denoted q)) ∧
      (truncate (value.denoted q) = q ∨ ∀ x ∈ column.values,
        (I.toInt x : ℚ) < min (truncate (value.denoted q) : ℚ) q ∨
          max (truncate (value.denoted q) : ℚ) q < I.toInt x) := by
  have cast := typeCast_of_holds casts holds I
  by_cases inside : I.InRange (truncate (value.denoted q))
  · rw [if_pos inside] at cast
    rw [(encodes_new made).answers_iff inside cast, and_iff_right inside]
  · rw [if_neg inside] at cast
    refine iff_of_false ?_ fun condition => inside condition.1
    rintro ⟨⟨id, same, _⟩, _⟩
    rw [lowerBoundVariant, cast] at same
    cases same

omit [Build] in
theorem boundsOf_iff_one_row :
    letI := documentedBuild
    ∃ c : DictionaryColumn IntegralType.int.columnType.Elem, new (some ⟨[(4 : Int32)]⟩) = .ok c ∧
      c.BoundsOf ⟨.int, (4 : Int32)⟩ (4 : Int) := by
  let _ := documentedBuild
  have nonempty : (⟨[(4 : Int32)]⟩ : ValueColumn IntegralType.int.columnType.Elem).values ≠ [] := by simp
  obtain ⟨c, made, _⟩ := exists_encodes nonempty (by decide)
  have holds : AllTypeVariant.Holds ⟨.int, (4 : Int32)⟩ (4 : Int) := .integral .int (4 : Int32)
  exact ⟨c, made, (boundsOf_iff documentedBuild_casts made holds).mpr
    ⟨by decide +kernel, .inl (by decide +kernel)⟩⟩

omit [Build] in
/-- The cast of `4.5` is `4`, which the column holds. -/
theorem lowerBound_returns_smaller :
    letI := documentedBuild
    ∃ c : DictionaryColumn IntegralType.int.columnType.Elem, new (some ⟨[(4 : Int32)]⟩) = .ok c ∧
      ∃ x : BinaryFloat 11 52, x.isFinite = true ∧ x.toRat = 9 / 2 ∧
        c.lowerBoundVariant ⟨.double, x⟩ = .ok 0 ∧ ¬c.BoundsOf ⟨.double, x⟩ (9 / 2) := by
  let _ := documentedBuild
  have nonempty : (⟨[(4 : Int32)]⟩ : ValueColumn IntegralType.int.columnType.Elem).values ≠ [] := by simp
  obtain ⟨c, made, encodes⟩ := exists_encodes nonempty (by decide)
  obtain ⟨x, finite, number⟩ : ∃ x : BinaryFloat 11 52, x.isFinite = true ∧ x.toRat = 9 / 2 :=
    ⟨⟨false, 0x4012000000000000#63⟩, by decide, by decide +kernel⟩
  have cast := typeCast_of_holds documentedBuild_casts (.double x finite) .int
  have whole : truncate (significant 6 (9 / 2)) = 4 := by decide +kernel
  rw [AllTypeVariant.denoted, if_pos rfl, number, whole, if_pos (by decide)] at cast
  refine ⟨c, made, x, finite, number, ?_, fun bounds => ?_⟩
  · rw [lowerBoundVariant, cast]
    cases made
    decide
  · rcases (encodes.answers_iff (by decide) cast).mp bounds with same | apart
    · norm_num at same
    · exact absurd (apart (4 : Int32) (List.mem_singleton.mpr rfl)) (by decide +kernel)

end DictionaryColumn

end Opossum
