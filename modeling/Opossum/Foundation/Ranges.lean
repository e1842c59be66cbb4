import Mathlib.Data.List.Destutter
import Mathlib.Data.List.Sort
import Mathlib.Data.List.TakeWhile

/-!
# Sorted ranges

The range algorithms of the standard library on lists: sorting, removing equal neighbours, and the
two binary searches, each by what it is documented to return. All of them only compare with `<`
and `==`.
-/

universe u

/-- `<` is a strict total order whose equality is `==`. Floating-point types with a NaN are not. -/
class TotallyOrdered (α : Type u) [LT α] [BEq α] : Prop where
  irrefl : ∀ a : α, ¬a < a
  trans : ∀ {a b c : α}, a < b → b < c → a < c
  connected : ∀ a b : α, a < b ∨ a = b ∨ b < a
  beq_iff : ∀ a b : α, (a == b) = true ↔ a = b

instance TotallyOrdered.ofLinearOrder {α : Type u} [LinearOrder α] : TotallyOrdered α where
  irrefl := lt_irrefl
  trans := lt_trans
  connected := lt_trichotomy
  beq_iff _ _ := beq_iff_eq

namespace Ranges
variable {α : Type u}

/-- Where a predicate holds of an initial part of a range only, a position is before the end of that part
exactly when the predicate holds there. -/
theorem lt_length_takeWhile_iff {p : α → Bool} {xs : List α}
    (closed : xs.Pairwise fun a b => p b = true → p a = true) {i : Nat} {x : α}
    (found : xs[i]? = some x) : i < (xs.takeWhile p).length ↔ p x = true := by
  induction xs generalizing i with
  | nil => cases found
  | cons a xs ih =>
    obtain ⟨first, rest⟩ := List.pairwise_cons.mp closed
    by_cases holds : p a = true
    · rw [List.takeWhile_cons_of_pos holds, List.length_cons]
      obtain _ | i := i
      · obtain rfl : a = x := by simpa using found
        simp [holds]
      · rw [Nat.add_lt_add_iff_right]
        exact ih rest found
    · rw [List.takeWhile_cons_of_neg holds, List.length_nil]
      refine iff_of_false (Nat.not_lt_zero i) fun later => ?_
      obtain _ | i := i
      · obtain rfl : a = x := by simpa using found
        exact holds later
      · exact holds (first x (List.mem_of_getElem? found) later)

section
variable [LT α] [DecidableLT α]

/-- Sorting: `a` may stay before `b` unless `b < a`. -/
def sort (xs : List α) : List α := xs.insertionSort fun a b => ¬b < a

/-- The furthest position such that all elements before it are `< value`. -/
def lowerBound (xs : List α) (value : α) : Nat := (xs.takeWhile (· < value)).length

/-- The furthest position such that `value <` no element before it. -/
def upperBound (xs : List α) (value : α) : Nat := (xs.takeWhile fun x => ¬value < x).length

theorem mem_sort {xs : List α} {x : α} : x ∈ sort xs ↔ x ∈ xs :=
  List.mem_insertionSort _

theorem lowerBound_le_length (xs : List α) (value : α) : lowerBound xs value ≤ xs.length :=
  (List.takeWhile_sublist _).length_le

theorem upperBound_le_length (xs : List α) (value : α) : upperBound xs value ≤ xs.length :=
  (List.takeWhile_sublist _).length_le

theorem length_sort (xs : List α) : (sort xs).length = xs.length :=
  List.length_insertionSort _ _

end

/-- Of each group of equal neighbours only the first element stays. -/
def unique [BEq α] (xs : List α) : List α := xs.destutter fun a b => ¬(a == b) = true

theorem length_unique_le [BEq α] (xs : List α) : (unique xs).length ≤ xs.length :=
  (List.destutter_sublist _ _).length_le

variable [LT α] [BEq α] [TotallyOrdered α]

theorem not_lt_of_lt {a b : α} (below : a < b) : ¬b < a := fun above =>
  TotallyOrdered.irrefl a (TotallyOrdered.trans below above)

theorem mem_destutter' {x : α} (a : α) (xs : List α) :
    x ∈ xs.destutter' (fun a b => ¬(a == b) = true) a ↔ x = a ∨ x ∈ xs := by
  induction xs generalizing a with
  | nil => simp
  | cons b xs ih =>
    by_cases equal : (a == b) = true
    · obtain rfl := (TotallyOrdered.beq_iff a b).mp equal
      rw [List.destutter'_cons_neg _ (by simpa using equal), ih]
      simp
    · rw [List.destutter'_cons_pos _ equal, List.mem_cons, ih, List.mem_cons]

theorem mem_unique {xs : List α} {x : α} : x ∈ unique xs ↔ x ∈ xs := by
  cases xs with
  | nil => simp [unique]
  | cons a xs => rw [unique, List.destutter_cons', mem_destutter', List.mem_cons]

theorem nodup_of_ascending {xs : List α} (ascending : xs.Pairwise (· < ·)) : xs.Nodup :=
  ascending.imp fun {a b} below (equal : a = b) => TotallyOrdered.irrefl b (equal ▸ below)

/-- A strictly ascending range is determined by its elements. -/
theorem ascending_unique {xs ys : List α} (ascending : xs.Pairwise (· < ·))
    (ascending' : ys.Pairwise (· < ·)) (same : ∀ x, x ∈ xs ↔ x ∈ ys) : xs = ys := by
  have perm : xs.Perm ys :=
    (List.perm_ext_iff_of_nodup (nodup_of_ascending ascending) (nodup_of_ascending ascending')).mpr same
  refine perm.eq_of_pairwise (fun a b _ _ below above => ?_) ascending ascending'
  exact absurd above (not_lt_of_lt below)

variable [DecidableLT α]

theorem sort_sorted (xs : List α) : (sort xs).Pairwise fun a b => ¬b < a := by
  have total : Std.Total (fun a b : α => ¬b < a) := ⟨fun a b => by
    by_cases below : b < a
    · exact Or.inr (not_lt_of_lt below)
    · exact Or.inl below⟩
  have trans : IsTrans α (fun a b => ¬b < a) := ⟨fun a b c ab bc ca => by
    rcases TotallyOrdered.connected a b with below | rfl | above
    · exact bc (TotallyOrdered.trans ca below)
    · exact bc ca
    · exact ab above⟩
  exact List.pairwise_insertionSort _ xs

/-- Without equal neighbours, a sorted range ascends strictly. -/
theorem unique_sort_ascending (xs : List α) : (unique (sort xs)).Pairwise (· < ·) := by
  have sorted : (unique (sort xs)).Pairwise fun a b => ¬b < a :=
    (sort_sorted xs).sublist (List.destutter_sublist _ _)
  have different : (unique (sort xs)).IsChain fun a b => ¬(a == b) = true :=
    List.isChain_destutter _ _
  have trans : IsTrans α (· < ·) := ⟨fun _ _ _ => TotallyOrdered.trans⟩
  refine List.isChain_iff_pairwise.mp (List.isChain_iff_getElem.mpr fun i bound => ?_)
  have notAbove := List.isChain_iff_getElem.mp sorted.isChain i bound
  have notEqual := List.isChain_iff_getElem.mp different i bound
  rcases TotallyOrdered.connected (unique (sort xs))[i] (unique (sort xs))[i + 1] with below | same | above
  · exact below
  · exact absurd ((TotallyOrdered.beq_iff _ _).mpr same) notEqual
  · exact absurd above notAbove

theorem mem_unique_sort {xs : List α} {x : α} : x ∈ unique (sort xs) ↔ x ∈ xs :=
  mem_unique.trans mem_sort

/-- In a strictly ascending range the binary search for an element finds that element. -/
theorem getElem?_lowerBound {xs : List α} (ascending : xs.Pairwise (· < ·)) {x : α} (member : x ∈ xs) :
    xs[lowerBound xs x]? = some x := by
  induction xs with
  | nil => simp at member
  | cons a xs ih =>
    obtain ⟨first, rest⟩ := List.pairwise_cons.mp ascending
    rcases List.mem_cons.mp member with rfl | later
    · simp [lowerBound, TotallyOrdered.irrefl]
    · have below := first x later
      have found := ih rest later
      simpa [lowerBound, below] using found

theorem lt_lowerBound_iff {xs : List α} (ascending : xs.Pairwise (· < ·)) {i : Nat} {x value : α}
    (found : xs[i]? = some x) : i < lowerBound xs value ↔ x < value := by
  have closed : xs.Pairwise fun a b => decide (b < value) = true → decide (a < value) = true :=
    ascending.imp fun below inside => by simpa using TotallyOrdered.trans below (by simpa using inside)
  simpa [lowerBound] using lt_length_takeWhile_iff closed found

theorem lt_upperBound_iff {xs : List α} (ascending : xs.Pairwise (· < ·)) {i : Nat} {x value : α}
    (found : xs[i]? = some x) : i < upperBound xs value ↔ ¬value < x := by
  have closed : xs.Pairwise fun a b => decide (¬value < b) = true → decide (¬value < a) = true :=
    ascending.imp fun {a b} below inside => by
      have notAbove : ¬value < b := by simpa using inside
      simpa using fun above : value < a => notAbove (TotallyOrdered.trans above below)
  simpa [upperBound] using lt_length_takeWhile_iff closed found

section
variable {β : Type} [LinearOrder β] {a b y : β}

theorem same_side_iff_of_lt (less : a < b) :
    ((a ≤ y ↔ b ≤ y) ∧ (a < y ↔ b < y)) ↔ y < a ∨ b < y := by
  constructor
  · rintro ⟨weak, strict⟩
    by_contra between
    obtain ⟨above, below⟩ := not_or.mp between
    have same : y = b := le_antisymm (not_lt.mp below) (weak.mp (not_lt.mp above))
    exact below (strict.mp (same ▸ less))
  · rintro (below | above)
    · exact ⟨iff_of_false (not_le.mpr below) (not_le.mpr (below.trans less)),
        iff_of_false below.not_gt (below.trans less).not_gt⟩
    · exact ⟨iff_of_true (less.trans above).le above.le, iff_of_true (less.trans above) above⟩

/-- All comparisons with two different points agree on what is not between them. -/
theorem same_side_iff (differ : a ≠ b) :
    ((a ≤ y ↔ b ≤ y) ∧ (a < y ↔ b < y)) ↔ y < min a b ∨ max a b < y := by
  rcases differ.lt_or_gt with less | greater
  · rw [min_eq_left less.le, max_eq_right less.le, same_side_iff_of_lt less]
  · rw [min_eq_right greater.le, max_eq_left greater.le, ← same_side_iff_of_lt greater]
    exact and_congr Iff.comm Iff.comm

end

end Ranges
