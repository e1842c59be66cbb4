import Mathlib.Algebra.Order.Field.Rat
import Mathlib.Data.List.TakeWhile
import Mathlib.Tactic.FieldSimp
import Mathlib.Tactic.Positivity
import Mathlib.Tactic.Ring

/-!
# Decimal text

Whole numbers, and numbers with a point and an exponent, as text and back. `general` is the format `%g` of
the C library: so many significant digits, without zeros at the end.
-/

namespace Decimal

def digits (n : Nat) : List Char := Nat.toDigits 10 n

/-- At least `width` digits, with zeros in front. -/
def padded (width n : Nat) : List Char := List.leftpad width '0' (digits n)

def signed (negative : Bool) (text : List Char) : List Char := if negative then '-' :: text else text

def integer (z : Int) : List Char := signed (z < 0) (digits z.natAbs)

/-- `n / 10 ^ places`, with `places` digits after the point. -/
def fixed (n places : Nat) : List Char :=
  digits (n / 10 ^ places) ++ if places = 0 then [] else '.' :: padded places (n % 10 ^ places)

/-- `n / 10 ^ places` without zeros at the end, and without the point when nothing follows it. -/
def trimmed (n : Nat) : Nat → List Char
  | 0 => fixed n 0
  | places + 1 => if n % 10 = 0 then trimmed (n / 10) places else fixed n (places + 1)

/-- The exponent has at least two digits. -/
def exponent (x : Int) : List Char := 'e' :: (if x < 0 then '-' else '+') :: padded 2 x.natAbs

/-- `%g` for the digits `n`, the first of which has the weight `10 ^ x`. -/
def general (precision n : Nat) (x : Int) : List Char :=
  if -4 ≤ x ∧ x < precision then trimmed n (precision - 1 - x).toNat
  else trimmed n (precision - 1) ++ exponent x

def readDigits (text : List Char) : Option Nat :=
  if text ≠ [] ∧ text.all Char.isDigit then some (Nat.ofDigitChars 10 text 0) else none

/-- A sign may stand in front. -/
def readSigned {α : Type} [Neg α] (read : List Char → Option α) : List Char → Option α
  | '-' :: text => (read text).map (-·)
  | '+' :: text => read text
  | text => read text

def readInteger : List Char → Option Int :=
  readSigned fun text => (readDigits text).map Int.ofNat

/-- Digits with or without a point. -/
def readFixed (text : List Char) : Option ℚ :=
  let places := (text.dropWhile (· != '.')).drop 1
  (readDigits (text.takeWhile (· != '.') ++ places)).map fun n => n / 10 ^ places.length

/-- Digits with or without a point, and with or without an exponent. -/
def readUnsigned (text : List Char) : Option ℚ :=
  match text.dropWhile (· != 'e') with
  | [] => readFixed text
  | _ :: exponent => do
    let mantissa ← readFixed (text.takeWhile (· != 'e'))
    let x ← readInteger exponent
    return mantissa * 10 ^ x

def readNumber : List Char → Option ℚ := readSigned readUnsigned

theorem isDigit_of_mem_digits {n : Nat} {c : Char} (member : c ∈ digits n) : c.isDigit = true :=
  Nat.isDigit_of_mem_toDigits (by decide) (by decide) member

theorem digits_ne_nil (n : Nat) : digits n ≠ [] := Nat.toDigits_ne_nil

theorem isDigit_of_mem_padded {width n : Nat} {c : Char} (member : c ∈ padded width n) :
    c.isDigit = true := by
  rcases List.mem_append.mp member with zero | digit
  · rw [List.eq_of_mem_replicate zero]
    decide
  · exact isDigit_of_mem_digits digit

theorem ofDigitChars_padded (width n : Nat) : Nat.ofDigitChars 10 (padded width n) 0 = n := by
  rw [padded, List.leftpad, Nat.ofDigitChars_append, Nat.ofDigitChars_replicate_zero, Nat.mul_zero, digits,
    Nat.ofDigitChars_ten_toDigits]

theorem length_padded {width n : Nat} (positive : 0 < width) (fits : n < 10 ^ width) :
    (padded width n).length = width := by
  have short : (digits n).length ≤ width := (Nat.length_toDigits_le_iff (by decide) positive).mpr fits
  rw [padded, List.leftpad, List.length_append, List.length_replicate]
  omega

theorem readDigits_of_isDigit {text : List Char} (nonempty : text ≠ [])
    (each : ∀ c ∈ text, c.isDigit = true) :
    readDigits text = some (Nat.ofDigitChars 10 text 0) := by
  rw [readDigits, if_pos ⟨nonempty, List.all_eq_true.mpr each⟩]

theorem readDigits_digits (n : Nat) : readDigits (digits n) = some n := by
  rw [readDigits_of_isDigit (digits_ne_nil n) fun _ => isDigit_of_mem_digits, digits,
    Nat.ofDigitChars_ten_toDigits]

def BeginsWithDigit (text : List Char) : Prop := ∃ c rest, text = c :: rest ∧ c.isDigit = true

/-- Text that begins with a digit has no sign in front. -/
theorem readSigned_of_isDigit {α : Type} [Neg α] {read : List Char → Option α} {text : List Char}
    (begins : BeginsWithDigit text) : readSigned read text = read text := by
  obtain ⟨c, rest, rfl, digit⟩ := begins
  unfold readSigned
  split
  · rename_i same
    cases same
    cases digit
  · rename_i same
    cases same
    cases digit
  · rfl

theorem readSigned_signed {α : Type} [Neg α] {read : List Char → Option α} {negative : Bool}
    {text : List Char} (begins : BeginsWithDigit text) : readSigned read (signed negative text) =
      (read text).map fun x => if negative then -x else x := by
  cases negative with
  | true => rfl
  | false =>
    rw [signed, if_neg (by decide), readSigned_of_isDigit begins]
    simp

theorem beginsWithDigit {text : List Char} (nonempty : text ≠ []) (each : ∀ c ∈ text, c.isDigit = true)
    (rest : List Char) : BeginsWithDigit (text ++ rest) := by
  obtain ⟨c, tail, rfl⟩ := List.exists_cons_of_ne_nil nonempty
  exact ⟨c, tail ++ rest, rfl, each c (List.mem_cons_self ..)⟩

theorem readInteger_integer (z : Int) : readInteger (integer z) = some z := by
  have begins := beginsWithDigit (digits_ne_nil z.natAbs) (fun _ => isDigit_of_mem_digits) []
  rw [List.append_nil] at begins
  rw [readInteger, integer, readSigned_signed begins, readDigits_digits]
  simp only [Option.map_some, decide_eq_true_eq, Option.some.injEq]
  split
  · rename_i negative
    show -(z.natAbs : Int) = z
    omega
  · show (z.natAbs : Int) = z
    omega

/-- No digit is the point or the exponent letter. -/
theorem ne_of_isDigit {c : Char} (digit : c.isDigit = true) : (c != '.') = true ∧ (c != 'e') = true := by
  refine ⟨bne_iff_ne.mpr ?_, bne_iff_ne.mpr ?_⟩
  · rintro rfl
    cases digit
  · rintro rfl
    cases digit

theorem readFixed_of_isDigit {text : List Char} (nonempty : text ≠ []) (each : ∀ c ∈ text, c.isDigit = true) :
    readFixed text = some (Nat.ofDigitChars 10 text 0 : ℚ) := by
  have free : ∀ c ∈ text, (c != '.') = true := fun c member => (ne_of_isDigit (each c member)).1
  rw [readFixed, List.takeWhile_eq_self_iff.mpr free, List.dropWhile_eq_nil_iff.mpr free]
  simp [readDigits_of_isDigit nonempty each]

theorem readFixed_fixed (n places : Nat) : readFixed (fixed n places) = some (n / 10 ^ places : ℚ) := by
  have whole : ∀ c ∈ digits (n / 10 ^ places), (c != '.') = true :=
    fun c member => (ne_of_isDigit (isDigit_of_mem_digits member)).1
  by_cases none : places = 0
  · rw [none, fixed, if_pos rfl, List.append_nil, Nat.pow_zero, Nat.div_one,
      readFixed_of_isDigit (digits_ne_nil n) fun _ => isDigit_of_mem_digits, digits,
      Nat.ofDigitChars_ten_toDigits, pow_zero, div_one]
  · have positive : 0 < places := Nat.pos_of_ne_zero none
    have length := length_padded positive (Nat.mod_lt n (Nat.pow_pos (n := places) (by decide)))
    have value : Nat.ofDigitChars 10 (digits (n / 10 ^ places) ++ padded places (n % 10 ^ places)) 0 = n := by
      rw [Nat.ofDigitChars_append, digits, Nat.ofDigitChars_ten_toDigits,
        Nat.ofDigitChars_eq_ofDigitChars_zero, ofDigitChars_padded, length, Nat.div_add_mod]
    have front : (fixed n places).takeWhile (· != '.') = digits (n / 10 ^ places) := by
      rw [fixed, if_neg none, List.takeWhile_append_of_pos whole]
      simp
    have back : (fixed n places).dropWhile (· != '.') = '.' :: padded places (n % 10 ^ places) := by
      rw [fixed, if_neg none, List.dropWhile_append_of_pos whole]
      simp
    rw [readFixed, front, back, List.drop_one, List.tail_cons, readDigits_of_isDigit, value, length]
    · rfl
    · exact List.append_ne_nil_of_left_ne_nil (digits_ne_nil _) _
    · intro c member
      rcases List.mem_append.mp member with inWhole | inPlaces
      · exact isDigit_of_mem_digits inWhole
      · exact isDigit_of_mem_padded inPlaces

theorem readFixed_trimmed (n places : Nat) : readFixed (trimmed n places) = some (n / 10 ^ places : ℚ) := by
  induction places generalizing n with
  | zero => exact readFixed_fixed n 0
  | succ places ih =>
    rw [trimmed]
    split
    · rename_i zero
      have tens : (n : ℚ) = 10 * (n / 10 : Nat) := by
        exact_mod_cast (Nat.mul_div_cancel' (Nat.dvd_of_mod_eq_zero zero)).symm
      rw [ih, tens, pow_succ]
      congr 1
      field_simp
    · exact readFixed_fixed n (places + 1)

theorem beginsWithDigit_fixed (n places : Nat) : BeginsWithDigit (fixed n places) :=
  beginsWithDigit (digits_ne_nil _) (fun _ => isDigit_of_mem_digits) _

theorem bne_of_mem_fixed {n places : Nat} {c : Char} (member : c ∈ fixed n places) : (c != 'e') = true := by
  rcases List.mem_append.mp member with whole | rest
  · exact (ne_of_isDigit (isDigit_of_mem_digits whole)).2
  · split at rest
    · cases rest
    · rcases List.mem_cons.mp rest with rfl | inPlaces
      · decide
      · exact (ne_of_isDigit (isDigit_of_mem_padded inPlaces)).2

/-- Trimmed text is the text of another number with fewer places. -/
theorem exists_trimmed_eq (n places : Nat) : ∃ n' places', trimmed n places = fixed n' places' := by
  induction places generalizing n with
  | zero => exact ⟨n, 0, rfl⟩
  | succ places ih =>
    rw [trimmed]
    split
    · exact ih (n / 10)
    · exact ⟨n, places + 1, rfl⟩

theorem beginsWithDigit_trimmed (n places : Nat) (rest : List Char) :
    BeginsWithDigit (trimmed n places ++ rest) := by
  obtain ⟨n', places', same⟩ := exists_trimmed_eq n places
  obtain ⟨c, tail, begins, digit⟩ := beginsWithDigit_fixed n' places'
  exact ⟨c, tail ++ rest, by rw [same, begins, List.cons_append], digit⟩

theorem bne_of_mem_trimmed {n places : Nat} {c : Char} (member : c ∈ trimmed n places) :
    (c != 'e') = true := by
  obtain ⟨n', places', same⟩ := exists_trimmed_eq n places
  exact bne_of_mem_fixed (same ▸ member)

theorem readInteger_exponent (x : Int) : readInteger ((exponent x).drop 1) = some x := by
  have padded_ne : padded 2 x.natAbs ≠ [] := List.append_ne_nil_of_right_ne_nil _ (digits_ne_nil _)
  have value : readDigits (padded 2 x.natAbs) = some x.natAbs := by
    rw [readDigits_of_isDigit padded_ne fun _ => isDigit_of_mem_padded, ofDigitChars_padded]
  rw [exponent, List.drop_one, List.tail_cons, readInteger]
  split
  · rename_i negative
    simp only [readSigned, value, Option.map_some, Option.some.injEq]
    show -(x.natAbs : Int) = x
    omega
  · simp only [readSigned, value, Option.map_some, Option.some.injEq]
    show (x.natAbs : Int) = x
    omega

theorem beginsWithDigit_general (precision n : Nat) (x : Int) : BeginsWithDigit (general precision n x) := by
  unfold general
  split
  · have begins := beginsWithDigit_trimmed n (precision - 1 - x).toNat []
    rwa [List.append_nil] at begins
  · exact beginsWithDigit_trimmed ..

theorem readUnsigned_general {precision : Nat} (positive : 0 < precision) (n : Nat) (x : Int) :
    readUnsigned (general precision n x) = some (n * 10 ^ (x - (precision - 1)) : ℚ) := by
  unfold general
  split
  · rename_i range
    have none : (trimmed n (precision - 1 - x).toNat).dropWhile (· != 'e') = [] :=
      List.dropWhile_eq_nil_iff.mpr fun c member => bne_of_mem_trimmed member
    have places : x - (precision - 1) = -((precision - 1 - x).toNat : Int) := by omega
    rw [readUnsigned, none, readFixed_trimmed, places, zpow_neg, zpow_natCast, div_eq_mul_inv]
  · obtain ⟨tail, split⟩ : ∃ tail, exponent x = 'e' :: tail := ⟨_, rfl⟩
    have front : (trimmed n (precision - 1) ++ exponent x).takeWhile (· != 'e') =
        trimmed n (precision - 1) := by
      rw [List.takeWhile_append_of_pos fun c member => bne_of_mem_trimmed member, split]
      simp
    have back : (trimmed n (precision - 1) ++ exponent x).dropWhile (· != 'e') = exponent x := by
      rw [List.dropWhile_append_of_pos fun c member => bne_of_mem_trimmed member, split]
      simp
    have read := readInteger_exponent x
    rw [split, List.drop_one, List.tail_cons] at read
    have weight : (10 : ℚ) ^ (x - (precision - 1)) = 10 ^ x / 10 ^ (precision - 1) := by
      rw [zpow_sub₀ (by norm_num), show (precision : Int) - 1 = (precision - 1 : Nat) by omega, zpow_natCast]
    rw [readUnsigned, front, back, split]
    simp only [readFixed_trimmed, read, weight]
    show some _ = some _
    congr 1
    ring

/-- What `%g` writes is read back: the digits `n` with the weight `10 ^ x` of the first of them. -/
theorem readNumber_general {precision : Nat} (positive : 0 < precision) (negative : Bool)
    (n : Nat) (x : Int) :
    readNumber (signed negative (general precision n x)) =
      some (if negative then -(n * 10 ^ (x - (precision - 1))) else n * 10 ^ (x - (precision - 1)) : ℚ) := by
  rw [readNumber, readSigned_signed (beginsWithDigit_general ..), readUnsigned_general positive]
  rfl

/-- Digits alone are read as the same number, whether as a whole one or not. -/
theorem readUnsigned_of_readDigits {text : List Char} {n : Nat} (read : readDigits text = some n) :
    readUnsigned text = some (n : ℚ) := by
  unfold readDigits at read
  split at read
  · rename_i shape
    have each := List.all_eq_true.mp shape.2
    have none : text.dropWhile (· != 'e') = [] :=
      List.dropWhile_eq_nil_iff.mpr fun c member => (ne_of_isDigit (each c member)).2
    rw [readUnsigned, none]
    simp only [readFixed_of_isDigit shape.1 each, Option.some.inj read]
  · cases read

theorem readNumber_of_readInteger {text : List Char} {z : Int} (read : readInteger text = some z) :
    readNumber text = some (z : ℚ) := by
  unfold readInteger readSigned at read
  unfold readNumber readSigned
  split at read
  all_goals
    obtain ⟨n, digits, rfl⟩ := by simpa using read
    simp [readUnsigned_of_readDigits digits]

theorem mem_fixed {n places : Nat} {c : Char} (member : c ∈ fixed n places) : c.isDigit = true ∨ c = '.' := by
  rcases List.mem_append.mp member with whole | rest
  · exact Or.inl (isDigit_of_mem_digits whole)
  · split at rest
    · cases rest
    · rcases List.mem_cons.mp rest with point | inPlaces
      · exact Or.inr point
      · exact Or.inl (isDigit_of_mem_padded inPlaces)

theorem mem_exponent {x : Int} {c : Char} (member : c ∈ exponent x) :
    c.isDigit = true ∨ c ∈ ['e', '-', '+'] := by
  rcases List.mem_cons.mp member with rfl | member
  · exact Or.inr (by decide)
  rcases List.mem_cons.mp member with sign | digit
  · split at sign
    · exact Or.inr (by simp [sign])
    · exact Or.inr (by simp [sign])
  · exact Or.inl (isDigit_of_mem_padded digit)

/-- The characters of a number. -/
theorem mem_general {precision n : Nat} {x : Int} {c : Char} (member : c ∈ general precision n x) :
    c.isDigit = true ∨ c ∈ ['.', 'e', '-', '+'] := by
  have ofTrimmed {n places : Nat} (member : c ∈ trimmed n places) : c.isDigit = true ∨ c = '.' := by
    obtain ⟨n', places', same⟩ := exists_trimmed_eq n places
    exact mem_fixed (same ▸ member)
  unfold general at member
  split at member
  · exact (ofTrimmed member).imp_right fun point => by simp [point]
  · rcases List.mem_append.mp member with mantissa | exponent
    · exact (ofTrimmed mantissa).imp_right fun point => by simp [point]
    · exact (mem_exponent exponent).imp_right fun other => List.mem_cons_of_mem _ other

theorem mem_signed {negative : Bool} {text : List Char} {c : Char} (member : c ∈ signed negative text) :
    c = '-' ∨ c ∈ text := by
  unfold signed at member
  split at member
  · exact List.mem_cons.mp member
  · exact Or.inr member

end Decimal
