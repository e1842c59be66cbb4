import Opossum.Foundation.SixDigits
import Opossum.Storage.ValueColumn

/-!
# Numbers in integral columns

`type_cast` sends a number through its text, and through a `double` where the text is no number of the
column's type. Under what boost documents of its conversions, this is what arrives.
-/

namespace Opossum
open Decimal BinaryFloat

/-- The column types for which `type_cast` has a second conversion. -/
inductive IntegralType
  | int
  | long
  deriving DecidableEq

namespace IntegralType

def columnType : IntegralType → ColumnType
  | int => .int
  | long => .long

/-- Without the sign. -/
def bits : IntegralType → Nat
  | int => 31
  | long => 63

def toInt : (I : IntegralType) → I.columnType.Elem → Int
  | int, x => Int32.toInt x
  | long, x => Int64.toInt x

def ofInt : (I : IntegralType) → Int → I.columnType.Elem
  | int, z => Int32.ofInt z
  | long, z => Int64.ofInt z

def InRange (I : IntegralType) (z : Int) : Prop := -2 ^ I.bits ≤ z ∧ z < 2 ^ I.bits

instance {I : IntegralType} {z : Int} : Decidable (I.InRange z) := inferInstanceAs (Decidable (_ ∧ _))

def ofInt? (I : IntegralType) (z : Int) : Option I.columnType.Elem :=
  if I.InRange z then some (I.ofInt z) else none

variable {I : IntegralType}

theorem toInt_ofInt {z : Int} (inside : I.InRange z) : I.toInt (I.ofInt z) = z := by
  obtain ⟨above, below⟩ := inside
  cases I with
  | int => exact Int32.toInt_ofInt_of_le above below
  | long => exact Int64.toInt_ofInt_of_le above below

theorem ofInt_toInt (x : I.columnType.Elem) : I.ofInt (I.toInt x) = x := by
  cases I with
  | int => exact Int32.ofInt_toInt x
  | long => exact Int64.ofInt_toInt x

theorem inRange_toInt (x : I.columnType.Elem) : I.InRange (I.toInt x) := by
  cases I with
  | int => exact ⟨Int32.le_toInt x, Int32.toInt_lt x⟩
  | long => exact ⟨Int64.le_toInt x, Int64.toInt_lt x⟩

theorem lt_iff_toInt_lt {x y : I.columnType.Elem} : x < y ↔ I.toInt x < I.toInt y := by
  cases I with
  | int => exact Int32.lt_iff_toInt_lt
  | long => exact Int64.lt_iff_toInt_lt

theorem cast_lt_of_lt {x y : I.columnType.Elem} (less : x < y) : (I.toInt x : ℚ) < I.toInt y :=
  Int.cast_lt.mpr (lt_iff_toInt_lt.mp less)

end IntegralType

/-- What a stream with its default settings writes. -/
def floatText {e m : Nat} (x : BinaryFloat e m) : List Char :=
  if x.isNaN then signed x.negative "nan".toList
  else if x.isFinite then shown 6 x.negative |x.toRat|
  else signed x.negative "inf".toList

namespace AllTypeVariant

def text : AllTypeVariant → List Char
  | ⟨.int, x⟩ => integer (Int32.toInt x)
  | ⟨.long, x⟩ => integer (Int64.toInt x)
  | ⟨.float, x⟩ => floatText (e := 8) (m := 23) x
  | ⟨.double, x⟩ => floatText (e := 11) (m := 52) x
  | ⟨.string, s⟩ => String.toList s

/-- A `double` counts as its exact value. -/
inductive Holds : AllTypeVariant → ℚ → Prop
  | integral (I : IntegralType) (x : I.columnType.Elem) : Holds ⟨I.columnType, x⟩ (I.toInt x)
  | double (x : BinaryFloat 11 52) : x.isFinite = true → Holds ⟨.double, x⟩ x.toRat

/-- What the text of a number denotes. -/
def denoted (value : AllTypeVariant) (q : ℚ) : ℚ := if value.which = .double then significant 6 q else q

theorem text_integral {I : IntegralType} (x : I.columnType.Elem) :
    text ⟨I.columnType, x⟩ = integer (I.toInt x) := by
  cases I <;> rfl

theorem denoted_integral {I : IntegralType} (x : I.columnType.Elem) (q : ℚ) :
    denoted ⟨I.columnType, x⟩ q = q := by
  cases I <;> rfl

end AllTypeVariant

/-- What boost documents of its conversions. A `double` that was read is next to the number in the text, and
at the very ends of an integral type `numeric_cast` may do either. -/
structure BoostCasts [Build] : Prop where
  lexicalIntegral (I : IntegralType) (value : AllTypeVariant) :
    Build.lexicalCast I.columnType value = (readInteger value.text).bind I.ofInt?
  lexicalDouble (value : AllTypeVariant) (r : ℚ) (low high : BinaryFloat 11 52) :
    readNumber value.text = some r → low.isFinite = true → high.isFinite = true → low.toRat ≤ r →
      r ≤ high.toRat → ∃ d : BinaryFloat 11 52, Build.lexicalCast .double value = some d ∧ Faithful r d
  numericTruncates (I : IntegralType) (d : BinaryFloat 11 52) : d.isFinite = true →
    -2 ^ I.bits < truncate d.toRat → truncate d.toRat < 2 ^ I.bits - 1 →
      Build.numericCast I.columnType d = some (I.ofInt (truncate d.toRat))
  numericOverflow (I : IntegralType) (d : BinaryFloat 11 52) : d.isFinite = true →
    ¬I.InRange (truncate d.toRat) → Build.numericCast I.columnType d = none

section
variable {value : AllTypeVariant} {q : ℚ}

theorem readNumber_floatText {e m : Nat} {x : BinaryFloat e m} (finite : x.isFinite = true) :
    readNumber (floatText x) = some (significant 6 x.toRat) := by
  have sizes := significant_signed 6 x.negative (abs_nonneg x.toRat)
  rw [← toRat_eq] at sizes
  rw [floatText, isNaN_eq_false finite, finite, sizes]
  exact readNumber_shown (by decide) ..

example : floatText (⟨false, 0x4132D68700000000#63⟩ : BinaryFloat 11 52) = "1.23457e+06".toList := by
  decide +kernel

theorem AllTypeVariant.Holds.readNumber (holds : value.Holds q) :
    readNumber value.text = some (value.denoted q) := by
  cases holds with
  | integral I x =>
    rw [text_integral, denoted_integral]
    exact readNumber_of_readInteger (readInteger_integer _)
  | double x finite => exact readNumber_floatText finite

end

section
variable {r : ℚ} {d : BinaryFloat 11 52}

namespace IntegralType
variable {I : IntegralType}

/-- No number of six digits is near the ends of the types. -/
theorem apart (I : IntegralType) (few : FewDigits 6 r) :
    |r| < 2 ^ I.bits - 1 ∨ (2 : ℚ) ^ I.bits + 2 ^ (I.bits - 52) ≤ |r| := by
  cases I with
  | int =>
    refine (few.le_or_ge (m := 214748) (by decide) 3).imp (fun small => small.trans_lt ?_) fun large =>
      le_trans ?_ large
    all_goals norm_num [bits]
  | long =>
    refine (few.le_or_ge (m := 922337) (by decide) 12).imp (fun small => small.trans_lt ?_) fun large =>
      le_trans ?_ large
    all_goals norm_num [bits]

/-- A whole part between the ends. -/
theorem truncate_bounds (inside : |r| < 2 ^ I.bits - 1) :
    -2 ^ I.bits < truncate r ∧ truncate r < 2 ^ I.bits - 1 := by
  have size : |truncate r| < 2 ^ I.bits - 1 := by
    rw [abs_truncate, Int.floor_lt]
    exact_mod_cast inside
  obtain ⟨below, above⟩ := abs_lt.mp size
  omega

theorem not_inRange_of_le (outside : 2 ^ I.bits + 1 ≤ |r|) : ¬I.InRange (truncate r) := by
  have size : 2 ^ I.bits + 1 ≤ |truncate r| := by
    rw [abs_truncate, Int.le_floor]
    exact_mod_cast outside
  intro inside
  obtain ⟨below, above⟩ := inside
  rcases abs_cases (truncate r) with ⟨same, _⟩ | ⟨same, _⟩ <;> omega

/-- Just beyond the ends are values of doubles. -/
theorem exists_double_bits (I : IntegralType) :
    (∃ y : BinaryFloat 11 52, y.isFinite = true ∧ y.toRat = 2 ^ I.bits) ∧
      ∃ y : BinaryFloat 11 52, y.isFinite = true ∧ y.toRat = 2 ^ I.bits + 2 ^ (I.bits - 52) := by
  cases I with
  | int =>
    obtain ⟨y, finite, value⟩ := exists_double_natCast (n := 2 ^ 31) (by decide)
    obtain ⟨z, finite', value'⟩ := exists_double_natCast (n := 2 ^ 31 + 1) (by decide)
    exact ⟨⟨y, finite, by rw [value]; norm_num [bits]⟩, z, finite', by rw [value']; norm_num [bits]⟩
  | long =>
    obtain ⟨y, finite, value⟩ := exists_double (n := 2 ^ 52) (k := 11) (by decide) (by decide) (by decide)
    obtain ⟨z, finite', value'⟩ := exists_double (n := 2 ^ 52 + 1) (k := 11) (by decide)
      (by decide) (by decide)
    exact ⟨⟨y, finite, by rw [value]; norm_num [bits]⟩, z, finite', by rw [value']; norm_num [bits]⟩

theorem not_inRange_of_faithful (faithful : Faithful r d)
    (outside : 2 ^ I.bits ≤ r ∨ r ≤ -(2 ^ I.bits + 2 ^ (I.bits - 52))) : ¬I.InRange (truncate d.toRat) := by
  obtain ⟨⟨y, finite, value⟩, z, finite', value'⟩ := exists_double_bits I
  rcases outside with above | below
  · have large : (2 : ℚ) ^ I.bits ≤ d.toRat := value ▸ faithful.ge y finite (by rw [value]; exact above)
    have whole : 2 ^ I.bits ≤ truncate d.toRat := by
      rw [truncate_of_nonneg (le_trans (by positivity) large), Int.le_floor]
      exact_mod_cast large
    intro inside
    exact absurd inside.2 (not_lt.mpr whole)
  · have small := faithful.le z.neg finite' (by rw [toRat_neg, value']; exact below)
    rw [toRat_neg, value'] at small
    have step : (1 : ℚ) ≤ 2 ^ (I.bits - 52) := one_le_pow₀ (by norm_num)
    exact not_inRange_of_le (le_trans (by linarith) (neg_le_abs d.toRat))

theorem outside_of_not_inRange {J : IntegralType} {x : J.columnType.Elem} (outside : ¬I.InRange (J.toInt x)) :
    2 ^ I.bits ≤ (J.toInt x : ℚ) ∨ (J.toInt x : ℚ) ≤ -(2 ^ I.bits + 2 ^ (I.bits - 52)) := by
  have inside := J.inRange_toInt x
  generalize J.toInt x = z at inside outside ⊢
  cases I with
  | int =>
    rcases not_and_or.mp outside with below | above
    · right
      have step : z ≤ -(2 ^ 31 + 2 ^ 0) := by
        simp only [bits] at below
        omega
      exact_mod_cast step
    · left
      exact_mod_cast not_lt.mp above
  | long =>
    refine absurd ?_ outside
    cases J with
    | int =>
      simp only [InRange, bits] at inside ⊢
      omega
    | long => exact inside

end IntegralType

variable {value : AllTypeVariant} {q : ℚ}

theorem exists_double_ge (holds : value.Holds q) :
    ∃ y : BinaryFloat 11 52, y.isFinite = true ∧ |value.denoted q| ≤ y.toRat := by
  cases holds with
  | integral J x =>
    obtain ⟨y, finite, top⟩ := (IntegralType.exists_double_bits J).1
    obtain ⟨below, above⟩ := J.inRange_toInt x
    refine ⟨y, finite, ?_⟩
    rw [top, AllTypeVariant.denoted_integral]
    exact abs_le.mpr ⟨by exact_mod_cast below, by exact_mod_cast above.le⟩
  | double x finite =>
    obtain ⟨y, finite', top⟩ := exists_double (n := 2 ^ 53 - 1) (k := 971) (by decide) (by decide) (by decide)
    refine ⟨y, finite', ?_⟩
    rw [top]
    exact (abs_significant 6 x.toRat).trans_le (rounded_le_double finite)

namespace BoostCasts
variable [Build] {I : IntegralType}

theorem numericCast_of_outside (casts : BoostCasts) (faithful : Faithful r d)
    (outside : 2 ^ I.bits ≤ r ∨ r ≤ -(2 ^ I.bits + 2 ^ (I.bits - 52))) :
    Build.numericCast I.columnType d = none :=
  casts.numericOverflow I d faithful.finite (IntegralType.not_inRange_of_faithful faithful outside)

theorem numericCast_of_fewDigits (casts : BoostCasts) (few : FewDigits 6 r) (faithful : Faithful r d) :
    Build.numericCast I.columnType d = I.ofInt? (truncate r) := by
  rcases I.apart few with inside | outside
  · have whole : truncate d.toRat = truncate r := by
      refine truncate_toRat few (inside.trans_le ?_) faithful
      cases I <;> norm_num [IntegralType.bits]
    obtain ⟨above, below⟩ := IntegralType.truncate_bounds inside
    rw [casts.numericTruncates I d faithful.finite (whole ▸ above) (whole ▸ below), whole,
      IntegralType.ofInt?, if_pos ⟨above.le, by omega⟩]
  · have step : (1 : ℚ) ≤ 2 ^ (I.bits - 52) := one_le_pow₀ (by norm_num)
    have beyond : ¬I.InRange (truncate r) := IntegralType.not_inRange_of_le (by linarith)
    rw [IntegralType.ofInt?, if_neg beyond]
    refine casts.numericCast_of_outside faithful ?_
    rcases le_abs.mp outside with above | below
    · exact Or.inl (by linarith)
    · exact Or.inr (by linarith)

theorem lexicalCast_double (casts : BoostCasts) (holds : value.Holds q) :
    ∃ d : BinaryFloat 11 52, Build.lexicalCast .double value = some d ∧ Faithful (value.denoted q) d := by
  obtain ⟨y, finite, bound⟩ := exists_double_ge holds
  obtain ⟨below, above⟩ := abs_le.mp bound
  exact casts.lexicalDouble value _ y.neg y holds.readNumber finite finite (by rwa [toRat_neg]) above

/-- The second conversion, after the text was not read as a whole number of the type. -/
theorem numericCast_double (casts : BoostCasts) (holds : value.Holds q) {d : BinaryFloat 11 52}
    (faithful : Faithful (value.denoted q) d) (unread : (readInteger value.text).bind I.ofInt? = none) :
    Build.numericCast I.columnType d = I.ofInt? (truncate (value.denoted q)) := by
  cases holds with
  | integral J x =>
    rw [AllTypeVariant.text_integral, readInteger_integer, Option.bind_some] at unread
    rw [AllTypeVariant.denoted_integral] at faithful ⊢
    rw [truncate_intCast, unread]
    refine casts.numericCast_of_outside faithful (IntegralType.outside_of_not_inRange fun inside => ?_)
    rw [IntegralType.ofInt?, if_pos inside] at unread
    cases unread
  | double x finite => exact casts.numericCast_of_fewDigits (fewDigits_significant 5 x.toRat) faithful

end BoostCasts

/-- An integral type receives the whole part of the number in the text if it is in its range, and else the
conversion fails. -/
theorem typeCast_of_holds [Build] (casts : BoostCasts) (holds : value.Holds q)
    (I : IntegralType) : typeCast I.columnType value =
      if I.InRange (truncate (value.denoted q)) then .ok (I.ofInt (truncate (value.denoted q)))
      else .error .badNumericCast := by
  by_cases same : value.which = I.columnType
  · cases holds with
    | integral J x =>
      obtain rfl : J = I := by cases J <;> cases I <;> first | rfl | cases same
      rw [AllTypeVariant.denoted_integral, truncate_intCast, if_pos (J.inRange_toInt x), J.ofInt_toInt]
      exact dif_pos rfl
    | double x finite => cases I <;> cases same
  · have integral : I.columnType.isIntegral = true := by cases I <;> rfl
    rw [typeCast, dif_neg same, if_pos integral, lexicalCast, casts.lexicalIntegral]
    cases read : (readInteger value.text).bind I.ofInt? with
    | some x =>
      obtain ⟨z, text, fits⟩ := Option.bind_eq_some_iff.mp read
      have number : some (z : ℚ) = some (value.denoted q) :=
        (readNumber_of_readInteger text).symm.trans holds.readNumber
      rw [← Option.some.inj number, truncate_intCast]
      rw [IntegralType.ofInt?] at fits
      split at fits
      · rename_i inside
        rw [if_pos inside, Option.some.inj fits]
      · cases fits
    | none =>
      obtain ⟨d, parsed, faithful⟩ := casts.lexicalCast_double holds
      have doubled : lexicalCast .double value = .ok d := by rw [lexicalCast, parsed]
      show (lexicalCast .double value >>= numericCast I.columnType) = _
      rw [doubled]
      show numericCast I.columnType d = _
      unfold numericCast
      rw [casts.numericCast_double holds faithful read, IntegralType.ofInt?]
      by_cases inside : I.InRange (truncate (value.denoted q))
      · rw [if_pos inside, if_pos inside]
      · rw [if_neg inside, if_neg inside]

namespace IntegralType
variable {I : IntegralType}

/-- The size from which on a number of six digits is out of range: `214748` and `922337` are the first six
digits of the ends, and of the two numbers next to a half the even one counts. -/
def Beyond : IntegralType → ℚ → Prop
  | int, q => 2147485000 < |q|
  | long, q => 9223375 * 10 ^ 12 ≤ |q|

theorem beyond_iff (I : IntegralType) (q : ℚ) : I.Beyond q ↔ 2 ^ I.bits ≤ |significant 6 q| := by
  have few := fewDigits_significant 5 q
  cases I with
  | int =>
    have edge := rounded_le_iff 5 (k := 214748) (by decide) (by decide) 4 (abs_nonneg q)
    rw [← abs_significant] at edge
    show 2147485000 < |q| ↔ 2 ^ 31 ≤ |significant 6 q|
    rcases few.le_or_ge (m := 214748) (by decide) 3 with small | large
    · have bound := edge.mp small
      norm_num at small bound ⊢
      exact iff_of_false (by rcases bound with less | same <;> linarith) (by linarith)
    · have bound := mt edge.mpr
      norm_num at large bound ⊢
      have out := bound (by linarith)
      exact iff_of_true (lt_of_le_of_ne out.1 (Ne.symm out.2)) (by linarith)
  | long =>
    have edge := rounded_le_iff 5 (k := 922337) (by decide) (by decide) 13 (abs_nonneg q)
    rw [← abs_significant] at edge
    show 9223375 * 10 ^ 12 ≤ |q| ↔ 2 ^ 63 ≤ |significant 6 q|
    rcases few.le_or_ge (m := 922337) (by decide) 12 with small | large
    · have bound := edge.mp small
      norm_num at small bound ⊢
      exact iff_of_false (by linarith) (by linarith)
    · have bound := mt edge.mpr
      norm_num at large bound ⊢
      exact iff_of_true (bound (by linarith)) (by linarith)

theorem inRange_iff_not_beyond (I : IntegralType) (q : ℚ) :
    I.InRange (truncate (significant 6 q)) ↔ ¬I.Beyond q := by
  rw [beyond_iff]
  have step : (1 : ℚ) ≤ 2 ^ (I.bits - 52) := one_le_pow₀ (by norm_num)
  have few : FewDigits 6 (significant 6 q) := fewDigits_significant 5 q
  rcases I.apart few with inside | outside
  · obtain ⟨above, below⟩ := truncate_bounds inside
    exact iff_of_true ⟨above.le, by omega⟩ (by linarith)
  · exact iff_of_false (not_inRange_of_le (by linarith)) (not_not.mpr (by linarith))

theorem Beyond.not_inRange {z : Int} (beyond : I.Beyond z) : ¬I.InRange z := by
  have outside : 2 ^ I.bits + 1 ≤ |(z : ℚ)| := by
    cases I with
    | int =>
      have large : 2147485000 < |(z : ℚ)| := beyond
      norm_num [bits]
      linarith
    | long =>
      have large : 9223375 * 10 ^ 12 ≤ |(z : ℚ)| := beyond
      norm_num [bits] at large ⊢
      linarith
  have whole := not_inRange_of_le outside
  rwa [truncate_intCast] at whole

/-- Whether the integer that a variant holds is one for `I`. The ends of `int64_t` do not count for a
`double`, which cannot tell them from their neighbours. -/
def Admits (I : IntegralType) (value : AllTypeVariant) (z : Int) : Prop :=
  I.InRange z ∧ (value.which = .double → I = long → -2 ^ 63 < z ∧ z < 2 ^ 63 - 1)

end IntegralType

/-- A cast to `I`, and with it an append to a column of that type, neither changes the integer `z` of the
variant nor takes it when it is out of range. -/
structure KeepsInteger [Build] (I : IntegralType) (value : AllTypeVariant) (z : Int) : Prop where
  returned : I.Admits value z → typeCast I.columnType value = .ok (I.ofInt z)
  refused : ¬I.InRange z → ∃ fault, typeCast I.columnType value = .error fault
  unchanged : ∀ x, typeCast I.columnType value = .ok x → I.toInt x = z
  appended : I.Admits value z → ∀ c,
    ValueColumn.append I.columnType c value = .returned ⟨c.values ++ [I.ofInt z]⟩
  stored : ∀ c c', ValueColumn.append I.columnType c value = .returned c' →
    ∃ x, c'.values = c.values ++ [x] ∧ I.toInt x = z

namespace KeepsInteger
variable [Build] {I : IntegralType} {z : Int}

theorem of_ok (inside : I.InRange z) (cast : typeCast I.columnType value = .ok (I.ofInt z)) :
    KeepsInteger I value z where
  returned _ := cast
  refused outside := absurd inside outside
  unchanged x same := by
    rw [cast] at same
    rw [← Except.ok.inj same, I.toInt_ofInt inside]
  appended _ c := by rw [ValueColumn.append, cast]; rfl
  stored c c' same := by
    rw [ValueColumn.append, cast] at same
    cases same
    exact ⟨_, rfl, I.toInt_ofInt inside⟩

theorem of_error {fault : Fault} (outside : ¬I.InRange z)
    (cast : typeCast I.columnType value = .error fault) :
    KeepsInteger I value z where
  returned admits := absurd admits.1 outside
  refused _ := ⟨fault, cast⟩
  unchanged x same := by
    rw [cast] at same
    cases same
  appended admits := absurd admits.1 outside
  stored c c' same := by
    rw [ValueColumn.append, cast] at same
    cases same

end KeepsInteger

/-- The whole part of a finite number, if it is in range. -/
def IntegralType.ofDouble (I : IntegralType) (d : BinaryFloat 11 52) : Option I.columnType.Elem :=
  if d.isFinite then I.ofInt? (truncate d.toRat) else none

/-- A float next to `r`, if there is one. -/
noncomputable def readFloat (e m : Nat) (r : ℚ) : Option (BinaryFloat e m) :=
  open Classical in if found : ∃ x : BinaryFloat e m, Faithful r x then some found.choose else none

/-- A release build with conversions as they are documented. -/
@[reducible] noncomputable def documentedBuild : Build where
  isDebug := false
  lexicalCast
    | .int, value => (readInteger value.text).bind (IntegralType.ofInt? .int)
    | .long, value => (readInteger value.text).bind (IntegralType.ofInt? .long)
    | .float, value => (readNumber value.text).bind (readFloat 8 23)
    | .double, value => (readNumber value.text).bind (readFloat 11 52)
    | .string, value => some (String.ofList value.text)
  numericCast
    | .int, d => IntegralType.ofDouble .int d
    | .long, d => IntegralType.ofDouble .long d
    | _, _ => none

theorem numericCast_documented (I : IntegralType) (finite : d.isFinite = true) :
    @Build.numericCast documentedBuild I.columnType d = I.ofInt? (truncate d.toRat) := by
  cases I <;> exact if_pos finite

theorem documentedBuild_casts : @BoostCasts documentedBuild :=
  letI := documentedBuild
  { lexicalIntegral := by
      intro I value
      cases I <;> rfl
    lexicalDouble := by
      intro value r low high read finite _ below _
      have found : ∃ d : BinaryFloat 11 52, Faithful r d := exists_faithful finite below
      refine ⟨found.choose, ?_, found.choose_spec⟩
      show (readNumber value.text).bind (readFloat 11 52) = some found.choose
      rw [read, Option.bind_some, readFloat, dif_pos found]
    numericTruncates := by
      intro I d finite above below
      have inside : I.InRange (truncate d.toRat) := ⟨above.le, by omega⟩
      rw [numericCast_documented I finite, IntegralType.ofInt?, if_pos inside]
    numericOverflow := by
      intro I d finite outside
      rw [numericCast_documented I finite, IntegralType.ofInt?, if_neg outside] }

/-- The numbers that survive: all that are no doubles, and of the doubles those of six digits, and those that
are so far out of range that their first six digits are, too. -/
theorem keepsInteger_iff [Build] (casts : BoostCasts) (I : IntegralType) {z : Int} (holds : value.Holds z) :
    KeepsInteger I value z ↔ value.which ≠ .double ∨ FewDigits 6 z ∨ I.Beyond z := by
  have cast := typeCast_of_holds casts holds I
  constructor
  · intro keeps
    by_contra none
    obtain ⟨double, many, near⟩ : value.which = .double ∧ ¬FewDigits 6 z ∧ ¬I.Beyond z := by
      simpa only [not_or, not_not] using none
    rw [AllTypeVariant.denoted, if_pos double] at cast
    have inside := (I.inRange_iff_not_beyond z).mpr near
    rw [if_pos inside] at cast
    have same := keeps.unchanged _ cast
    rw [I.toInt_ofInt inside] at same
    exact many (fewDigits_of_truncate same)
  · intro condition
    have kept : value.denoted z = z ∨ value.which = .double ∧ I.Beyond z := by
      unfold AllTypeVariant.denoted
      split
      · rename_i double
        rcases condition with other | few | beyond
        · exact absurd double other
        · exact Or.inl (significant_of_fewDigits few)
        · exact Or.inr ⟨double, beyond⟩
      · exact Or.inl rfl
    rcases kept with same | ⟨double, beyond⟩
    · rw [same, truncate_intCast] at cast
      by_cases inside : I.InRange z
      · exact .of_ok inside (by rw [cast, if_pos inside])
      · exact .of_error inside (by rw [cast, if_neg inside])
    · have outside : ¬I.InRange (truncate (significant 6 z)) :=
        fun inside => (I.inRange_iff_not_beyond z).mp inside beyond
      rw [AllTypeVariant.denoted, if_pos double, if_neg outside] at cast
      exact .of_error beyond.not_inRange cast

theorem keepsInteger_iff_five :
    letI := documentedBuild
    KeepsInteger .int ⟨.long, (5 : Int64)⟩ 5 :=
  (@keepsInteger_iff _ documentedBuild documentedBuild_casts .int 5 (.integral .long (5 : Int64))).mpr
    (.inl (by decide))

/-- The text of `1234567.0` is `1.23457e+06`. -/
theorem typeCast_changes_integer :
    letI := documentedBuild
    ∃ x : BinaryFloat 11 52, x.isFinite = true ∧ x.toRat = 1234567 ∧
      typeCast .int ⟨.double, x⟩ = .ok (Int32.ofInt 1234570) ∧ ¬KeepsInteger .int ⟨.double, x⟩ 1234567 := by
  let _ := documentedBuild
  obtain ⟨x, finite, number⟩ : ∃ x : BinaryFloat 11 52, x.isFinite = true ∧ x.toRat = 1234567 :=
    ⟨⟨false, 0x4132D68700000000#63⟩, by decide, by decide +kernel⟩
  have cast := typeCast_of_holds documentedBuild_casts (.double x finite) .int
  have whole : truncate (significant 6 1234567) = 1234570 := by decide +kernel
  rw [AllTypeVariant.denoted, if_pos rfl, number, whole, if_pos (by decide)] at cast
  exact ⟨x, finite, number, cast, fun keeps => absurd (keeps.unchanged _ cast) (by decide)⟩

end

end Opossum
