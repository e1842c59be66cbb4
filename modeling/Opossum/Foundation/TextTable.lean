import Mathlib.Algebra.Ring.Nat
import Opossum.Foundation.Getline

/-!
# Tables of text

Lines of fields between bars, each field padded on the left to the width of its column. The lines of a table
are as long as each other, and reading them bar by bar gives the fields back.
-/

namespace TextTable
variable {bar pad : Char} {widths : List Nat} {texts : List (List Char)}

/-- The fields, with a bar before the first one and after each. -/
def barred (bar : Char) (fields : List (List Char)) : List Char := bar :: fields.flatMap (· ++ [bar])

/-- The texts, each in a field of the width of its column. -/
def line (bar pad : Char) (widths : List Nat) (texts : List (List Char)) : String :=
  String.ofList (barred bar (List.zipWith (fun width text => text.leftpad width pad) widths texts))

/-- A field without its padding. -/
def unpadded (pad : Char) (field : List Char) : List Char := field.dropWhile (· == pad)

theorem barred_eq_text (bar : Char) (fields : List (List Char)) :
    barred bar fields = IStream.text bar ("" :: fields.map String.ofList) true := by
  rw [barred, IStream.text_true, List.flatMap_cons, List.flatMap_map]
  simp

/-- The bars after the fields are the bars before the fields and one more. -/
theorem barred_eq_append (bar : Char) (fields : List (List Char)) :
    barred bar fields = fields.flatMap (bar :: ·) ++ [bar] := by
  rw [barred]
  induction fields with
  | nil => rfl
  | cons field fields ih =>
    rw [List.flatMap_cons, List.flatMap_cons, List.append_assoc, List.append_assoc, ← ih]
    rfl

/-- The loop over the bars of a line reads nothing before the first one, and then the fields. -/
theorem getlines_barred {fields : List (List Char)} (free : ∀ field ∈ fields, bar ∉ field) (str : String) :
    IStream.getlines bar (.ofString (String.ofList (barred bar fields))) str =
      "" :: fields.map String.ofList := by
  rw [IStream.ofString, String.toList_ofList, barred_eq_text]
  refine IStream.getlines_text str (fun next member => ?_) (Or.inl rfl)
  rcases List.mem_cons.mp member with rfl | member
  · simp
  · obtain ⟨field, inFields, rfl⟩ := List.mem_map.mp member
    rw [String.toList_ofList]
    exact free field inFields

theorem unpadded_leftpad {width : Nat} {text : List Char} (flush : text.head? ≠ some pad) :
    unpadded pad (text.leftpad width pad) = text := by
  have blanks : ∀ c ∈ List.replicate (width - text.length) pad, (c == pad) = true := by
    intro c member
    exact beq_iff_eq.mpr (List.eq_of_mem_replicate member)
  rw [unpadded, List.leftpad, List.dropWhile_append_of_pos blanks]
  cases text with
  | nil => rfl
  | cons c text =>
    have other : ¬(c == pad) = true := fun same => flush (by simpa using same)
    exact List.dropWhile_cons_of_neg (p := (· == pad)) other

theorem not_mem_leftpad {c : Char} {width : Nat} {text : List Char} (free : c ∉ text) (other : c ≠ pad) :
    c ∉ text.leftpad width pad := by
  intro member
  rcases List.mem_append.mp member with padding | inText
  · exact other (List.eq_of_mem_replicate padding)
  · exact free inText

/-- A line that is cut at its bars has the texts in its fields. -/
theorem getlines_line (length : texts.length = widths.length) (free : ∀ text ∈ texts, bar ∉ text)
    (flush : ∀ text ∈ texts, text.head? ≠ some pad) (other : bar ≠ pad) (str : String) :
    ((IStream.getlines bar (.ofString (line bar pad widths texts)) str).drop 1).map
      (fun field => unpadded pad field.toList) = texts := by
  have fields (k : Nat) (field : List Char)
      (atK : (List.zipWith (fun width text => text.leftpad width pad) widths texts)[k]? = some field) :
      ∃ width text, texts[k]? = some text ∧ field = text.leftpad width pad := by
    obtain ⟨width, text, _, atText, rfl⟩ := List.getElem?_zipWith_eq_some.mp atK
    exact ⟨width, text, atText, rfl⟩
  have without : ∀ field ∈ List.zipWith (fun width text => text.leftpad width pad) widths texts,
      bar ∉ field := by
    intro field member
    obtain ⟨k, atK⟩ := List.mem_iff_getElem?.mp member
    obtain ⟨width, text, atText, rfl⟩ := fields k field atK
    exact not_mem_leftpad (free text (List.mem_of_getElem? atText)) other
  rw [line, getlines_barred without, List.drop_one, List.tail_cons, List.map_map]
  refine List.ext_getElem? fun k => ?_
  rw [List.getElem?_map]
  cases atK : (List.zipWith (fun width text => text.leftpad width pad) widths texts)[k]? with
  | none =>
    have beyond := List.getElem?_eq_none_iff.mp atK
    rw [List.length_zipWith] at beyond
    exact (List.getElem?_eq_none_iff.mpr (by omega)).symm
  | some field =>
    obtain ⟨width, text, atText, rfl⟩ := fields k field atK
    rw [atText, Option.map_some, Function.comp_apply, String.toList_ofList,
      unpadded_leftpad (flush text (List.mem_of_getElem? atText))]

theorem mem_line {c : Char} (member : c ∈ (line bar pad widths texts).toList) :
    c = bar ∨ c = pad ∨ ∃ text ∈ texts, c ∈ text := by
  rw [line, String.toList_ofList, barred, List.mem_cons, List.mem_flatMap] at member
  rcases member with first | ⟨field, inFields, inField⟩
  · exact Or.inl first
  rcases List.mem_append.mp inField with inField | after
  · obtain ⟨k, atK⟩ := List.mem_iff_getElem?.mp inFields
    obtain ⟨width, text, _, atText, rfl⟩ := List.getElem?_zipWith_eq_some.mp atK
    rcases List.mem_append.mp inField with padding | inText
    · exact Or.inr (Or.inl (List.eq_of_mem_replicate padding))
    · exact Or.inr (Or.inr ⟨text, List.mem_of_getElem? atText, inText⟩)
  · exact Or.inl (List.mem_singleton.mp after)

end TextTable
