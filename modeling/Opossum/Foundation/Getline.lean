import Mathlib.Data.List.TakeWhile
import Mathlib.Data.String.Basic

/-!
# Reading lines from a stream

`std::getline` on an input stream, and the loop `while (std::getline(stream, str, delim))`. Text made
of lines is read back line by line, with or without a delimiter after the last one.
-/

/-- An input stream over characters that are all there from the start, with two of its state bits. -/
structure IStream where
  rest : List Char
  eof : Bool
  fail : Bool
  deriving DecidableEq

namespace IStream
variable {delim : Char}

def ofString (text : String) : IStream := ⟨text.toList, false, false⟩

def good (stream : IStream) : Bool := !stream.eof && !stream.fail

/-- `std::getline`. A stream that is not good only fails, and `str` keeps its value. Otherwise `str` is
what stands before the next delimiter, or before the end of the stream; to extract nothing at all, not
even a delimiter, is a failure. -/
def getline (delim : Char) (stream : IStream) (str : String) : IStream × String :=
  if stream.good then
    let line := stream.rest.takeWhile (· != delim)
    match stream.rest.dropWhile (· != delim) with
    | [] => (⟨[], true, line.isEmpty⟩, String.ofList line)
    | _ :: rest => (⟨rest, false, false⟩, String.ofList line)
  else
    (⟨stream.rest, stream.eof, true⟩, str)

/-- What a stream has left for further successful calls of `getline`. -/
def remaining (stream : IStream) : Nat :=
  if stream.good then stream.rest.length + 1 else 0

theorem remaining_getline (stream : IStream) (str : String)
    (success : (getline delim stream str).1.fail = false) :
    (getline delim stream str).1.remaining < stream.remaining := by
  unfold getline at success ⊢
  by_cases isGood : stream.good = true
  · have shorter := (List.dropWhile_suffix (l := stream.rest) (· != delim)).length_le
    simp only [isGood, if_true, remaining]
    split
    · simp [good]
    · rename_i c rest found
      rw [found, List.length_cons] at shorter
      simp only [good, Bool.not_false, Bool.and_self, if_true]
      omega
  · simp [isGood] at success

/-- The values of `str` in the rounds of `while (std::getline(stream, str, delim))`. -/
def getlines (delim : Char) (stream : IStream) (str : String) : List String :=
  if (getline delim stream str).1.fail = false then
    (getline delim stream str).2 :: getlines delim (getline delim stream str).1 (getline delim stream str).2
  else
    []
termination_by stream.remaining
decreasing_by exact remaining_getline stream str (by assumption)

/-- Lines of text, the last one with a delimiter behind it or not. -/
def text (delim : Char) : List String → Bool → List Char
  | [], _ => []
  | [line], final => line.toList ++ if final then [delim] else []
  | line :: lines, final => line.toList ++ delim :: text delim lines final

theorem text_cons (line : String) {lines : List String} {final : Bool}
    (more : lines ≠ [] ∨ final = true) :
    text delim (line :: lines) final = line.toList ++ delim :: text delim lines final := by
  cases lines with
  | nil =>
    rcases more with some | yes
    · exact absurd rfl some
    · simp [text, yes]
  | cons next lines => rfl

theorem text_true (delim : Char) (lines : List String) :
    text delim lines true = lines.flatMap fun line => line.toList ++ [delim] := by
  induction lines with
  | nil => rfl
  | cons line lines ih =>
    rw [text_cons line (Or.inr rfl), ih, List.flatMap_cons, List.append_assoc, List.singleton_append]

theorem bne_of_free {line : List Char} (free : delim ∉ line) : ∀ c ∈ line, (c != delim) = true :=
  fun _ member => bne_iff_ne.mpr fun same => free (same ▸ member)

theorem getline_delimited {line : String} {rest : List Char} (str : String) (free : delim ∉ line.toList) :
    getline delim ⟨line.toList ++ delim :: rest, false, false⟩ str = (⟨rest, false, false⟩, line) := by
  have front : (line.toList ++ delim :: rest).takeWhile (· != delim) = line.toList := by
    rw [List.takeWhile_append_of_pos (bne_of_free free)]
    simp
  have back : (line.toList ++ delim :: rest).dropWhile (· != delim) = delim :: rest := by
    rw [List.dropWhile_append_of_pos (bne_of_free free)]
    simp
  simp [getline, good, front, back]

theorem getline_last {line : String} (str : String) (free : delim ∉ line.toList) :
    getline delim ⟨line.toList, false, false⟩ str = (⟨[], true, line.toList.isEmpty⟩, line) := by
  have whole : line.toList.takeWhile (· != delim) = line.toList :=
    List.takeWhile_eq_self_iff.mpr (bne_of_free free)
  have none : line.toList.dropWhile (· != delim) = [] :=
    List.dropWhile_eq_nil_iff.mpr (bne_of_free free)
  simp [getline, good, whole, none]

/-- At its end a stream only fails, and `str` keeps its value. -/
theorem getline_of_eof (rest : List Char) (fail : Bool) (str : String) :
    getline delim ⟨rest, true, fail⟩ str = (⟨rest, true, true⟩, str) := rfl

/-- A stream that was good only fails when it is at its end. -/
theorem getline_of_fail {rest : List Char} {str : String}
    (failed : (getline delim ⟨rest, false, false⟩ str).1.fail = true) :
    getline delim ⟨rest, false, false⟩ str = (⟨[], true, true⟩, "") := by
  simp only [getline, good, Bool.not_false, Bool.and_self, if_true] at failed ⊢
  cases ended : rest.dropWhile (· != delim) with
  | nil =>
    rw [ended] at failed
    have empty : rest.takeWhile (· != delim) = [] := List.isEmpty_iff.mp failed
    rw [empty]
    rfl
  | cons c rest' =>
    rw [ended] at failed
    cases failed

/-- The stream after a line of text has been read. -/
def after (delim : Char) (line : String) (lines : List String) (final : Bool) : IStream :=
  if lines = [] ∧ final = false then ⟨[], true, line.toList.isEmpty⟩
  else ⟨text delim lines final, false, false⟩

theorem getline_text {line : String} (lines : List String) (final : Bool) (str : String)
    (free : delim ∉ line.toList) :
    getline delim ⟨text delim (line :: lines) final, false, false⟩ str =
      (after delim line lines final, line) := by
  unfold after
  split
  · rename_i last
    obtain ⟨rfl, rfl⟩ := last
    simpa [text] using getline_last str free
  · rename_i more
    have more : lines ≠ [] ∨ final = true := by
      rw [not_and_or, Bool.not_eq_false] at more
      exact more
    rw [text_cons line more, getline_delimited str free]

theorem getlines_nil (eof fail : Bool) (str : String) : getlines delim ⟨[], eof, fail⟩ str = [] := by
  rw [getlines]
  cases eof <;> cases fail <;> simp [getline, good]

/-- What the loop reads after the line `line`. An empty last line without delimiter would be lost. -/
theorem getlines_after {line : String} {lines : List String} {final : Bool} (str : String)
    (free : ∀ next ∈ lines, delim ∉ next.toList)
    (ended : final = true ∨ lines.getLast? ≠ some "") :
    getlines delim (after delim line lines final) str = lines := by
  induction lines generalizing line str with
  | nil =>
    unfold after
    split <;> exact getlines_nil ..
  | cons next lines ih =>
    have read := getline_text lines final str (free next (List.mem_cons_self ..))
    have success : (after delim next lines final).fail = false := by
      unfold after
      split
      · rename_i last
        obtain ⟨rfl, rfl⟩ := last
        simpa using ended
      · rfl
    have rest : getlines delim (after delim next lines final) next = lines := by
      refine ih next (fun l member => free l (List.mem_cons_of_mem _ member)) ?_
      rcases ended with yes | nonempty
      · exact Or.inl yes
      · cases lines with
        | nil => exact Or.inr (by simp)
        | cons => exact Or.inr (by simpa using nonempty)
    have here : after delim line (next :: lines) final = ⟨text delim (next :: lines) final, false, false⟩ :=
      if_neg (by simp)
    rw [here, getlines, read, if_pos success, rest]

/-- The loop reads back the lines that a text is made of. -/
theorem getlines_text {line : String} {lines : List String} {final : Bool} (str : String)
    (free : ∀ next ∈ line :: lines, delim ∉ next.toList)
    (ended : final = true ∨ (line :: lines).getLast? ≠ some "") :
    getlines delim ⟨text delim (line :: lines) final, false, false⟩ str = line :: lines := by
  have same : after delim "" (line :: lines) final = ⟨text delim (line :: lines) final, false, false⟩ :=
    if_neg (by simp)
  rw [← same]
  exact getlines_after str free ended

theorem toList_intercalate (delim : Char) (lines : List String) :
    ((String.singleton delim).intercalate lines).toList = text delim lines false := by
  rw [String.toList_intercalate]
  induction lines with
  | nil => rfl
  | cons line lines ih =>
    cases lines with
    | nil => simp [text]
    | cons next lines => simpa [text] using ih

/-- An empty last line looks like a delimiter after the line before it. -/
theorem text_concat_empty (delim : Char) (lines : List String) :
    text delim (lines ++ [""]) false = text delim lines true := by
  induction lines with
  | nil => rfl
  | cons line lines ih =>
    have more : lines ++ [""] ≠ [] := by simp
    rw [List.cons_append, text_cons line (Or.inl more), text_cons line (Or.inr rfl), ih]

/-- Lines joined by delimiters are read back, all but an empty last one. -/
theorem getlines_intercalate {lines : List String} (free : ∀ line ∈ lines, delim ∉ line.toList)
    (str : String) :
    getlines delim (.ofString ((String.singleton delim).intercalate lines)) str =
      if lines.getLast? = some "" then lines.dropLast else lines := by
  rw [ofString, toList_intercalate]
  split
  · rename_i last
    obtain ⟨front, rfl⟩ := List.getLast?_eq_some_iff.mp last
    rw [text_concat_empty, List.dropLast_concat]
    cases front with
    | nil => exact getlines_nil ..
    | cons line front =>
      exact getlines_text str (fun next member => free next (List.mem_append_left _ member)) (Or.inl rfl)
  · rename_i last
    cases lines with
    | nil => exact getlines_nil ..
    | cons line lines => exact getlines_text str free (Or.inr last)

theorem mem_text {c : Char} {lines : List String} {final : Bool} (member : c ∈ text delim lines final) :
    c = delim ∨ ∃ line ∈ lines, c ∈ line.toList := by
  induction lines with
  | nil => cases member
  | cons line lines ih =>
    by_cases more : lines ≠ [] ∨ final = true
    · rw [text_cons line more, List.mem_append, List.mem_cons] at member
      rcases member with here | separator | later
      · exact Or.inr ⟨line, List.mem_cons_self .., here⟩
      · exact Or.inl separator
      · rcases ih later with separator | ⟨next, inLines, inNext⟩
        · exact Or.inl separator
        · exact Or.inr ⟨next, List.mem_cons_of_mem _ inLines, inNext⟩
    · obtain ⟨rfl, rfl⟩ : lines = [] ∧ final = false := by simpa using more
      exact Or.inr ⟨line, List.mem_cons_self .., by simpa [text] using member⟩

theorem text_eq_nil_iff {lines : List String} :
    text delim lines false = [] ↔ lines = [] ∨ lines = [""] := by
  match lines with
  | [] => simp [text]
  | [line] => simp [text]
  | line :: next :: lines => simp [text]

theorem text_final (delim : Char) (line : String) (lines : List String) :
    text delim (line :: lines) true = text delim (line :: lines) false ++ [delim] := by
  induction lines generalizing line with
  | nil => simp [text]
  | cons next lines ih =>
    have more : next :: lines ≠ [] := by simp
    rw [text_cons line (Or.inl more), text_cons line (Or.inl more), ih next]
    simp

end IStream
