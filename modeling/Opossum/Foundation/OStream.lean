import Opossum.Foundation.Getline
import Opossum.Foundation.Outcome

/-!
# Writing to a stream

`operator<<` on an output stream with its default settings. A text that is shorter than the field width
gets blanks in front of it, and every formatted output sets the width back to `0`.
-/

universe u

structure OStream where
  written : List Char
  width : Nat
  deriving DecidableEq

namespace OStream

/-- `std::setw` -/
def setw (width : Nat) (out : OStream) : OStream := { out with width := width }

/-- `operator<<` of a text -/
def put (text : List Char) (out : OStream) : OStream := ⟨out.written ++ text.leftpad out.width ' ', 0⟩

/-- `std::endl`, which is not formatted -/
def endl (out : OStream) : OStream := { out with written := out.written ++ ['\n'] }

@[simp] theorem leftpad_zero (text : List Char) : text.leftpad 0 ' ' = text := by
  simp [List.leftpad]

@[simp] theorem put_mk (text written : List Char) (width : Nat) :
    put text ⟨written, width⟩ = ⟨written ++ text.leftpad width ' ', 0⟩ := rfl

@[simp] theorem setw_mk (width width' : Nat) (written : List Char) :
    setw width ⟨written, width'⟩ = ⟨written, width⟩ := rfl

@[simp] theorem endl_mk (written : List Char) (width : Nat) :
    endl ⟨written, width⟩ = ⟨written ++ ['\n'], width⟩ := rfl

variable {ε : Type u} {call : OStream → Outcome ε OStream}

/-- The call returns and has written the text, to any stream without a field width. -/
def Writes (call : OStream → Outcome ε OStream) (text : List Char) : Prop :=
  ∀ written, call ⟨written, 0⟩ = .returned ⟨written ++ text, 0⟩

theorem Writes.andThen {next : OStream → Outcome ε OStream} {text text' : List Char}
    (first : Writes call text) (second : Writes next text') : Writes (fun out => (call out).andThen next)
    (text ++ text') := by
  intro written
  show (call ⟨written, 0⟩).andThen next = _
  rw [first, Outcome.returned_andThen, second, List.append_assoc]

/-- A loop writes what its rounds write. -/
theorem Writes.loop {ι : Type*} {call : ι → OStream → Outcome ε OStream} {is : List ι} (text : ι → List Char)
    (rounds : ∀ i ∈ is, Writes (call i) (text i)) : Writes (Outcome.loop call is) (is.flatMap text) := by
  induction is with
  | nil => intro written; simp
  | cons i is ih =>
    intro written
    rw [Outcome.loop_cons, rounds i (List.mem_cons_self ..), Outcome.returned_andThen,
      ih fun j member => rounds j (List.mem_cons_of_mem _ member), List.flatMap_cons, List.append_assoc]

theorem exists_writes_loop {ι : Type*} {call : ι → OStream → Outcome ε OStream} {is : List ι}
    (rounds : ∀ i ∈ is, ∃ text, Writes (call i) text) : ∃ text, Writes (Outcome.loop call is) text := by
  choose! text writes using rounds
  exact ⟨is.flatMap text, Writes.loop text writes⟩

/-- A loop over the indices of a list writes what its rounds write. -/
theorem Writes.loop_range {ι : Type*} {call : Nat → OStream → Outcome ε OStream} {is : List ι}
    (text : ι → List Char) (rounds : ∀ (k : Nat) i, is[k]? = some i → Writes (call k) (text i)) :
    Writes (Outcome.loop call (List.range is.length)) (is.flatMap text) := by
  induction is generalizing call with
  | nil => intro written; simp
  | cons i is ih =>
    have later : Writes (Outcome.loop (fun k => call (k + 1)) (List.range is.length)) (is.flatMap text) :=
      ih fun k j found => rounds (k + 1) j found
    have indices : List.range (i :: is).length = 0 :: (List.range is.length).map (· + 1) := by
      rw [List.length_cons, List.range_succ_eq_map]
    intro written
    rw [indices, Outcome.loop_cons, rounds 0 i rfl, Outcome.returned_andThen, Outcome.loop_map, later,
      List.flatMap_cons, List.append_assoc]

end OStream
