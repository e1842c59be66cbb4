import Mathlib.Data.List.Induction
import Opossum.Foundation.Run

/-!
# Objects that are called in any order

A program makes objects and calls them through pointers. However the calls on them are interleaved, each
object is where its own calls lead.
-/

universe u v w

/-- The calls of a program whose objects are numbered in the order in which they are made. -/
inductive ObjectCall (ν : Type w) (κ : Type v)
  | make (argument : ν)
  | on (i : Nat) (call : κ)

namespace Objects
variable {σ : Type u} {κ : Type v} {ν : Type w}

/-- What one call of the program does, given how an object starts and what one call on it does. -/
inductive Next (start : ν → σ → Prop) (next : σ → κ → σ → Prop) : List σ → ObjectCall ν κ → List σ → Prop
  | make {objects argument made} : start argument made →
      Next start next objects (.make argument) (objects ++ [made])
  | on {objects i s call t} : objects[i]? = some s → next s call t →
      Next start next objects (.on i call) (objects.set i t)

def arguments (calls : List (ObjectCall ν κ)) : List ν :=
  calls.filterMap fun
    | .make argument => some argument
    | .on _ _ => none

/-- The calls on one of the objects. -/
def callsOn (i : Nat) (calls : List (ObjectCall ν κ)) : List κ :=
  calls.filterMap fun
    | .make _ => none
    | .on j call => if j = i then some call else none

/-- Every call is on an object that has been made before it. -/
def Valid (calls : List (ObjectCall ν κ)) : Prop :=
  ∀ pre i call, pre ++ [.on i call] <+: calls → i < (arguments pre).length

variable {calls : List (ObjectCall ν κ)} {argument : ν} {i j : Nat} {call : κ}

theorem arguments_make : arguments (calls ++ [.make argument]) = arguments calls ++ [argument] := by
  simp [arguments]

theorem arguments_on : arguments (calls ++ [.on i call]) = arguments calls := by
  simp [arguments]

theorem callsOn_make : callsOn i (calls ++ [.make argument]) = callsOn i calls := by
  simp [callsOn]

theorem callsOn_self : callsOn i (calls ++ [.on i call]) = callsOn i calls ++ [call] := by
  simp [callsOn]

theorem callsOn_other (other : j ≠ i) : callsOn i (calls ++ [.on j call]) = callsOn i calls := by
  simp [callsOn, other]

theorem valid_nil : Valid ([] : List (ObjectCall ν κ)) := by
  intro pre i call isPrefix
  simp at isPrefix

theorem valid_make : Valid (calls ++ [.make argument]) ↔ Valid calls := by
  constructor
  · intro valid pre i call isPrefix
    exact valid pre i call (isPrefix.trans (List.prefix_append ..))
  · intro valid pre i call isPrefix
    rcases List.prefix_concat_iff.mp isPrefix with same | isPrefix
    · simp at same
    · exact valid pre i call isPrefix

theorem valid_on : Valid (calls ++ [.on i call]) ↔ Valid calls ∧ i < (arguments calls).length := by
  constructor
  · intro valid
    exact ⟨fun pre j call' isPrefix => valid pre j call' (isPrefix.trans (List.prefix_append ..)),
      valid calls i call (List.prefix_refl _)⟩
  · rintro ⟨valid, inside⟩ pre j call' isPrefix
    rcases List.prefix_concat_iff.mp isPrefix with same | isPrefix
    · obtain ⟨rfl, last⟩ := List.append_inj' same rfl
      cases last
      exact inside
    · exact valid pre j call' isPrefix

/-- Where the calls on each object lead. -/
def Separate (start : ν → σ → Prop) (next : σ → κ → σ → Prop) (calls : List (ObjectCall ν κ))
    (objects : List σ) : Prop :=
  objects.length = (arguments calls).length ∧ ∀ i argument t, (arguments calls)[i]? = some argument →
    objects[i]? = some t → ∃ made, start argument made ∧ Run next made (callsOn i calls) t

variable {start : ν → σ → Prop} {next : σ → κ → σ → Prop} {objects left : List σ}

theorem next_make_iff : Next start next objects (.make argument) left ↔
    ∃ made, start argument made ∧ left = objects ++ [made] := by
  constructor
  · intro step
    cases step with
    | make starts => exact ⟨_, starts, rfl⟩
  · rintro ⟨made, starts, rfl⟩
    exact .make starts

theorem next_on_iff : Next start next objects (.on i call) left ↔
    ∃ s t, objects[i]? = some s ∧ next s call t ∧ left = objects.set i t := by
  constructor
  · intro step
    cases step with
    | on atI step => exact ⟨_, _, atI, step, rfl⟩
  · rintro ⟨s, t, atI, step, rfl⟩
    exact .on atI step

/-- A call on an object that is not made yet is no call of a run. -/
theorem callsOn_eq_nil (valid : Valid calls) (later : (arguments calls).length ≤ i) :
    callsOn i calls = [] := by
  induction calls using List.reverseRecOn with
  | nil => rfl
  | append_singleton calls call ih =>
    cases call with
    | make argument =>
      rw [arguments_make, List.length_append] at later
      rw [callsOn_make]
      exact ih (valid_make.mp valid) (by omega)
    | on j call =>
      obtain ⟨before, inside⟩ := valid_on.mp valid
      rw [arguments_on] at later
      rw [callsOn_other (by omega)]
      exact ih before later

/-- What is found at one index of two lists of the same length, each with a last element. -/
theorem getElem?_last_cases {α : Type*} {β : Type*} {as : List α} {bs : List β} {a x : α} {b y : β}
    (length : bs.length = as.length) (atX : (as ++ [a])[i]? = some x) (atY : (bs ++ [b])[i]? = some y) :
    as[i]? = some x ∧ bs[i]? = some y ∨ i = as.length ∧ x = a ∧ y = b := by
  rw [List.getElem?_append] at atX atY
  by_cases inside : i < as.length
  · rw [if_pos inside] at atX
    rw [if_pos (length ▸ inside)] at atY
    exact Or.inl ⟨atX, atY⟩
  · rw [if_neg inside, List.getElem?_singleton, Option.ite_none_right_eq_some] at atX
    rw [length, if_neg inside, List.getElem?_singleton, Option.ite_none_right_eq_some] at atY
    exact Or.inr ⟨by omega, (Option.some.inj atX.2).symm, (Option.some.inj atY.2).symm⟩

theorem separate_of_run (run : Run (Next start next) [] calls objects) :
    Valid calls ∧ Separate start next calls objects := by
  induction calls using List.reverseRecOn generalizing objects with
  | nil =>
    obtain rfl := Run.nil_iff.mp run
    exact ⟨valid_nil, rfl, by simp⟩
  | append_singleton calls call ih =>
    obtain ⟨before, front, step⟩ := Run.snoc_iff.mp run
    obtain ⟨valid, length, each⟩ := ih front
    cases step with
    | make starts =>
      refine ⟨valid_make.mpr valid, by simp [arguments_make, length], fun i argument t atArgument atT => ?_⟩
      rw [arguments_make] at atArgument
      rw [callsOn_make]
      rcases getElem?_last_cases length atArgument atT with ⟨atArgument, atT⟩ | ⟨rfl, rfl, rfl⟩
      · exact each i argument t atArgument atT
      · exact ⟨_, starts, by rw [callsOn_eq_nil valid (Nat.le_refl _)]; exact .start⟩
    | @on i s call t atS step =>
      obtain ⟨inside, _⟩ := List.getElem?_eq_some_iff.mp atS
      refine ⟨valid_on.mpr ⟨valid, length ▸ inside⟩, by rw [List.length_set, arguments_on, length],
        fun j argument u atArgument atU => ?_⟩
      rw [arguments_on] at atArgument
      by_cases same : i = j
      · subst same
        obtain ⟨made, starts, own⟩ := each i argument s atArgument atS
        rw [List.getElem?_set_self inside] at atU
        cases atU
        rw [callsOn_self]
        exact ⟨made, starts, Run.snoc_iff.mpr ⟨s, own, step⟩⟩
      · rw [List.getElem?_set_ne same] at atU
        rw [callsOn_other same]
        exact each j argument u atArgument atU

theorem run_of_separate (valid : Valid calls) (separate : Separate start next calls objects) :
    Run (Next start next) [] calls objects := by
  induction calls using List.reverseRecOn generalizing objects with
  | nil =>
    obtain rfl := List.length_eq_zero_iff.mp separate.1
    exact .start
  | append_singleton calls call ih =>
    obtain ⟨length, each⟩ := separate
    cases call with
    | make argument =>
      rw [arguments_make] at length each
      obtain rfl | ⟨before, made, rfl⟩ := List.eq_nil_or_concat' objects
      · simp at length
      have sameLength : before.length = (arguments calls).length := by simpa using length
      have front : Separate start next calls before := by
        refine ⟨sameLength, fun i argument' t atArgument atT => ?_⟩
        have own := each i argument' t
        rw [callsOn_make] at own
        exact own (List.getElem?_append_left (List.getElem?_eq_some_iff.mp atArgument).1 ▸ atArgument)
          (List.getElem?_append_left (List.getElem?_eq_some_iff.mp atT).1 ▸ atT)
      obtain ⟨_, starts, none⟩ := each (arguments calls).length argument made (by simp)
        (by simp [← sameLength])
      rw [callsOn_make, callsOn_eq_nil (valid_make.mp valid) (Nat.le_refl _), Run.nil_iff] at none
      subst none
      exact Run.snoc_iff.mpr ⟨before, ih (valid_make.mp valid) front, .make starts⟩
    | on i call =>
      obtain ⟨validBefore, inside⟩ := valid_on.mp valid
      rw [arguments_on] at length each
      have atArgument := List.getElem?_eq_getElem inside
      have atT := List.getElem?_eq_getElem (length ▸ inside)
      obtain ⟨made, starts, own⟩ := each i _ _ atArgument atT
      rw [callsOn_self] at own
      obtain ⟨s, front, step⟩ := Run.snoc_iff.mp own
      have before : Separate start next calls (objects.set i s) := by
        refine ⟨by rw [List.length_set, length], fun j argument u atArgument atU => ?_⟩
        by_cases same : i = j
        · subst same
          rw [List.getElem?_set_self (length ▸ inside)] at atU
          cases atU
          rw [List.getElem?_eq_getElem inside] at atArgument
          cases atArgument
          exact ⟨made, starts, front⟩
        · rw [List.getElem?_set_ne same] at atU
          have own := each j argument u atArgument atU
          rwa [callsOn_other same] at own
      have last : Next start next (objects.set i s) (.on i call) ((objects.set i s).set i objects[i]) :=
        .on (List.getElem?_set_self (length ▸ inside)) step
      rw [List.set_set, List.set_getElem_self] at last
      exact Run.snoc_iff.mpr ⟨_, ih validBefore before, last⟩

/-- A run of the program is a run of each object on its own calls. -/
theorem run_iff : Run (Next start next) [] calls objects ↔ Valid calls ∧ Separate start next calls objects :=
  ⟨separate_of_run, fun both => run_of_separate both.1 both.2⟩

end Objects
