import Mathlib.Data.List.Basic
import Mathlib.Data.List.Induction
import Mathlib.Logic.Function.Basic

/-!
# Names that are given once

A registry keeps the first entry that is added under a key, until the key is dropped or the registry is
cleared. Its contents are read off the calls alone.
-/

universe u v

inductive RegistryCall (α : Type u) (β : Type v)
  | add (key : α) (value : β)
  | drop (key : α)
  | clear

namespace Registry
variable {α : Type u} {β : Type v}

/-- The call leaves no entry under the key. -/
inductive Removes (key : α) : RegistryCall α β → Prop
  | drop : Removes key (.drop key)
  | clear : Removes key .clear

/-- What was added under the key has been removed again. -/
def Free (calls : List (RegistryCall α β)) (key : α) : Prop :=
  ∀ pre value post, calls = pre ++ .add key value :: post → ∃ call ∈ post, Removes key call

/-- The value was the first to be added under the key since the key was last free of values. -/
def Added (calls : List (RegistryCall α β)) (key : α) (value : β) : Prop :=
  ∃ pre post, calls = pre ++ .add key value :: post ∧ Free pre key ∧ ∀ call ∈ post, ¬Removes key call

variable {calls : List (RegistryCall α β)} {call : RegistryCall α β} {key : α} {value : β}

theorem free_nil : Free ([] : List (RegistryCall α β)) key := by
  intro pre value post split
  simp at split

theorem free_snoc : Free (calls ++ [call]) key ↔
    Removes key call ∨ Free calls key ∧ ∀ value, call ≠ .add key value := by
  constructor
  · intro free
    by_cases removes : Removes key call
    · exact Or.inl removes
    · refine Or.inr ⟨fun pre value post split => ?_, ?_⟩
      · obtain ⟨later, member, removed⟩ := free pre value (post ++ [call]) (by rw [split]; simp)
        rcases List.mem_append.mp member with inPost | last
        · exact ⟨later, inPost, removed⟩
        · exact absurd (List.mem_singleton.mp last ▸ removed) removes
      · rintro value rfl
        obtain ⟨later, member, _⟩ := free calls value [] rfl
        exact absurd member List.not_mem_nil
  · intro either pre value post split
    rcases List.eq_nil_or_concat' post with rfl | ⟨post, last, rfl⟩
    · obtain ⟨_, same⟩ := List.append_inj' split rfl
      cases same
      rcases either with removes | ⟨_, other⟩
      · cases removes
      · exact absurd rfl (other value)
    · rw [← List.cons_append, ← List.append_assoc] at split
      obtain ⟨front, same⟩ := List.append_inj' split rfl
      cases same
      rcases either with removes | ⟨free, _⟩
      · exact ⟨call, by simp, removes⟩
      · obtain ⟨later, member, removed⟩ := free pre value post front
        exact ⟨later, List.mem_append_left _ member, removed⟩

theorem not_added_nil : ¬Added ([] : List (RegistryCall α β)) key value := by
  rintro ⟨pre, post, split, _⟩
  simp at split

theorem added_snoc : Added (calls ++ [call]) key value ↔
    Added calls key value ∧ ¬Removes key call ∨ Free calls key ∧ call = .add key value := by
  constructor
  · rintro ⟨pre, post, split, free, kept⟩
    rcases List.eq_nil_or_concat' post with rfl | ⟨post, last, rfl⟩
    · obtain ⟨rfl, same⟩ := List.append_inj' split rfl
      cases same
      exact Or.inr ⟨free, rfl⟩
    · rw [← List.cons_append, ← List.append_assoc] at split
      obtain ⟨front, same⟩ := List.append_inj' split rfl
      cases same
      exact Or.inl ⟨⟨pre, post, front, free, fun later member => kept later (List.mem_append_left _ member)⟩,
        kept call (by simp)⟩
  · rintro (⟨⟨pre, post, rfl, free, kept⟩, keeps⟩ | ⟨free, rfl⟩)
    · refine ⟨pre, post ++ [call], by simp, free, fun later member => ?_⟩
      rcases List.mem_append.mp member with inPost | last
      · exact kept later inPost
      · rwa [List.mem_singleton.mp last]
    · exact ⟨calls, [], rfl, free, by simp⟩

/-- A key is free exactly when no value is under it. -/
theorem free_iff : Free calls key ↔ ∀ value, ¬Added calls key value := by
  induction calls using List.reverseRecOn with
  | nil => exact iff_of_true free_nil fun _ => not_added_nil
  | append_singleton calls call ih =>
    simp only [free_snoc, added_snoc, ih]
    by_cases removes : Removes key call
    · refine iff_of_true (Or.inl removes) fun value => ?_
      rintro (⟨_, keeps⟩ | ⟨_, rfl⟩)
      · exact keeps removes
      · cases removes
    · simp only [removes, false_or, not_false_iff, and_true, not_or, not_and]
      exact ⟨fun both value => ⟨both.1 value, fun _ => both.2 value⟩,
        fun all => ⟨fun value => (all value).1, fun value => (all value).2 fun value => (all value).1⟩⟩

variable [DecidableEq α]

/-- One call on the registry. An entry is not overwritten. -/
def step (entries : α → Option β) : RegistryCall α β → α → Option β
  | .add key value => if (entries key).isSome then entries else Function.update entries key (some value)
  | .drop key => Function.update entries key none
  | .clear => fun _ => none

/-- The contents after these calls. -/
def entries (calls : List (RegistryCall α β)) : α → Option β :=
  calls.foldl step fun _ => none

theorem entries_snoc : entries (calls ++ [call]) = step (entries calls) call := by
  rw [entries, List.foldl_append]
  rfl

theorem entries_eq_some_iff : entries calls key = some value ↔ Added calls key value := by
  induction calls using List.reverseRecOn generalizing key value with
  | nil => exact iff_of_false (by simp [entries]) not_added_nil
  | append_singleton calls call ih =>
    have free (key : α) : entries calls key = none ↔ Free calls key := by
      rw [free_iff, Option.eq_none_iff_forall_ne_some]
      exact forall_congr' fun value => not_congr ih
    rw [entries_snoc, added_snoc, ← ih, ← free]
    cases call with
    | add other value' =>
      have keeps : ¬Removes key (.add other value') := fun removes => nomatch removes
      rw [step, and_iff_left keeps, RegistryCall.add.injEq]
      by_cases same : other = key
      · subst same
        cases known : entries calls other <;> simp [known, eq_comm]
      · split
        · simp [same]
        · rw [Function.update_of_ne (Ne.symm same)]
          simp [same]
    | drop other =>
      rw [step, or_iff_left fun both => nomatch both.2]
      by_cases same : other = key
      · subst same
        rw [Function.update_self]
        exact iff_of_false nofun fun both => both.2 .drop
      · rw [Function.update_of_ne (Ne.symm same)]
        refine (and_iff_left fun removes => ?_).symm
        cases removes
        exact same rfl
    | clear =>
      refine iff_of_false nofun ?_
      rintro (⟨_, keeps⟩ | ⟨_, other⟩)
      · exact keeps .clear
      · cases other

end Registry
