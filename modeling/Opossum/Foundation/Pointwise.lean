import Mathlib.Data.List.Forall2

/-!
# Lists related element by element

Looking up, extending and overwriting lists that `List.Forall₂` relates.
-/

namespace Pointwise
variable {α β γ : Type*} {R : α → β → Prop} {as : List α} {bs : List β}

theorem getElem?_left (related : List.Forall₂ R as bs) {k : Nat} {a : α} (found : as[k]? = some a) :
    ∃ b, bs[k]? = some b ∧ R a b := by
  obtain ⟨inside, rfl⟩ := List.getElem?_eq_some_iff.mp found
  have inBs : k < bs.length := related.length_eq ▸ inside
  exact ⟨bs[k], List.getElem?_eq_getElem inBs, related.get inside inBs⟩

theorem getElem?_right (related : List.Forall₂ R as bs) {k : Nat} {b : β} (found : bs[k]? = some b) :
    ∃ a, as[k]? = some a ∧ R a b := by
  obtain ⟨a, found, same⟩ := getElem?_left related.flip found
  exact ⟨a, found, same⟩

theorem mem_left (related : List.Forall₂ R as bs) {a : α} (member : a ∈ as) : ∃ b ∈ bs, R a b := by
  obtain ⟨k, found⟩ := List.mem_iff_getElem?.mp member
  obtain ⟨b, found, same⟩ := getElem?_left related found
  exact ⟨b, List.mem_of_getElem? found, same⟩

theorem mem_right (related : List.Forall₂ R as bs) {b : β} (member : b ∈ bs) : ∃ a ∈ as, R a b :=
  mem_left related.flip member

theorem of_getElem? (length : as.length = bs.length)
    (each : ∀ (k : Nat) a b, as[k]? = some a → bs[k]? = some b → R a b) : List.Forall₂ R as bs :=
  List.forall₂_iff_get.mpr ⟨length, fun k inAs inBs =>
    each k _ _ (List.getElem?_eq_getElem inAs) (List.getElem?_eq_getElem inBs)⟩

theorem of_range {S : Nat → β → Prop} {n : Nat} (length : bs.length = n)
    (each : ∀ (k : Nat) b, bs[k]? = some b → S k b) : List.Forall₂ S (List.range n) bs := by
  refine of_getElem? (by rw [List.length_range, length]) fun k i b atI atB => ?_
  obtain ⟨_, same⟩ := List.getElem?_eq_some_iff.mp atI
  rw [List.getElem_range] at same
  exact same ▸ each k b atB

theorem exists_forall₂ (each : ∀ a ∈ as, ∃ b, R a b) : ∃ bs, List.Forall₂ R as bs := by
  induction as with
  | nil => exact ⟨[], .nil⟩
  | cons a as ih =>
    obtain ⟨b, same⟩ := each a (List.mem_cons_self ..)
    obtain ⟨bs, rest⟩ := ih fun c member => each c (List.mem_cons_of_mem _ member)
    exact ⟨b :: bs, .cons same rest⟩

theorem imp_mem {S : α → β → Prop} (related : List.Forall₂ R as bs)
    (weaker : ∀ a b, a ∈ as → R a b → S a b) : List.Forall₂ S as bs :=
  of_getElem? related.length_eq fun k a b atA atB => by
    obtain ⟨b', found, same⟩ := getElem?_left related atA
    exact Option.some.inj (found.symm.trans atB) ▸ weaker a b' (List.mem_of_getElem? atA) same

theorem trans_imp {S : β → γ → Prop} {T : α → γ → Prop} {cs : List γ} (first : List.Forall₂ R as bs)
    (second : List.Forall₂ S bs cs) (both : ∀ a b c, R a b → S b c → T a c) : List.Forall₂ T as cs := by
  induction first generalizing cs with
  | nil =>
    cases second
    exact .nil
  | cons same _ ih =>
    obtain _ | ⟨same', rest⟩ := second
    exact .cons (both _ _ _ same same') (ih rest)

theorem filterMap_eq {f : α → Option β} (related : List.Forall₂ (fun a b => f a = some b) as bs) :
    as.filterMap f = bs := by
  induction related with
  | nil => rfl
  | cons same _ ih => rw [List.filterMap_cons_some same, ih]

theorem map_eq_map {f : α → γ} {g : β → γ} (related : List.Forall₂ R as bs)
    (equal : ∀ a b, R a b → f a = g b) : as.map f = bs.map g := by
  induction related with
  | nil => rfl
  | cons same _ ih => rw [List.map_cons, List.map_cons, equal _ _ same, ih]

theorem append_singleton_iff {a : α} : List.Forall₂ R (as ++ [a]) bs ↔
    ∃ front b, bs = front ++ [b] ∧ List.Forall₂ R as front ∧ R a b := by
  induction as generalizing bs with
  | nil =>
    constructor
    · rintro (_ | ⟨same, ⟨⟩⟩)
      exact ⟨[], _, rfl, .nil, same⟩
    · rintro ⟨front, b, rfl, ⟨⟩, same⟩
      exact .cons same .nil
  | cons c as ih =>
    constructor
    · rintro (_ | ⟨first, rest⟩)
      obtain ⟨front, b, rfl, before, same⟩ := ih.mp rest
      exact ⟨_ :: front, b, rfl, .cons first before, same⟩
    · rintro ⟨front, b, split, before, same⟩
      obtain _ | ⟨first, rest⟩ := before
      subst split
      exact .cons first (ih.mpr ⟨_, b, rfl, rest, same⟩)

theorem append_singleton (related : List.Forall₂ R as bs) {a : α} {b : β} (same : R a b) :
    List.Forall₂ R (as ++ [a]) (bs ++ [b]) :=
  append_singleton_iff.mpr ⟨bs, b, rfl, related, same⟩

theorem of_append_singleton_right {b : β} (related : List.Forall₂ R as (bs ++ [b])) :
    ∃ front a, as = front ++ [a] ∧ List.Forall₂ R front bs ∧ R a b := by
  obtain ⟨front, a, split, before, same⟩ := append_singleton_iff.mp related.flip
  exact ⟨front, a, split, before.flip, same⟩

theorem set (related : List.Forall₂ R as bs) (k : Nat) {a : α} {b : β}
    (same : k < as.length → R a b) : List.Forall₂ R (as.set k a) (bs.set k b) := by
  refine of_getElem? (by simp [related.length_eq]) fun n c d atC atD => ?_
  by_cases here : k = n
  · subst here
    obtain ⟨inside, rfl⟩ := List.getElem?_eq_some_iff.mp atC
    obtain ⟨inBs, rfl⟩ := List.getElem?_eq_some_iff.mp atD
    simpa using same (by simpa using inside)
  · rw [List.getElem?_set_ne here] at atC atD
    obtain ⟨d', found, same⟩ := getElem?_left related atC
    rwa [Option.some.inj (atD.symm.trans found)]

end Pointwise
