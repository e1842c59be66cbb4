import Opossum.Foundation.Run
import Opossum.Storage.AttributeVector
import Opossum.TypeCast

/-!
# Writing to an attribute vector

The assertion in `set` lets one index too many through. All other indexes are written or refused, so a vector
is a memory that keeps what was written last, as long as nobody writes just behind its end.
-/

namespace Opossum

namespace FittedAttributeVector
variable {w : Nat} {v left : FittedAttributeVector w}

@[simp] theorem size_set_left (i : Nat) (id : ValueID) : (v.set i id).left.size = v.size := by
  unfold set
  split
  · split
    · exact List.length_set
    · rfl
  · rfl

/-- One index behind the end there is no entry, and no assertion. -/
theorem set_size (id : ValueID) : v.set v.size id = .stopped .undefined v := by
  rw [set, if_pos le_rfl, if_neg (Nat.lt_irrefl _)]

theorem set_refused {i : Nat} (outside : v.size < i) (id : ValueID) :
    ∃ fault, fault.Catchable ∧ v.set i id = .stopped fault v := by
  rw [set, if_neg (by omega)]
  exact ⟨_, by simp [Fault.Catchable], rfl⟩

/-- What is left of an id in `w` bits. -/
def stored (w : Nat) (id : ValueID) : ValueID := ⟨(id.toBitVec.setWidth w).setWidth 32⟩

theorem stored_eq (narrow : w ≤ 32) {id : ValueID} (fits : id.toNat ≤ 2 ^ w - 1) : stored w id = id := by
  have positive := Nat.two_pow_pos w
  have wide : 2 ^ w ≤ 2 ^ 32 := Nat.pow_le_pow_right (by decide) narrow
  rw [← UInt32.toNat_inj, stored, UInt32.toNat_ofBitVec, BitVec.toNat_setWidth, BitVec.toNat_setWidth,
    UInt32.toNat_toBitVec, Nat.mod_eq_of_lt (show id.toNat < 2 ^ w by omega), Nat.mod_eq_of_lt (by omega)]

/-- One call of a sequence: an index and the id that is set there. -/
def write (call : Nat × ValueID) (v : FittedAttributeVector w) : Outcome Fault (FittedAttributeVector w) :=
  v.set call.1 call.2

/-- A caller who catches exceptions can go on unless the call was made for the index behind the end. -/
theorem exists_caught_iff {call : Nat × ValueID} :
    (∃ u, Caught Fault.Catchable write v call u) ↔ call.1 ≠ v.size := by
  constructor
  · rintro ⟨u, step⟩ atEnd
    have stop : write call v = .stopped .undefined v := by rw [write, atEnd, set_size]
    rcases step with returned | ⟨fault, catchable, stopped⟩
    · rw [stop] at returned
      cases returned
    · rw [stop] at stopped
      cases stopped
      exact catchable rfl
  · intro other
    rcases Nat.lt_or_gt_of_ne other with inside | outside
    · exact ⟨_, Or.inl (set_eq_returned inside call.2)⟩
    · obtain ⟨fault, catchable, stop⟩ := set_refused outside call.2
      exact ⟨v, Or.inr ⟨fault, catchable, stop⟩⟩

theorem size_run {calls : List (Nat × ValueID)} (run : Run (Caught Fault.Catchable write) v calls left) :
    left.size = v.size := by
  refine run.invariant (fun u => u.size = v.size) (fun u call u' _ before step => ?_) rfl
  rw [← step.left_eq, write, size_set_left, before]

/-- No call of a sequence writes behind the end if none is made for that index. -/
theorem exists_run_iff {calls : List (Nat × ValueID)} :
    (∃ left, Run (Caught Fault.Catchable write) v calls left) ↔ ∀ call ∈ calls, call.1 ≠ v.size := by
  induction calls generalizing v with
  | nil => simp
  | cons call calls ih =>
    rw [List.forall_mem_cons, ← exists_caught_iff]
    constructor
    · rintro ⟨left, run⟩
      obtain ⟨u, step, rest⟩ := Run.cons_iff.mp run
      have same := size_run (.single step)
      exact ⟨⟨u, step⟩, same ▸ ih.mp ⟨left, rest⟩⟩
    · rintro ⟨⟨u, step⟩, others⟩
      have same := size_run (.single step)
      obtain ⟨left, rest⟩ := ih.mpr (same.symm ▸ others)
      exact ⟨left, .call step rest⟩

variable [Build]

/-- Reading after a write, whichever way it ended. -/
theorem get_set {i j : Nat} (id : ValueID) (inside : j < v.size) :
    (v.set i id).left.get j = if j = i then .ok (stored w id) else v.get j := by
  rcases Nat.lt_trichotomy i v.size with here | atEnd | outside
  · have inside' : j < (⟨v.data.set i (id.toBitVec.setWidth w)⟩ : FittedAttributeVector w).size := by
      rwa [size, List.length_set]
    rw [set_eq_returned here, Outcome.left_returned, get_eq_ok inside', get_eq_ok inside]
    simp only [List.get_eq_getElem, List.getElem_set, eq_comm (a := i)]
    split
    · rfl
    · rfl
  · rw [atEnd, set_size, Outcome.left_stopped, if_neg (by omega)]
  · obtain ⟨fault, _, stop⟩ := set_refused outside id
    rw [stop, Outcome.left_stopped, if_neg (by omega)]

/-- The ids a memory holds after a sequence of calls: at every index the one that was written there last. -/
def remember (w : Nat) (memory : Nat → ValueID) (calls : List (Nat × ValueID)) : Nat → ValueID :=
  calls.foldl (fun memory call => Function.update memory call.1 (stored w call.2)) memory

theorem get_run {calls : List (Nat × ValueID)} {memory : Nat → ValueID}
    (run : Run (Caught Fault.Catchable write) v calls left)
    (reads : ∀ j, j < v.size → v.get j = .ok (memory j)) {j : Nat} (inside : j < v.size) :
    left.get j = .ok (remember w memory calls j) := by
  induction run generalizing memory with
  | start => exact reads j inside
  | @call v u left call calls step rest ih =>
    have same := size_run (.single step)
    have written (k : Nat) (inside' : k < u.size) :
        u.get k = .ok (Function.update memory call.1 (stored w call.2) k) := by
      rw [same] at inside'
      rw [← step.left_eq, write, get_set call.2 inside', Function.update_apply]
      split
      · rfl
      · exact reads k inside'
    exact ih written (same.symm ▸ inside)

theorem get_new {size : Nat} {made : FittedAttributeVector w} (created : new w size = .ok made) :
    made.size = size ∧ ∀ j, j < made.size → made.get j = .ok 0 := by
  unfold new at created
  split at created
  · cases created
    refine ⟨List.length_replicate, fun j inside => ?_⟩
    have entry : (List.replicate size (0 : BitVec w)).get ⟨j, inside⟩ = 0 := List.getElem_replicate _
    rw [get_eq_ok inside, entry]
    simp
  · cases created

/-- A new vector is a memory of zeros, and stays one of what is written to it. -/
theorem get_run_new {size : Nat} {made : FittedAttributeVector w} (created : new w size = .ok made)
    {calls : List (Nat × ValueID)} (run : Run (Caught Fault.Catchable write) made calls left)
    {j : Nat} (inside : j < size) : left.get j = .ok (remember w (fun _ => 0) calls j) := by
  obtain ⟨sized, zeros⟩ := get_new created
  exact get_run run zeros (sized.symm ▸ inside)

/-- A write to the inside is stored and touches no other entry; one to the outside is refused. -/
structure SetsLocally (v : FittedAttributeVector w) (i : Nat) (id : ValueID) : Prop where
  written : i < v.size → ∃ left, v.set i id = .returned left ∧ left.get i = .ok id ∧
    ∀ j, j ≠ i → j < v.size → left.get j = v.get j
  refused : v.size ≤ i → ∃ fault, fault.Catchable ∧ v.set i id = .stopped fault v

theorem setsLocally_iff (narrow : w ≤ 32) {i : Nat} {id : ValueID} (fits : id.toNat ≤ 2 ^ w - 1) :
    v.SetsLocally i id ↔ i ≠ v.size := by
  constructor
  · rintro ⟨_, refused⟩ rfl
    obtain ⟨fault, catchable, stop⟩ := refused le_rfl
    rw [set_size] at stop
    cases stop
    exact catchable rfl
  · intro other
    refine ⟨fun inside => ?_, fun outside => set_refused (by omega) id⟩
    have reads (j : Nat) (inside' : j < v.size) := get_set (i := i) id inside'
    rw [set_eq_returned inside, Outcome.left_returned] at reads
    refine ⟨_, set_eq_returned inside id, ?_, fun j differs inside' => ?_⟩
    · rw [reads i inside, if_pos rfl, stored_eq narrow fits]
    · rw [reads j inside', if_neg differs]

/-- A sequence of calls stays inside the allocated data exactly when none is made for the index `size()`,
and in every state that is reached that is the only index at which `set` does not do what it should. -/
theorem set_run_iff {size : Nat} {made : FittedAttributeVector w} (narrow : w ≤ 32)
    (created : new w size = .ok made) (calls : List (Nat × ValueID)) :
    ((∃ left, Run (Caught Fault.Catchable write) made calls left) ↔ ∀ call ∈ calls, call.1 ≠ size) ∧
      ∀ left, Run (Caught Fault.Catchable write) made calls left → left.size = size ∧
        ∀ i id, id.toNat ≤ 2 ^ w - 1 → (left.SetsLocally i id ↔ i ≠ left.size) := by
  have sized := (get_new created).1
  constructor
  · rw [exists_run_iff, sized]
  · intro left run
    refine ⟨(size_run run).trans sized, fun i id fits => ?_⟩
    exact setsLocally_iff narrow fits

omit [Build] in
theorem set_run_iff_byte :
    letI := strictBuild
    let made : FittedAttributeVector 8 := ⟨[0, 0, 0]⟩
    let calls : List (Nat × ValueID) := [(0, 1), (4, 4), (2, 255)]
    ((∃ left, Run (Caught Fault.Catchable write) made calls left) ↔ ∀ call ∈ calls, call.1 ≠ 3) ∧
      ∀ left, Run (Caught Fault.Catchable write) made calls left → left.size = 3 ∧
        ∀ i id, id.toNat ≤ 2 ^ 8 - 1 → (left.SetsLocally i id ↔ i ≠ left.size) := by
  let _ := strictBuild
  have created : new 8 3 = .ok ⟨[0, 0, 0]⟩ := rfl
  exact set_run_iff (by decide) created _

omit [Build] in
/-- The write to index `3` of a vector of three bytes. -/
theorem set_writes_behind_end :
    ¬∀ [Build] (w size : Nat) (made left : FittedAttributeVector w) (calls : List (Nat × ValueID)),
      w ∈ [8, 16, 32] → new w size = .ok made → Run (Caught Fault.Catchable write) made calls left →
        ∀ i id, id.toNat ≤ 2 ^ w - 1 → left.SetsLocally i id := by
  intro all
  let _ := strictBuild
  have sets := all 8 3 ⟨[0, 0, 0]⟩ ⟨[0, 0, 0]⟩ [] (by decide) rfl .start 3 0 (by decide)
  exact (setsLocally_iff (by decide) (by decide)).mp sets rfl

end FittedAttributeVector

end Opossum
