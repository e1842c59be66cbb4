import Opossum.Foundation.Run

/-!
# Programs with and without their checks

The same program, built once with its checks and once without them. Where a check fails, nothing is known of
the program that goes on without it; everywhere else the two do the same.
-/

universe u v w

/-- A call with its checks, and the same one without them. -/
inductive Outcome.Guarded {ε : Type u} {σ : Type v} (failed : ε → Prop) (undefined : ε) :
    Outcome ε σ → Outcome ε σ → Prop
  | returned {s} : Guarded failed undefined (.returned s) (.returned s)
  | stopped {e s} : ¬failed e → Guarded failed undefined (.stopped e s) (.stopped e s)
  | failed {e s t} : failed e → Guarded failed undefined (.stopped e s) (.stopped undefined t)

namespace Except
variable {ε : Type u} {α β : Type v} {failed : ε → Prop} {undefined : ε}

/-- A computation with its checks, and the same one without them. -/
inductive Guarded (failed : ε → Prop) (undefined : ε) : Except ε α → Except ε α → Prop
  | ok {a} : Guarded failed undefined (.ok a) (.ok a)
  | error {e} : ¬failed e → Guarded failed undefined (.error e) (.error e)
  | failed {e} : failed e → Guarded failed undefined (.error e) (.error undefined)

namespace Guarded
variable {x x' : Except ε α}

theorem bind {f f' : α → Except ε β} (first : Guarded failed undefined x x')
    (next : ∀ a, x = .ok a → Guarded failed undefined (f a) (f' a)) :
    Guarded failed undefined (x >>= f) (x' >>= f') := by
  cases first with
  | ok => exact next _ rfl
  | error other => exact .error other
  | failed failure => exact .failed failure

theorem map (f : α → β) (first : Guarded failed undefined x x') :
    Guarded failed undefined (x.map f) (x'.map f) := by
  cases first with
  | ok => exact .ok
  | error other => exact .error other
  | failed failure => exact .failed failure

theorem foldlM {f f' : β → α → Except ε β} {as : List α}
    (round : ∀ a ∈ as, ∀ b, Guarded failed undefined (f b a) (f' b a)) (b : β) :
    Guarded failed undefined (as.foldlM f b) (as.foldlM f' b) := by
  induction as generalizing b with
  | nil => exact .ok
  | cons a as ih =>
    rw [List.foldlM_cons, List.foldlM_cons]
    refine (round a (List.mem_cons_self ..) b).bind fun c _ => ?_
    exact ih (fun a member => round a (List.mem_cons_of_mem _ member)) c

theorem mapM {f f' : α → Except ε β} (each : ∀ a, Guarded failed undefined (f a) (f' a)) (as : List α) :
    Guarded failed undefined (as.mapM f) (as.mapM f') := by
  induction as with
  | nil => exact .ok
  | cons a as ih =>
    rw [List.mapM_cons, List.mapM_cons]
    exact (each a).bind fun b _ => ih.bind fun bs _ => .ok

/-- To go on with what has been computed in the two programs. -/
@[elab_as_elim]
theorem elim {motive : Except ε α → Except ε α → Prop} (computed : Guarded failed undefined x x')
    (ok : ∀ a, x = .ok a → motive (.ok a) (.ok a)) (error : ∀ e, ¬failed e → motive (.error e) (.error e))
    (fail : ∀ e, failed e → motive (.error e) (.error undefined)) : motive x x' := by
  cases computed with
  | ok => exact ok _ rfl
  | error other => exact error _ other
  | failed failure => exact fail _ failure

/-- What does not change without its checks fails none. -/
theorem passes (defined : ¬failed undefined) (same : Guarded failed undefined x x) {e : ε}
    (stop : x = .error e) :
    ¬failed e := by
  subst stop
  cases same with
  | error other => exact other
  | failed failure => exact absurd failure defined

/-- Both give a value, and the same one, or neither does. -/
theorem ok_iff (guarded : Guarded failed undefined x x') {a : α} : x' = .ok a ↔ x = .ok a := by
  cases guarded <;> simp

theorem error_iff (guarded : Guarded failed undefined x x') {e : ε} (defined : e ≠ undefined) :
    x' = .error e ↔ x = .error e ∧ ¬failed e := by
  cases guarded with
  | ok => simp
  | error other =>
    refine (and_iff_left_of_imp fun same => ?_).symm
    cases same
    exact other
  | failed failure =>
    refine iff_of_false (fun same => ?_) fun both => ?_
    · cases same
      exact defined rfl
    · cases both.1
      exact both.2 failure

end Guarded

end Except

namespace Outcome
variable {ε : Type u} {σ : Type v} {τ : Type w} {ι : Type*} {failed : ε → Prop} {undefined : ε}

/-- None of the checks of the call has failed. -/
def Passes (failed : ε → Prop) (o : Outcome ε σ) : Prop := ∀ e s, o = .stopped e s → ¬failed e

namespace Guarded
variable {o o' : Outcome ε σ}

theorem refl (unchecked : o.Passes failed) : Guarded failed undefined o o := by
  cases o with
  | returned s => exact .returned
  | stopped e s => exact .stopped (unchecked e s rfl)

theorem andThen {f f' : σ → Outcome ε σ} (first : Guarded failed undefined o o')
    (next : ∀ s, o = .returned s → Guarded failed undefined (f s) (f' s)) :
    Guarded failed undefined (o.andThen f) (o'.andThen f') := by
  cases first with
  | returned => exact next _ rfl
  | stopped other => exact .stopped other
  | failed failure => exact .failed failure

theorem within (f : σ → τ) (part : Guarded failed undefined o o') :
    Guarded failed undefined (o.within f) (o'.within f) := by
  cases part with
  | returned => exact .returned
  | stopped other => exact .stopped other
  | failed failure => exact .failed failure

theorem ofExcept (s : σ) {x x' : Except ε σ} (computed : Except.Guarded failed undefined x x') :
    Guarded failed undefined (.ofExcept s x) (.ofExcept s x') := by
  cases computed with
  | ok => exact .returned
  | error other => exact .stopped other
  | failed failure => exact .failed failure

theorem toExcept (guarded : Guarded failed undefined o o') :
    Except.Guarded failed undefined o.toExcept o'.toExcept := by
  cases guarded with
  | returned => exact .ok
  | stopped other => exact .error other
  | failed failure => exact .failed failure

theorem loop {call call' : ι → σ → Outcome ε σ}
    (round : ∀ i s, Guarded failed undefined (call i s) (call' i s)) (is : List ι)
    (s : σ) : Guarded failed undefined (Outcome.loop call is s) (Outcome.loop call' is s) := by
  induction is generalizing s with
  | nil => exact .returned
  | cons i is ih => exact (round i s).andThen fun t _ => ih t

theorem each {α : Type*} {call call' : ι → α → Outcome ε α}
    (one : ∀ i a, Guarded failed undefined (call i a) (call' i a)) (is : List ι) (as : List α) :
    Guarded failed undefined (Outcome.each call is as) (Outcome.each call' is as) := by
  induction is generalizing as with
  | nil => exact .returned
  | cons i is ih =>
    cases as with
    | nil => exact .returned
    | cons a as =>
      have first := one i a
      unfold Outcome.each
      generalize call i a = o, call' i a = o' at first
      cases first with
      | returned => exact (ih as).within _
      | stopped other => exact .stopped other
      | failed failure => exact .failed failure

theorem forEach {α : Type*} {call call' : α → Outcome ε α}
    (one : ∀ a, Guarded failed undefined (call a) (call' a)) (as : List α) :
    Guarded failed undefined (Outcome.forEach call as) (Outcome.forEach call' as) :=
  each (fun _ => one) as as

/-- Without checks that can fail, there is no difference. -/
theorem eq_of_never (never : ∀ e, ¬failed e) (guarded : Guarded failed undefined o o') : o = o' := by
  cases guarded with
  | returned => rfl
  | stopped => rfl
  | failed failure => exact absurd failure (never _)

/-- What returns or throws without its checks does the same with them, and none of them fails. -/
theorem answered_iff {κ : Type*} {catchable : ε → Prop} {checked unchecked : κ → σ → Outcome ε σ} {s t : σ}
    {c : κ × Option ε} (never : ¬catchable undefined)
    (guarded : Guarded failed undefined (checked c.1 s) (unchecked c.1 s)) :
    Answered catchable unchecked s c t ↔ (checked c.1 s).Passes failed ∧
      Answered catchable checked s c t := by
  obtain ⟨c, answer⟩ := c
  unfold Answered
  generalize checked c s = o, unchecked c s = o' at guarded
  cases guarded with
  | returned => simp [Passes]
  | @stopped e s other =>
    rw [and_iff_right]
    intro e' s' same
    cases same
    exact other
  | @failed e s t' failure =>
    refine iff_of_false (fun answered => ?_) fun both => both.1 e s rfl failure
    cases answer with
    | none => cases answered
    | some e' =>
      obtain ⟨caught, stopped⟩ := answered
      cases stopped
      exact never caught

end Guarded

end Outcome

/-- The runs without checks are the runs with them in which none fails, and each call ends in the same way. -/
theorem Run.unchecked_iff {ε : Type*} {σ : Type u} {κ : Type v} {failed catchable : ε → Prop} {undefined : ε}
    {checked unchecked : κ → σ → Outcome ε σ} (never : ¬catchable undefined)
    (guarded : ∀ c s, Outcome.Guarded failed undefined (checked c s) (unchecked c s)) {s t : σ}
    {answered : List (κ × Option ε)} :
    Run (Answered catchable unchecked) s answered t ↔
      Run (fun s c t => (checked c.1 s).Passes failed ∧ Answered catchable checked s c t) s answered t := by
  have step (s : σ) (c : κ × Option ε) (t : σ) := (guarded c.1 s).answered_iff never (t := t)
  exact ⟨Run.mono fun s c t _ next => (step s c t).mp next, Run.mono fun s c t _ next =>
    (step s c t).mpr next⟩
