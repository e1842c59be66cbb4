import Opossum.Foundation.Outcome

/-!
# Runs of calls

`Run next s calls t`: starting from `s`, the calls happen one after the other and leave `t`. What a
single call may do is the relation `next`; `Returning`, `Caught` and `Answered` are the relations of a
caller who makes calls on an `Outcome` object.
-/

universe u v w

inductive Run {σ : Type u} {κ : Type v} (next : σ → κ → σ → Prop) : σ → List κ → σ → Prop
  | start {s} : Run next s [] s
  | call {s t u c cs} : next s c t → Run next t cs u → Run next s (c :: cs) u

/-- The call returned. -/
def Returning {ε : Type*} {σ : Type u} {κ : Type v} (call : κ → σ → Outcome ε σ) (s : σ) (c : κ)
    (t : σ) : Prop :=
  call c s = .returned t

/-- The call returned, or it stopped with a fault that the caller can catch and go on after. -/
def Caught {ε : Type*} {σ : Type u} {κ : Type v} (catchable : ε → Prop)
    (call : κ → σ → Outcome ε σ) (s : σ) (c : κ) (t : σ) : Prop :=
  call c s = .returned t ∨ ∃ e, catchable e ∧ call c s = .stopped e t

/-- The call returned, if no fault is noted with it, or else it stopped with this fault and the caller
caught it. -/
def Answered {ε : Type*} {σ : Type u} {κ : Type v} (catchable : ε → Prop)
    (call : κ → σ → Outcome ε σ) (s : σ) (c : κ × Option ε) (t : σ) : Prop :=
  match c.2 with
  | none => call c.1 s = .returned t
  | some e => catchable e ∧ call c.1 s = .stopped e t

theorem Returning.functional {ε : Type*} {σ : Type u} {κ : Type v} {call : κ → σ → Outcome ε σ}
    (s : σ) (c : κ) (t u : σ) (one : Returning call s c t) (other : Returning call s c u) : t = u := by
  unfold Returning at one other
  rw [one] at other
  exact Outcome.returned.inj other

theorem Caught.left_eq {ε : Type*} {σ : Type u} {κ : Type v} {catchable : ε → Prop}
    {call : κ → σ → Outcome ε σ} {s t : σ} {c : κ} (step : Caught catchable call s c t) :
    (call c s).left = t := by
  rcases step with returned | ⟨e, _, stopped⟩
  · rw [returned, Outcome.left_returned]
  · rw [stopped, Outcome.left_stopped]

theorem Caught.functional {ε : Type*} {σ : Type u} {κ : Type v} {catchable : ε → Prop}
    {call : κ → σ → Outcome ε σ} (s : σ) (c : κ) (t u : σ)
    (one : Caught catchable call s c t) (other : Caught catchable call s c u) : t = u :=
  one.left_eq.symm.trans other.left_eq

/-- A call on a part of an object is caught on the whole as it is on the part. -/
theorem caught_within_iff {ε : Type*} {σ τ : Type u} {κ κ' : Type v} {catchable : ε → Prop}
    {call : κ → σ → Outcome ε σ} {call' : κ' → τ → Outcome ε τ} {s : σ} {c : κ} {s' t' : τ} {c' : κ'}
    {f : σ → τ} (part : call' c' s' = (call c s).within f) :
    Caught catchable call' s' c' t' ↔ ∃ t, Caught catchable call s c t ∧ f t = t' := by
  unfold Caught
  rw [part]
  constructor
  · rintro (returned | ⟨e, caught, stopped⟩)
    · obtain ⟨t, returned, same⟩ := Outcome.within_eq_returned.mp returned
      exact ⟨t, Or.inl returned, same⟩
    · obtain ⟨t, stopped, same⟩ := Outcome.within_eq_stopped.mp stopped
      exact ⟨t, Or.inr ⟨e, caught, stopped⟩, same⟩
  · rintro ⟨t, returned | ⟨e, caught, stopped⟩, same⟩
    · exact Or.inl (Outcome.within_eq_returned.mpr ⟨t, returned, same⟩)
    · exact Or.inr ⟨e, caught, Outcome.within_eq_stopped.mpr ⟨t, stopped, same⟩⟩

/-- Of each of the calls, and of those that come before it. -/
def AtEach {κ : Type v} (holds : List κ → κ → Prop) (cs : List κ) : Prop :=
  ∀ pre c, pre ++ [c] <+: cs → holds pre c

theorem AtEach.nil {κ : Type v} {holds : List κ → κ → Prop} : AtEach holds [] := by
  intro pre c isPrefix
  have empty := List.prefix_nil.mp isPrefix
  simp at empty

theorem atEach_snoc {κ : Type v} {holds : List κ → κ → Prop} {cs : List κ} {c : κ} :
    AtEach holds (cs ++ [c]) ↔ AtEach holds cs ∧ holds cs c := by
  constructor
  · intro each
    exact ⟨fun pre d isPrefix => each pre d (isPrefix.trans (List.prefix_append ..)),
      each _ _ (List.prefix_refl _)⟩
  · rintro ⟨each, last⟩ pre d isPrefix
    rcases List.prefix_concat_iff.mp isPrefix with same | isPrefix
    · obtain ⟨rfl, ends⟩ := List.append_inj' same rfl
      cases ends
      exact last
    · exact each pre d isPrefix

namespace Run
variable {σ : Type u} {κ : Type v} {α : Type w} {next : σ → κ → σ → Prop}

theorem single {s t : σ} {c : κ} (step : next s c t) : Run next s [c] t :=
  .call step .start

@[simp] theorem nil_iff {s t : σ} : Run next s [] t ↔ s = t := by
  constructor
  · intro run
    cases run
    rfl
  · rintro rfl
    exact .start

theorem cons_iff {s u : σ} {c : κ} {cs : List κ} :
    Run next s (c :: cs) u ↔ ∃ t, next s c t ∧ Run next t cs u := by
  constructor
  · intro run
    cases run with
    | call step rest => exact ⟨_, step, rest⟩
  · rintro ⟨t, step, rest⟩
    exact .call step rest

theorem append_iff {s u : σ} {cs ds : List κ} :
    Run next s (cs ++ ds) u ↔ ∃ t, Run next s cs t ∧ Run next t ds u := by
  induction cs generalizing s with
  | nil => simp
  | cons c cs ih =>
    simp only [List.cons_append, cons_iff, ih]
    constructor
    · rintro ⟨t, step, v, first, rest⟩
      exact ⟨v, ⟨t, step, first⟩, rest⟩
    · rintro ⟨v, ⟨t, step, first⟩, rest⟩
      exact ⟨t, step, v, first, rest⟩

/-- A run, up to its last call. -/
theorem snoc_iff {s u : σ} {c : κ} {cs : List κ} :
    Run next s (cs ++ [c]) u ↔ ∃ t, Run next s cs t ∧ next t c u := by
  simp only [append_iff, cons_iff, nil_iff, exists_eq_right]

theorem map_iff {κ' : Type*} (f : κ' → κ) {s t : σ} {cs : List κ'} :
    Run next s (cs.map f) t ↔ Run (fun s c t => next s (f c) t) s cs t := by
  induction cs generalizing s with
  | nil => simp
  | cons c cs ih => simp only [List.map_cons, cons_iff, ih]

theorem functional (single : ∀ s c t u, next s c t → next s c u → t = u) {s t u : σ} {cs : List κ}
    (one : Run next s cs t) (other : Run next s cs u) : t = u := by
  induction one with
  | start => exact nil_iff.mp other
  | call step _ ih =>
    obtain ⟨v, step', rest⟩ := cons_iff.mp other
    exact ih (single _ _ _ _ step step' ▸ rest)

theorem mono {next' : σ → κ → σ → Prop} {s t : σ} {cs : List κ}
    (weaker : ∀ s c t, c ∈ cs → next s c t → next' s c t) (run : Run next s cs t) :
    Run next' s cs t := by
  induction run with
  | start => exact .start
  | call step _ ih =>
    exact .call (weaker _ _ _ (List.mem_cons_self ..) step)
      (ih fun s c t member => weaker s c t (List.mem_cons_of_mem _ member))

/-- What each call of a run preserves, the whole run preserves. -/
theorem invariant (good : σ → Prop) {s t : σ} {cs : List κ} (run : Run next s cs t)
    (preserved : ∀ s c t, c ∈ cs → good s → next s c t → good t) (initial : good s) : good t := by
  induction run with
  | start => exact initial
  | call step _ ih =>
    exact ih (fun s c t member => preserved s c t (List.mem_cons_of_mem _ member))
      (preserved _ _ _ (List.mem_cons_self ..) initial step)

/-- Two ways to make the calls that agree on good objects, and keep them good. -/
theorem iff_of_invariant {next' : σ → κ → σ → Prop} (good : σ → Prop) {s t : σ} {cs : List κ}
    (same : ∀ s c t, good s → (next s c t ↔ next' s c t)) (preserved : ∀ s c t, good s → next s c t → good t)
    (initial : good s) : Run next s cs t ↔ Run next' s cs t := by
  induction cs generalizing s with
  | nil => rw [nil_iff, nil_iff]
  | cons c cs ih =>
    rw [cons_iff, cons_iff]
    refine exists_congr fun u => ?_
    rw [← same s c u initial]
    exact and_congr_right fun step => ih (preserved s c u initial step)

/-- Forward simulation with progress: when, from every related pair of objects, each call leads to a
related pair again, there is a run of all the calls, and the abstract object is folded over them. -/
theorem exists_simulating (related : σ → α → Prop) (abstract : α → κ → α) {s : σ} {cs : List κ}
    {a : α}
    (square : ∀ pre c post s, cs = pre ++ c :: post → related s (pre.foldl abstract a) →
      ∃ t, next s c t ∧ related t ((pre ++ [c]).foldl abstract a))
    (initial : related s a) : ∃ t, Run next s cs t ∧ related t (cs.foldl abstract a) := by
  induction cs generalizing s a with
  | nil => exact ⟨s, .start, initial⟩
  | cons c cs ih =>
    obtain ⟨t, step, after⟩ := square [] c cs s rfl initial
    obtain ⟨u, rest, final⟩ := ih (s := t) (a := abstract a c) (fun pre d post s split before => by
      have lifted := square (c :: pre) d post s (by rw [split, List.cons_append])
      rw [List.foldl_cons] at lifted
      exact lifted before) after
    exact ⟨u, .call step rest, final⟩

/-- A loop that returns is a run of calls that return. -/
theorem of_loop {ε : Type*} {call : κ → σ → Outcome ε σ} {s t : σ} {cs : List κ}
    (loop : Outcome.loop call cs s = .returned t) : Run (Returning call) s cs t := by
  induction cs generalizing s with
  | nil =>
    cases loop
    exact .start
  | cons c cs ih =>
    rw [Outcome.loop_cons] at loop
    cases step : call c s with
    | returned u =>
      rw [step, Outcome.returned_andThen] at loop
      exact .call step (ih loop)
    | stopped fault u =>
      rw [step] at loop
      cases loop

/-- A run of admissible calls is a run that makes each of its calls where it is admissible. -/
theorem admissible_iff (single : ∀ s c t u, next s c t → next s c u → t = u)
    (admissible : σ → κ → Prop) {s t : σ} {cs : List κ} (run : Run next s cs t) :
    (∀ pre c post u v, cs = pre ++ c :: post → Run next s pre u → next u c v → admissible u c) ↔
      Run (fun s c t => admissible s c ∧ next s c t) s cs t := by
  induction run with
  | start =>
    refine iff_of_true (fun pre c post u v split => ?_) .start
    simp at split
  | @call s t u c cs step rest ih =>
    constructor
    · intro all
      refine .call ⟨all [] c cs s t rfl .start step, step⟩ (ih.mp fun pre d post v w split before => ?_)
      exact all (c :: pre) d post v w (by rw [split, List.cons_append]) (.call step before)
    · intro allAdmissible pre d post v w split before next
      obtain ⟨t', ⟨admitted, step'⟩, after⟩ := cons_iff.mp allAdmissible
      obtain rfl := single _ _ _ _ step step'
      obtain _ | ⟨c', pre⟩ := pre
      · obtain ⟨rfl, _⟩ := List.cons_eq_cons.mp split
        obtain rfl := nil_iff.mp before
        exact admitted
      · obtain ⟨rfl, tail⟩ := List.cons_eq_cons.mp split
        obtain ⟨t', step', beforeTail⟩ := cons_iff.mp before
        obtain rfl := single _ _ _ _ step step'
        exact ih.mpr after pre d post v w tail beforeTail next

/-- Let `steady` be kept by every call. If, from a good state, a call leads to a good state exactly
when it is admissible there, then all states of a run are good exactly when all its calls are
admissible. -/
theorem all_good_iff (single : ∀ s c t u, next s c t → next s c u → t = u)
    (steady good : σ → Prop) (admissible : σ → κ → Prop)
    (kept : ∀ s c t, steady s → next s c t → steady t)
    (exact_step : ∀ s c t, steady s → good s → next s c t → (good t ↔ admissible s c))
    {s t : σ} {cs : List κ} (run : Run next s cs t) (initial : steady s) (first : good s) :
    (∀ pre u, pre <+: cs → Run next s pre u → good u) ↔
      Run (fun s c t => admissible s c ∧ next s c t) s cs t := by
  induction run with
  | start =>
    constructor
    · intro _
      exact .start
    · intro _ pre u isPrefix run
      obtain rfl := List.prefix_nil.mp isPrefix
      obtain rfl := nil_iff.mp run
      exact first
  | @call s t u c cs step rest ih =>
    constructor
    · intro allGood
      have goodT : good t := allGood [c] t ⟨cs, rfl⟩ (.single step)
      refine .call ⟨(exact_step s c t initial first step).mp goodT, step⟩ ?_
      refine (ih (kept s c t initial step) goodT).mp fun pre v isPrefix before => ?_
      exact allGood (c :: pre) v (List.cons_prefix_cons.mpr ⟨rfl, isPrefix⟩) (.call step before)
    · intro allAdmissible pre v isPrefix before
      obtain ⟨t', ⟨admitted, step'⟩, after⟩ := cons_iff.mp allAdmissible
      obtain rfl := single _ _ _ _ step step'
      have goodT := (exact_step s c t initial first step).mpr admitted
      obtain _ | ⟨d, pre⟩ := pre
      · obtain rfl := nil_iff.mp before
        exact first
      · obtain ⟨rfl, tail⟩ := List.cons_prefix_cons.mp isPrefix
        obtain ⟨t', step', beforeTail⟩ := cons_iff.mp before
        obtain rfl := single _ _ _ _ step step'
        exact (ih (kept s d t initial step) goodT).mpr after pre v tail beforeTail

end Run
