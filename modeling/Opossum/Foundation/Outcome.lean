import Mathlib.Data.List.Forall2

/-!
# Calls that may stop halfway

A call on an object of type `σ` either returns, or stops with a fault. Unlike `Except`, a stopped
call still has an object: whatever it had written by then stays written.
-/

universe u v w

/-- How a call on an object ends, together with the object it leaves behind. -/
inductive Outcome (ε : Type u) (σ : Type v)
  | returned (left : σ)
  | stopped (fault : ε) (left : σ)
  deriving DecidableEq

namespace Outcome
variable {ε : Type u} {σ : Type v} {τ : Type w} {ι α : Type*}

/-- The object after the call, whichever way the call ended. -/
def left : Outcome ε σ → σ
  | returned s => s
  | stopped _ s => s

/-- Sequencing: the second call happens only when the first one returned. -/
def andThen (o : Outcome ε σ) (next : σ → Outcome ε σ) : Outcome ε σ :=
  match o with
  | returned s => next s
  | stopped e s => stopped e s

/-- A call on a part of an object, seen as a call on the whole. -/
def within (f : σ → τ) : Outcome ε σ → Outcome ε τ
  | returned s => returned (f s)
  | stopped e s => stopped e (f s)

/-- A call on a local object of the caller: when it stops, the object is gone. -/
def toExcept : Outcome ε σ → Except ε σ
  | returned s => .ok s
  | stopped e _ => .error e

/-- A call that computes before it writes: when the computation fails, `s` is as it was. -/
def ofExcept (s : σ) : Except ε σ → Outcome ε σ
  | .ok t => returned t
  | .error e => stopped e s

/-- A loop of calls on one object, left at the first call that does not return. -/
def loop (call : ι → σ → Outcome ε σ) : List ι → σ → Outcome ε σ
  | [], s => returned s
  | i :: is, s => (call i s).andThen (loop call is)

/-- One call on each object of a list, left at the first call that does not return: the objects
before it have been changed by then, the ones after it have not. -/
def each (call : ι → α → Outcome ε α) : List ι → List α → Outcome ε (List α)
  | i :: is, a :: as =>
    match call i a with
    | returned b => (each call is as).within (b :: ·)
    | stopped e b => stopped e (b :: as)
  | _, as => returned as

/-- The same call on each object of a list. -/
def forEach (call : α → Outcome ε α) (as : List α) : Outcome ε (List α) :=
  each (fun _ a => call a) as as

/-- Two calls that end alike, on related objects. -/
inductive EndsLike (R : σ → τ → Prop) : Outcome ε σ → Outcome ε τ → Prop
  | returned {s t} : R s t → EndsLike R (.returned s) (.returned t)
  | stopped {e s t} : R s t → EndsLike R (.stopped e s) (.stopped e t)

/-- A call on `s` that stops with a catchable fault leaves `s` as it was. -/
def Atomic (catchable : ε → Prop) (s : σ) (o : Outcome ε σ) : Prop :=
  ∀ e t, catchable e → o = stopped e t → t = s

@[simp] theorem left_returned (s : σ) : (returned s : Outcome ε σ).left = s := rfl
@[simp] theorem left_stopped (e : ε) (s : σ) : (stopped e s).left = s := rfl
@[simp] theorem returned_andThen (s : σ) (f : σ → Outcome ε σ) : (returned s).andThen f = f s := rfl
@[simp] theorem stopped_andThen (e : ε) (s : σ) (f : σ → Outcome ε σ) :
    (stopped e s).andThen f = stopped e s := rfl
theorem andThen_assoc (o : Outcome ε σ) (f g : σ → Outcome ε σ) :
    (o.andThen f).andThen g = o.andThen fun s => (f s).andThen g := by
  cases o <;> rfl

@[simp] theorem within_returned (f : σ → τ) (s : σ) :
    (returned s : Outcome ε σ).within f = returned (f s) := rfl
@[simp] theorem within_stopped (f : σ → τ) (e : ε) (s : σ) :
    (stopped e s).within f = stopped e (f s) := rfl
@[simp] theorem toExcept_returned (s : σ) : (returned s : Outcome ε σ).toExcept = .ok s := rfl
@[simp] theorem toExcept_stopped (e : ε) (s : σ) : (stopped e s).toExcept = .error e := rfl
@[simp] theorem ofExcept_ok (s t : σ) : ofExcept s (.ok t : Except ε σ) = returned t := rfl
@[simp] theorem ofExcept_error (s : σ) (e : ε) : ofExcept s (.error e) = stopped e s := rfl

theorem andThen_eq_returned {o : Outcome ε σ} {f : σ → Outcome ε σ} {t : σ} :
    o.andThen f = returned t ↔ ∃ s, o = returned s ∧ f s = returned t := by
  cases o <;> simp

@[simp] theorem left_within (o : Outcome ε σ) (f : σ → τ) : (o.within f).left = f o.left := by
  cases o <;> rfl

theorem left_ofExcept_const (s : σ) (x : Except ε α) : (ofExcept s (x.map fun _ => s)).left = s := by
  cases x <;> rfl

/-- What the first call leaves and the second call keeps. -/
theorem left_andThen (good : σ → Prop) {o : Outcome ε σ} {f : σ → Outcome ε σ} (first : good o.left)
    (kept : ∀ s, good s → good (f s).left) : good (o.andThen f).left := by
  cases o with
  | returned s => exact kept s first
  | stopped e s => exact first

theorem atomic_returned {catchable : ε → Prop} (s t : σ) :
    Atomic catchable s (returned t : Outcome ε σ) := by
  intro e u _ stop
  cases stop

theorem atomic_stopped_iff {catchable : ε → Prop} {e : ε} {s t : σ} :
    Atomic catchable s (stopped e t) ↔ catchable e → t = s := by
  constructor
  · intro atomic thrown
    exact atomic e t thrown rfl
  · intro same e' t' thrown stop
    cases stop
    exact same thrown

theorem atomic_within_iff {catchable : ε → Prop} {f : σ → τ} (injective : Function.Injective f) {s : σ}
    {o : Outcome ε σ} : Atomic catchable (f s) (o.within f) ↔ Atomic catchable s o := by
  cases o with
  | returned t => exact iff_of_true (atomic_returned _ _) (atomic_returned _ _)
  | stopped e t => rw [within_stopped, atomic_stopped_iff, atomic_stopped_iff, injective.eq_iff]

theorem EndsLike.imp {R S : σ → τ → Prop} {o : Outcome ε σ} {o' : Outcome ε τ} (alike : EndsLike R o o')
    (weaker : ∀ s t, R s t → S s t) : EndsLike S o o' := by
  cases alike with
  | returned related => exact .returned (weaker _ _ related)
  | stopped related => exact .stopped (weaker _ _ related)

theorem within_eq_returned {o : Outcome ε σ} {f : σ → τ} {t : τ} :
    o.within f = returned t ↔ ∃ s, o = returned s ∧ f s = t := by
  cases o <;> simp

theorem within_eq_stopped {o : Outcome ε σ} {f : σ → τ} {e : ε} {t : τ} :
    o.within f = stopped e t ↔ ∃ s, o = stopped e s ∧ f s = t := by
  cases o <;> simp

theorem toExcept_eq_ok {o : Outcome ε σ} {s : σ} : o.toExcept = .ok s ↔ o = returned s := by
  cases o <;> simp

theorem ofExcept_eq_returned {s t : σ} {x : Except ε σ} : ofExcept s x = returned t ↔ x = .ok t := by
  cases x <;> simp

theorem ofExcept_eq_stopped {s t : σ} {e : ε} {x : Except ε σ} :
    ofExcept s x = stopped e t ↔ x = .error e ∧ s = t := by
  cases x <;> simp

@[simp] theorem loop_nil (call : ι → σ → Outcome ε σ) (s : σ) : loop call [] s = returned s := rfl

theorem loop_cons (call : ι → σ → Outcome ε σ) (i : ι) (is : List ι) (s : σ) :
    loop call (i :: is) s = (call i s).andThen (loop call is) := rfl

theorem loop_append (call : ι → σ → Outcome ε σ) (is js : List ι) (s : σ) :
    loop call (is ++ js) s = (loop call is s).andThen (loop call js) := by
  induction is generalizing s with
  | nil => rfl
  | cons i is ih =>
    rw [List.cons_append, loop_cons, loop_cons]
    cases call i s with
    | returned t => exact ih t
    | stopped e t => rfl

theorem loop_map {κ : Type*} (call : ι → σ → Outcome ε σ) (f : κ → ι) (ks : List κ) (s : σ) :
    loop call (ks.map f) s = loop (fun k => call (f k)) ks s := by
  induction ks generalizing s with
  | nil => rfl
  | cons k ks ih =>
    rw [List.map_cons, loop_cons, loop_cons]
    cases call (f k) s with
    | returned t => exact ih t
    | stopped e t => rfl

theorem within_loop {call : ι → σ → Outcome ε σ} {call' : ι → τ → Outcome ε τ} {f : σ → τ}
    (part : ∀ i s, call' i (f s) = (call i s).within f) (is : List ι) (s : σ) :
    (loop call is s).within f = loop call' is (f s) := by
  induction is generalizing s with
  | nil => rfl
  | cons i is ih =>
    rw [loop_cons, loop_cons, part]
    cases call i s with
    | returned t => exact ih t
    | stopped e t => rfl

theorem toExcept_loop (call : ι → σ → Outcome ε σ) (is : List ι) (s : σ) :
    (loop call is s).toExcept = is.foldlM (fun s i => (call i s).toExcept) s := by
  induction is generalizing s with
  | nil => rfl
  | cons i is ih =>
    rw [loop_cons, List.foldlM_cons]
    cases call i s with
    | returned t => exact ih t
    | stopped e t => rfl

theorem loop_congr {call call' : ι → σ → Outcome ε σ} {is : List ι}
    (same : ∀ i ∈ is, call i = call' i) (s : σ) : loop call is s = loop call' is s := by
  induction is generalizing s with
  | nil => rfl
  | cons i is ih =>
    rw [loop_cons, loop_cons, same i (List.mem_cons_self ..)]
    cases call' i s with
    | returned t => exact ih (fun j member => same j (List.mem_cons_of_mem _ member)) t
    | stopped e t => rfl

/-- A loop over the indices of a list that reads the list at each of them. -/
theorem loop_range {call : Nat → σ → Outcome ε σ} {call' : ι → σ → Outcome ε σ} {is : List ι}
    (reads : ∀ (k : Nat) i, is[k]? = some i → call k = call' i) (s : σ) :
    loop call (List.range is.length) s = loop call' is s := by
  have indices : List.range is.length = is.zipIdx.map Prod.snd := by
    rw [List.zipIdx_map_snd, List.range_eq_range']
  have elements : is = is.zipIdx.map Prod.fst := (List.zipIdx_map_fst ..).symm
  rw [indices, loop_map]
  conv_rhs => rw [elements, loop_map]
  exact loop_congr (fun pair member => reads pair.2 pair.1 (List.mk_mem_zipIdx_iff_getElem?.mp member)) s

theorem length_each (call : ι → α → Outcome ε α) (is : List ι) (as : List α) :
    (each call is as).left.length = as.length := by
  induction is generalizing as with
  | nil => rfl
  | cons i is ih =>
    obtain _ | ⟨a, as⟩ := as
    · rfl
    simp only [each]
    cases call i a with
    | returned b => rw [left_within, List.length_cons, ih, List.length_cons]
    | stopped e b => rw [left_stopped, List.length_cons, List.length_cons]

/-- What each call does to its object at most, the calls of a list do to the objects. -/
theorem forall₂_each {R : α → α → Prop} (refl : ∀ a, R a a) {call : ι → α → Outcome ε α}
    (one : ∀ i a, R a (call i a).left) (is : List ι) (as : List α) :
    List.Forall₂ R as (each call is as).left := by
  induction is generalizing as with
  | nil => exact List.forall₂_same.mpr fun a _ => refl a
  | cons i is ih =>
    obtain _ | ⟨a, as⟩ := as
    · exact .nil
    have first := one i a
    simp only [each]
    cases run : call i a with
    | returned b =>
      rw [run] at first
      rw [left_within]
      exact .cons first (ih as)
    | stopped e b =>
      rw [run] at first
      exact .cons first (List.forall₂_same.mpr fun a _ => refl a)

/-- All calls of the list return exactly when each single one does. -/
theorem each_eq_returned {call : ι → α → Outcome ε α} {is : List ι} {as bs : List α}
    (same : is.length = as.length) :
    each call is as = returned bs ↔
      bs.length = as.length ∧ ∀ (k : Nat) i a, is[k]? = some i → as[k]? = some a →
        ∃ b, call i a = returned b ∧ bs[k]? = some b := by
  induction is generalizing as bs with
  | nil =>
    obtain rfl : as = [] := List.length_eq_zero_iff.mp same.symm
    simp [each, eq_comm]
  | cons i is ih =>
    obtain _ | ⟨a, as⟩ := as
    · simp at same
    have tail : is.length = as.length := by simpa using same
    constructor
    · intro run
      simp only [each] at run
      cases first : call i a with
      | stopped e b => simp [first] at run
      | returned b =>
        rw [first] at run
        obtain ⟨rest, atRest, rfl⟩ := within_eq_returned.mp run
        obtain ⟨length, calls⟩ := (ih tail).mp atRest
        refine ⟨by simp [length], ?_⟩
        rintro (_ | k) j c atJ atC
        · cases Option.some.inj atJ
          cases Option.some.inj atC
          exact ⟨b, first, rfl⟩
        · exact calls k j c atJ atC
    · rintro ⟨length, calls⟩
      obtain ⟨b, first, atB⟩ := calls 0 i a rfl rfl
      obtain _ | ⟨b', rest⟩ := bs
      · simp at atB
      obtain rfl : b' = b := by simpa using atB
      have atRest : each call is as = returned rest := (ih tail).mpr
        ⟨by simpa using length, fun k j c atJ atC => calls (k + 1) j c atJ atC⟩
      simp only [each, first, atRest, within_returned]

/-- A list of calls that stops has one call that stopped; the calls before it returned, and the
objects after it are as they were. -/
theorem each_eq_stopped {call : ι → α → Outcome ε α} {is : List ι} {as bs : List α} {e : ε}
    (run : each call is as = stopped e bs) :
    ∃ (k : Nat) (i : ι) (a b : α), is[k]? = some i ∧ as[k]? = some a ∧ call i a = stopped e b ∧
      bs[k]? = some b ∧ (∀ n, k < n → bs[n]? = as[n]?) ∧
      ∀ (n : Nat) j c, n < k → is[n]? = some j → as[n]? = some c →
        ∃ d, call j c = returned d ∧ bs[n]? = some d := by
  induction is generalizing as bs with
  | nil => simp [each] at run
  | cons i is ih =>
    obtain _ | ⟨a, as⟩ := as
    · simp [each] at run
    simp only [each] at run
    cases first : call i a with
    | stopped e' b =>
      rw [first] at run
      cases run
      refine ⟨0, i, a, b, rfl, rfl, first, rfl, ?_, fun n j c below => absurd below (Nat.not_lt_zero n)⟩
      rintro (_ | n) above
      · exact absurd above (Nat.lt_irrefl 0)
      · rfl
    | returned b =>
      rw [first] at run
      obtain ⟨rest, atRest, rfl⟩ := within_eq_stopped.mp run
      obtain ⟨k, j, c, d, atJ, atC, stop, atD, after, before⟩ := ih atRest
      refine ⟨k + 1, j, c, d, atJ, atC, stop, atD, ?_, ?_⟩
      · rintro (_ | n) above
        · exact absurd above (Nat.not_lt_zero _)
        · exact after n (Nat.lt_of_succ_lt_succ above)
      · rintro (_ | n) l m below atL atM
        · cases Option.some.inj atL
          cases Option.some.inj atM
          exact ⟨b, first, rfl⟩
        · exact before n l m (Nat.lt_of_succ_lt_succ below) atL atM

theorem forEach_eq_returned {call : α → Outcome ε α} {as bs : List α} :
    forEach call as = returned bs ↔ List.Forall₂ (fun a b => call a = returned b) as bs := by
  rw [forEach, each_eq_returned rfl, List.forall₂_iff_get]
  constructor
  · rintro ⟨length, calls⟩
    refine ⟨length.symm, fun k inAs inBs => ?_⟩
    obtain ⟨b, run, atB⟩ := calls k as[k] as[k] (by simp [inAs]) (by simp [inAs])
    obtain rfl : bs[k] = b := by simpa [inBs] using atB
    exact run
  · rintro ⟨length, calls⟩
    refine ⟨length.symm, fun k i a _ atA => ?_⟩
    obtain ⟨inAs, rfl⟩ := List.getElem?_eq_some_iff.mp atA
    have inBs : k < bs.length := length ▸ inAs
    exact ⟨bs[k], calls k inAs inBs, List.getElem?_eq_getElem inBs⟩

end Outcome

namespace Except
variable {ε : Type u} {α β : Type v}

theorem ok_bind (a : α) (f : α → Except ε β) : (Except.ok a >>= f) = f a := rfl

theorem error_bind (e : ε) (f : α → Except ε β) : (Except.error e >>= f) = .error e := rfl

theorem bind_eq_ok {x : Except ε α} {f : α → Except ε β} {b : β} :
    x >>= f = .ok b ↔ ∃ a, x = .ok a ∧ f a = .ok b := by
  cases x <;> simp [bind, Except.bind]

theorem bind_eq_error {x : Except ε α} {f : α → Except ε β} {e : ε} :
    x >>= f = .error e ↔ x = .error e ∨ ∃ a, x = .ok a ∧ f a = .error e := by
  cases x <;> simp [bind, Except.bind]

theorem map_eq_ok {x : Except ε α} {f : α → β} {b : β} :
    x.map f = .ok b ↔ ∃ a, x = .ok a ∧ f a = b := by
  cases x <;> simp [Except.map]

theorem map_eq_error {x : Except ε α} {f : α → β} {e : ε} : x.map f = .error e ↔ x = .error e := by
  cases x <;> simp [Except.map]

/-- A fold stops only where one of its rounds does. -/
theorem foldlM_eq_error {f : β → α → Except ε β} {xs : List α} {b : β} {e : ε}
    (run : xs.foldlM f b = .error e) : ∃ c, ∃ x ∈ xs, f c x = .error e := by
  induction xs generalizing b with
  | nil => cases run
  | cons x xs ih =>
    rw [List.foldlM_cons] at run
    rcases bind_eq_error.mp run with here | ⟨c, _, rest⟩
    · exact ⟨b, x, List.mem_cons_self .., here⟩
    · obtain ⟨d, y, member, stop⟩ := ih rest
      exact ⟨d, y, List.mem_cons_of_mem _ member, stop⟩

/-- A fold that comes to its end has passed every round. -/
theorem foldlM_eq_ok {f : β → α → Except ε β} {xs : List α} {b d : β} (run : xs.foldlM f b = .ok d) :
    ∀ x ∈ xs, ∃ c c', f c x = .ok c' := by
  induction xs generalizing b with
  | nil => simp
  | cons x xs ih =>
    rw [List.foldlM_cons] at run
    obtain ⟨c, here, rest⟩ := bind_eq_ok.mp run
    rintro y (_ | ⟨_, later⟩)
    · exact ⟨b, c, here⟩
    · exact ih rest y later

/-- A computation that gives a value exactly on this condition, and then a good one. -/
structure OkWhen (condition : Prop) (good : α → Prop) (x : Except ε α) : Prop where
  iff : (∃ a, x = .ok a) ↔ condition
  good : ∀ a, x = .ok a → good a

theorem OkWhen.of_iff {condition condition' : Prop} {good : α → Prop} {x : Except ε α}
    (computed : OkWhen condition good x) (same : condition ↔ condition') : OkWhen condition' good x :=
  ⟨computed.iff.trans same, computed.good⟩

theorem OkWhen.bind {condition next : Prop} {good : α → Prop} {good' : β → Prop} {x : Except ε α}
    {f : α → Except ε β} (first : OkWhen condition good x)
    (rest : ∀ a, good a → OkWhen next good' (f a)) :
    OkWhen (condition ∧ next) good' (x >>= f) := by
  constructor
  · constructor
    · rintro ⟨b, run⟩
      obtain ⟨a, here, later⟩ := bind_eq_ok.mp run
      exact ⟨first.iff.mp ⟨a, here⟩, (rest a (first.good a here)).iff.mp ⟨b, later⟩⟩
    · rintro ⟨here, later⟩
      obtain ⟨a, here⟩ := first.iff.mpr here
      obtain ⟨b, later⟩ := (rest a (first.good a here)).iff.mpr later
      exact ⟨b, bind_eq_ok.mpr ⟨a, here, later⟩⟩
  · intro b run
    obtain ⟨a, here, later⟩ := bind_eq_ok.mp run
    exact (rest a (first.good a here)).good b later

/-- A fold gives a value exactly when each of its rounds does. -/
theorem OkWhen.foldlM {condition : α → Prop} {good : β → Prop} {f : β → α → Except ε β} (xs : List α)
    (round : ∀ x ∈ xs, ∀ b, good b → OkWhen (condition x) good (f b x)) {b : β} (start : good b) :
    OkWhen (∀ x ∈ xs, condition x) good (xs.foldlM f b) := by
  induction xs generalizing b with
  | nil =>
    refine ⟨iff_of_true ⟨b, rfl⟩ nofun, fun c run => ?_⟩
    cases run
    exact start
  | cons x xs ih =>
    rw [List.foldlM_cons, List.forall_mem_cons]
    refine (round x (List.mem_cons_self ..) b start).bind fun c goodC => ?_
    exact ih (fun y member => round y (List.mem_cons_of_mem _ member)) goodC

theorem mapM_eq_ok {f : α → Except ε β} {xs : List α} {ys : List β} :
    xs.mapM f = .ok ys ↔ List.Forall₂ (fun x y => f x = .ok y) xs ys := by
  induction xs generalizing ys with
  | nil =>
    rw [List.mapM_nil]
    constructor
    · intro run
      cases run
      exact .nil
    · rintro ⟨⟩
      rfl
  | cons x xs ih =>
    rw [List.mapM_cons]
    constructor
    · intro run
      obtain ⟨y, here, run⟩ := bind_eq_ok.mp run
      obtain ⟨rest, later, run⟩ := bind_eq_ok.mp run
      cases run
      exact .cons here (ih.mp later)
    · rintro (_ | ⟨here, later⟩)
      exact bind_eq_ok.mpr ⟨_, here, bind_eq_ok.mpr ⟨_, ih.mpr later, rfl⟩⟩

end Except
