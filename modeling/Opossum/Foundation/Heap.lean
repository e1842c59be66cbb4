import Opossum.Foundation.Run

/-!
# Structures that hold pointers

Objects are made and written in place, and a structure holds pointers to them. As long as no object is
pointed to from two places, the structure behaves like one that holds the objects themselves.
-/

universe u v w x y

/-- A structure, and the objects that its pointers lead to, by their addresses. -/
structure OnHeap (α : Type u) (τ : Type v) where
  heap : List α
  object : τ

theorem getElem?_concat_ne {α : Type*} {xs : List α} {x : α} {k : Nat} (other : k ≠ xs.length) :
    (xs ++ [x])[k]? = xs[k]? := by
  rw [List.getElem?_append]
  split
  · rfl
  · rw [List.getElem?_singleton, if_neg (by omega), List.getElem?_eq_none (by omega)]

namespace Heap
variable {α : Type u} {π : Type v} {κ : Type w}

/-- All pointers lead somewhere, and no object is pointed to from two places. -/
structure Owned (heap : List α) (place : π → Option Nat) : Prop where
  inside : ∀ p a, place p = some a → a < heap.length
  unique : ∀ p q a, place p = some a → place q = some a → p = q

/-- What a step does at most. It grows objects that are pointed to, puts pointers to new objects into
places, and takes pointers from the places that it is free to overwrite. -/
structure Footprint (grows : α → α → Prop) (lost : π → Prop) (heap : List α) (place : π → Option Nat)
    (heap' : List α) (place' : π → Option Nat) : Prop where
  kept : ∀ a < heap.length, (∀ p, place p ≠ some a) → heap'[a]? = heap[a]?
  grown : ∀ (a : Nat) o, heap[a]? = some o → ∃ o', heap'[a]? = some o' ∧ grows o o'
  fresh : ∀ p a, place' p = some a → a < heap.length → place p = some a
  stays : ∀ p a, place p = some a → ¬lost p → place' p = some a

variable {grows : α → α → Prop} {lost : π → Prop} {heap heap' heap'' : List α}
  {place place' place'' : π → Option Nat}

theorem Footprint.length_le (step : Footprint grows lost heap place heap' place') :
    heap.length ≤ heap'.length := by
  by_contra less
  have here : heap'.length < heap.length := by omega
  obtain ⟨_, found, _⟩ := step.grown heap'.length _ (List.getElem?_eq_getElem here)
  have inside := (List.getElem?_eq_some_iff.mp found).1
  omega

theorem Footprint.refl (refl : ∀ o, grows o o) (lost : π → Prop) (heap : List α) (place : π → Option Nat) :
    Footprint grows lost heap place heap place :=
  ⟨fun _ _ _ => rfl, fun _ o found => ⟨o, found, refl o⟩, fun _ _ found _ => found, fun _ _ found _ => found⟩

theorem Footprint.trans (trans : ∀ {a b c}, grows a b → grows b c → grows a c)
    (first : Footprint grows lost heap place heap' place')
    (second : Footprint grows lost heap' place' heap'' place'') :
    Footprint grows lost heap place heap'' place'' := by
  have longer := first.length_le
  refine ⟨fun a inside free => ?_, fun a o found => ?_, fun p a found inside => ?_, fun p a found safe => ?_⟩
  · rw [second.kept a (by omega) fun p taken => free p (first.fresh p a taken inside),
      first.kept a inside free]
  · obtain ⟨o', found', grown⟩ := first.grown a o found
    obtain ⟨o'', found'', grown'⟩ := second.grown a o' found'
    exact ⟨o'', found'', trans grown grown'⟩
  · exact first.fresh p a (second.fresh p a found (by omega)) inside
  · exact second.stays p a (first.stays p a found safe) safe

theorem Footprint.mono {lost' : π → Prop} (step : Footprint grows lost heap place heap' place')
    (more : ∀ p, lost p → lost' p) : Footprint grows lost' heap place heap' place' :=
  ⟨step.kept, step.grown, step.fresh, fun p a found safe => step.stays p a found fun gone =>
    safe (more p gone)⟩

theorem Footprint.weaken {grows' : α → α → Prop} (step : Footprint grows lost heap place heap' place')
    (weaker : ∀ a b, grows a b → grows' a b) : Footprint grows' lost heap place heap' place' := by
  refine ⟨step.kept, fun a o found => ?_, step.fresh, step.stays⟩
  obtain ⟨o', found', grown⟩ := step.grown a o found
  exact ⟨o', found', weaker o o' grown⟩

/-- A pointer is where it was, or its place has been overwritten and it is nowhere. -/
theorem Footprint.stays_or (owned : Owned heap place)
    (step : Footprint grows lost heap place heap' place') {p : π} {a : Nat}
    (held : place p = some a) : place' p = some a ∨ lost p ∧ ∀ q, place' q ≠ some a := by
  by_cases same : place' p = some a
  · exact Or.inl same
  · refine Or.inr ⟨by_contra fun safe => same (step.stays p a held safe), fun q found => same ?_⟩
    have old := step.fresh q a found (owned.inside p a held)
    rwa [owned.unique p q a held old]

/-- What has been made of nothing can be put into places that are free to be overwritten. -/
theorem Footprint.replace {lost' : π → Prop} (step : Footprint grows lost heap place heap' place')
    (nothing : ∀ p, place p = none)
    (free : ∀ p a, place'' p = some a → lost' p) : Footprint grows lost' heap place'' heap' place' := by
  refine ⟨fun a inside _ => step.kept a inside fun p found => ?_, step.grown, fun p a found inside => ?_,
    fun p a found safe => absurd (free p a found) safe⟩
  · cases (nothing p).symm.trans found
  · cases (nothing p).symm.trans (step.fresh p a found inside)

/-- New objects change nothing for the old ones. -/
theorem Footprint.of_append (refl : ∀ o, grows o o) (made : List α)
    (fresh : ∀ p a, place' p = some a → a < heap.length →
    place p = some a) (stays : ∀ p a, place p = some a → ¬lost p → place' p = some a) :
    Footprint grows lost heap place (heap ++ made) place' := by
  refine ⟨fun a inside _ => List.getElem?_append_left inside, fun a o found => ⟨o, ?_, refl o⟩, fresh, stays⟩
  rw [List.getElem?_append_left (List.getElem?_eq_some_iff.mp found).1, found]

section
variable {place place' : κ × π → Option Nat} {lost : κ × π → Prop} {part' : π → Option Nat} {k : κ}

/-- What happens to one part happens to the whole: the other parts have other objects. -/
theorem Owned.frame (owned : Owned heap place)
    (step : Footprint grows (fun q => lost (k, q)) heap (fun q => place (k, q)) heap' part')
    (ownedPart : Owned heap' part') (here : ∀ q, place' (k, q) = part' q)
    (others : ∀ j q, j ≠ k → place' (j, q) = place (j, q)) :
    Owned heap' place' ∧ Footprint grows lost heap place heap' place' ∧
      ∀ j q a, j ≠ k → place (j, q) = some a → heap'[a]? = heap[a]? := by
  have longer := step.length_le
  have apart {q r : π} {j : κ} {a : Nat} (found : part' q = some a) (other : j ≠ k) :
      place (j, r) ≠ some a := by
    intro found'
    have old := step.fresh q a found (owned.inside _ a found')
    exact other (Prod.mk.inj (owned.unique _ _ a found' old)).1
  refine ⟨⟨?_, ?_⟩, ⟨?_, step.grown, ?_, ?_⟩, ?_⟩
  · rintro ⟨j, q⟩ a found
    by_cases same : j = k
    · subst same
      exact ownedPart.inside q a (here q ▸ found)
    · have inside := owned.inside _ a (others j q same ▸ found)
      omega
  · rintro ⟨j, q⟩ ⟨j', q'⟩ a found found'
    by_cases same : j = k <;> by_cases same' : j' = k
    · subst same same'
      rw [ownedPart.unique q q' a (here q ▸ found) (here q' ▸ found')]
    · subst same
      exact absurd (others j' q' same' ▸ found') (apart (here q ▸ found) same')
    · subst same'
      exact absurd (others j q same ▸ found) (apart (here q' ▸ found') same)
    · exact owned.unique _ _ a (others j q same ▸ found) (others j' q' same' ▸ found')
  · exact fun a inside free => step.kept a inside fun q => free (k, q)
  · rintro ⟨j, q⟩ a found inside
    by_cases same : j = k
    · subst same
      exact step.fresh q a (here q ▸ found) inside
    · exact others j q same ▸ found
  · rintro ⟨j, q⟩ a found safe
    by_cases same : j = k
    · subst same
      exact (here q).trans (step.stays q a found safe)
    · exact (others j q same).trans found
  · intro j q a other found
    refine step.kept a (owned.inside _ a found) fun q' found' => ?_
    exact other (Prod.mk.inj (owned.unique _ _ a found found')).1

end

end Heap

/-- How a structure shows the objects that its pointers lead to. -/
structure PointerView (α : Type u) (τ : Type v) (σ : Type w) (π : Type x) where
  place : τ → π → Option Nat
  deref : List α → τ → σ
  deref_congr : ∀ (heap heap' : List α) (s : τ), (∀ p a, place s p = some a → heap'[a]? = heap[a]?) →
    deref heap' s = deref heap s

namespace PointerView

open Heap

variable {α : Type u} {τ : Type v} {σ : Type w} {π : Type x} {ε : Type y} {V : PointerView α τ σ π}
  {grows : α → α → Prop}
  {lost : π → Prop}

/-- The structure owns its objects, and shows these values. -/
structure Shows (V : PointerView α τ σ π) (s : OnHeap α τ) (values : σ) : Prop where
  owned : Owned s.heap (V.place s.object)
  deref : V.deref s.heap s.object = values

/-- A step leads from the one to the other, which shows these values. -/
structure Leads (V : PointerView α τ σ π) (grows : α → α → Prop) (lost : π → Prop) (s s' : OnHeap α τ)
    (values : σ) : Prop
    extends V.Shows s' values where
  footprint : Footprint grows lost s.heap (V.place s.object) s'.heap (V.place s'.object)

/-- The call with pointers does what the call on the values does. -/
def Refines (V : PointerView α τ σ π) (grows : α → α → Prop) (lost : π → Prop) (s : OnHeap α τ)
    (o : Outcome ε (OnHeap α τ)) (o' : Outcome ε σ) : Prop :=
  Outcome.EndsLike (V.Leads grows lost s) o o'

theorem Shows.leads_self {s : OnHeap α τ} {values : σ} (shows : V.Shows s values) (refl : ∀ o, grows o o) :
    V.Leads grows lost s s values :=
  ⟨shows, .refl refl lost _ _⟩

theorem Leads.trans {s s' s'' : OnHeap α τ} {values values' : σ}
    (trans : ∀ {a b c}, grows a b → grows b c → grows a c) (first : V.Leads grows lost s s' values)
    (second : V.Leads grows lost s' s'' values') :
    V.Leads grows lost s s'' values' :=
  ⟨second.toShows, first.footprint.trans trans second.footprint⟩

theorem Leads.weaken {grows' : α → α → Prop} {s s' : OnHeap α τ} {values : σ}
    (leads : V.Leads grows lost s s' values)
    (weaker : ∀ a b, grows a b → grows' a b) : V.Leads grows' lost s s' values :=
  ⟨leads.toShows, leads.footprint.weaken weaker⟩

theorem Refines.andThen {s : OnHeap α τ} {o : Outcome ε (OnHeap α τ)} {o' : Outcome ε σ}
    {f : OnHeap α τ → Outcome ε (OnHeap α τ)} {f' : σ → Outcome ε σ}
    (trans : ∀ {a b c}, grows a b → grows b c → grows a c) (first : V.Refines grows lost s o o')
    (next : ∀ s' values, V.Leads grows lost s s' values → V.Refines grows lost s' (f s') (f' values)) :
    V.Refines grows lost s (o.andThen f) (o'.andThen f') := by
  cases first with
  | returned leads => exact (next _ _ leads).imp fun _ _ later => leads.trans trans later
  | stopped leads => exact .stopped leads

theorem Refines.loop {ι : Type*} {start s : OnHeap α τ} {values : σ}
    {f : ι → OnHeap α τ → Outcome ε (OnHeap α τ)} {f' : ι → σ → Outcome ε σ} (refl : ∀ o, grows o o)
    (trans : ∀ {a b c}, grows a b → grows b c → grows a c)
    (round : ∀ i s values, V.Leads grows lost start s values → V.Refines grows lost s (f i s) (f' i values))
    (leads : V.Leads grows lost start s values) (is : List ι) :
    V.Refines grows lost s (Outcome.loop f is s) (Outcome.loop f' is values) := by
  induction is generalizing s values with
  | nil => exact .returned (leads.toShows.leads_self refl)
  | cons i is ih =>
    exact (round i s values leads).andThen trans fun s' values' later => ih (leads.trans trans later)

/-- A list of such structures. -/
def list (V : PointerView α τ σ π) : PointerView α (List τ) (List σ) (Nat × π) where
  place s p := s[p.1]?.bind fun x => V.place x p.2
  deref heap s := s.map (V.deref heap)
  deref_congr heap heap' s same := by
    refine List.map_congr_left fun x member => V.deref_congr heap heap' x fun p a found => ?_
    obtain ⟨k, atK⟩ := List.mem_iff_getElem?.mp member
    exact same (k, p) a (by rw [atK, Option.bind_some, found])

variable {s : OnHeap α (List τ)} {values : List σ} {lostIn : Nat × π → Prop} {k : Nat}

theorem Shows.length_eq (shows : V.list.Shows s values) : values.length = s.object.length := by
  rw [← shows.deref]
  exact List.length_map _

/-- One structure of a list is changed, or one more comes behind the others. -/
theorem Shows.leads_of_part (shows : V.list.Shows s values) {heap : List α} {object : List τ} {part : τ}
    {values' : List σ} {value : σ} (here : object[k]? = some part)
    (others : ∀ j, j ≠ k → object[j]? = s.object[j]?) (here' : values'[k]? = some value)
    (others' : ∀ j, j ≠ k → values'[j]? = values[j]?) (showsPart : V.Shows ⟨heap, part⟩ value)
    (footprint : Footprint grows (fun q => lostIn (k, q)) s.heap (fun q => V.list.place s.object (k, q)) heap
      (V.place part)) :
    V.list.Leads grows lostIn s ⟨heap, object⟩ values' := by
  have atPart (q : π) : V.list.place object (k, q) = V.place part q := by
    simp only [list, here, Option.bind_some]
  obtain ⟨owned, whole, same⟩ := shows.owned.frame footprint showsPart.owned atPart fun j q other => by
    simp only [list, others j other]
  refine ⟨⟨owned, List.ext_getElem? fun j => ?_⟩, whole⟩
  show (object.map (V.deref heap))[j]? = values'[j]?
  rw [List.getElem?_map]
  by_cases atJ : j = k
  · subst atJ
    rw [here, here', Option.map_some, showsPart.deref]
  · rw [others j atJ, others' j atJ, ← shows.deref]
    show _ = (s.object.map (V.deref s.heap))[j]?
    rw [List.getElem?_map]
    cases found : s.object[j]? with
    | none => rfl
    | some x =>
      refine congrArg some (V.deref_congr s.heap heap x fun p a held => same j p a atJ ?_)
      simp only [list, found, Option.bind_some, held]

end PointerView

/-- A call on one element of a list. -/
def Outcome.atIndex {ε : Type*} {σ : Type*} (undefined : ε) (k : Nat) (call : σ → Outcome ε σ)
    (values : List σ) :
    Outcome ε (List σ) :=
  match values[k]? with
  | none => .stopped undefined values
  | some x => (call x).within (values.set k ·)

/-- A call on one structure of a list. -/
def OnHeap.atIndex {α τ ε : Type*} (undefined : ε) (k : Nat) (call : OnHeap α τ → Outcome ε (OnHeap α τ))
    (s : OnHeap α (List τ)) : Outcome ε (OnHeap α (List τ)) :=
  match s.object[k]? with
  | none => .stopped undefined s
  | some x => (call ⟨s.heap, x⟩).within fun t => ⟨t.heap, s.object.set k t.object⟩

theorem Outcome.loop_atIndex_append {ε : Type*} {σ : Type*} {ι : Type*} (undefined : ε)
    {call : ι → σ → Outcome ε σ} {callAt : Nat → σ → Outcome ε σ} {is : List ι} {done values : List σ}
    {k : Nat} (here : done.length = k) (length : is.length = values.length)
    (reads : ∀ (j : Nat) i, is[j]? = some i → callAt (k + j) = call i) :
    Outcome.loop (fun k => Outcome.atIndex undefined k (callAt k)) (List.range' k values.length)
      (done ++ values) =
      (Outcome.each call is values).within (done ++ ·) := by
  induction values generalizing is done k with
  | nil =>
    obtain rfl := List.length_eq_zero_iff.mp length
    rfl
  | cons x xs ih =>
    obtain _ | ⟨i, is⟩ := is
    · simp at length
    subst here
    have found : (done ++ x :: xs)[done.length]? = some x := by simp
    have first : callAt done.length = call i := reads 0 i rfl
    rw [List.length_cons, List.range'_succ, Outcome.loop_cons, Outcome.atIndex]
    simp only [found, first, Outcome.each]
    cases call i x with
    | stopped e y => simp
    | returned y =>
      have put : (done ++ x :: xs).set done.length y = done ++ [y] ++ xs := by simp
      have later (j : Nat) (i' : ι) (atJ : is[j]? = some i') : callAt (done.length + 1 + j) = call i' := by
        rw [Nat.add_assoc, Nat.add_comm 1 j]
        exact reads (j + 1) i' atJ
      rw [Outcome.within_returned, Outcome.returned_andThen, put, ih (by simp) (by simpa using length) later]
      cases Outcome.each call is xs <;> simp

/-- Calls on the elements of a list are a loop over its indices. -/
theorem Outcome.each_eq_loop {ε : Type*} {σ : Type*} {ι : Type*} (undefined : ε) {call : ι → σ → Outcome ε σ}
    {callAt : Nat → σ → Outcome ε σ} {is : List ι} {values : List σ} (length : is.length = values.length)
    (reads : ∀ (k : Nat) i, is[k]? = some i → callAt k = call i) : Outcome.each call is values =
      Outcome.loop (fun k => Outcome.atIndex undefined k (callAt k)) (List.range values.length) values := by
  have readsAt (j : Nat) (i : ι) (atJ : is[j]? = some i) : callAt (0 + j) = call i := by
    rw [Nat.zero_add]
    exact reads j i atJ
  have all := Outcome.loop_atIndex_append undefined (List.length_nil (α := σ)) length readsAt
  rw [List.nil_append, ← List.range_eq_range'] at all
  rw [all]
  cases Outcome.each call is values <;> rfl

namespace PointerView

open Heap

variable {α : Type u} {τ : Type v} {σ : Type w} {π : Type x} {ε : Type y} {V : PointerView α τ σ π}
  {grows : α → α → Prop}
  {s : OnHeap α (List τ)} {values : List σ} {lost : Nat × π → Prop}

theorem Shows.part (shows : V.list.Shows s values) {k : Nat} {x : τ} (found : s.object[k]? = some x) :
    V.Shows ⟨s.heap, x⟩ (V.deref s.heap x) ∧ values[k]? = some (V.deref s.heap x) := by
  have here (q : π) : V.list.place s.object (k, q) = V.place x q := by
    simp only [list, found, Option.bind_some]
  refine ⟨⟨⟨fun q a atQ => shows.owned.inside (k, q) a ((here q).trans atQ), fun p q a atP atQ => ?_⟩, rfl⟩,
    ?_⟩
  · exact (Prod.mk.inj (shows.owned.unique (k, p) (k, q) a ((here p).trans atP) ((here q).trans atQ))).2
  · rw [← shows.deref, list, List.getElem?_map, found, Option.map_some]

theorem Refines.atIndex (refl : ∀ o, grows o o) (undefined : ε) {k : Nat}
    {call : OnHeap α τ → Outcome ε (OnHeap α τ)} {call' : σ → Outcome ε σ} (shows : V.list.Shows s values)
    (part : ∀ x, s.object[k]? = some x → V.Shows ⟨s.heap, x⟩ (V.deref s.heap x) →
      V.Refines grows (fun q => lost (k, q)) ⟨s.heap, x⟩ (call ⟨s.heap, x⟩) (call' (V.deref s.heap x))) :
    V.list.Refines grows lost s (s.atIndex undefined k call) (Outcome.atIndex undefined k call' values) := by
  unfold OnHeap.atIndex Outcome.atIndex
  cases found : s.object[k]? with
  | none =>
    have missing : values[k]? = none := by rw [← shows.deref, list, List.getElem?_map, found, Option.map_none]
    rw [missing]
    exact .stopped (shows.leads_self refl)
  | some x =>
    obtain ⟨showsPart, atK⟩ := shows.part found
    have inside := (List.getElem?_eq_some_iff.mp found).1
    have insideValues := (List.getElem?_eq_some_iff.mp atK).1
    have here : V.place x = fun q => V.list.place s.object (k, q) := by
      simp only [list, found, Option.bind_some]
    simp only [atK]
    have put {t : OnHeap α τ} {value : σ} (leads : V.Leads grows (fun q => lost (k, q)) ⟨s.heap, x⟩ t value) :
        V.list.Leads grows lost s ⟨t.heap, s.object.set k t.object⟩ (values.set k value) := by
      have footprint : Footprint grows (fun q => lost (k, q)) s.heap (V.place x) t.heap (V.place t.object) :=
        leads.footprint
      rw [here] at footprint
      exact shows.leads_of_part (List.getElem?_set_self inside)
        (fun j other => List.getElem?_set_ne (Ne.symm other))
        (List.getElem?_set_self insideValues) (fun j other => List.getElem?_set_ne (Ne.symm other))
        leads.toShows footprint
    have refines := part x found showsPart
    generalize call ⟨s.heap, x⟩ = o, call' (V.deref s.heap x) = o' at refines
    cases refines with
    | returned leads => exact .returned (put leads)
    | stopped leads => exact .stopped (put leads)

section
variable {α : Type u} {τ : Type v} {σ : Type v} {π : Type x} {ε : Type y} {κ : Type w}
  {V : PointerView α τ σ π}
  {grows : α → α → Prop} {lost : κ → π → Prop} {catchable : ε → Prop}
    {call : κ → OnHeap α τ → Outcome ε (OnHeap α τ)}
  {call' : κ → σ → Outcome ε σ} {s : OnHeap α τ} {values left : σ}

theorem leads_of_caught {c : κ} {lost : π → Prop}
    (refines : V.Refines grows lost s (call c s) (call' c values)) {s' : OnHeap α τ}
    (step : Caught catchable call s c s') :
    ∃ left, Caught catchable call' values c left ∧ V.Leads grows lost s s' left := by
  unfold Caught at step ⊢
  generalize call c s = o, call' c values = o' at refines step
  cases refines with
  | @returned t left leads =>
    rcases step with returned | ⟨e, _, stopped⟩
    · cases returned
      exact ⟨left, Or.inl rfl, leads⟩
    · cases stopped
  | @stopped e t left leads =>
    rcases step with returned | ⟨e, caught, stopped⟩
    · cases returned
    · cases stopped
      exact ⟨left, Or.inr ⟨_, caught, rfl⟩, leads⟩

theorem exists_caught {c : κ} {lost : π → Prop} (refines : V.Refines grows lost s (call c s) (call' c values))
    (step : Caught catchable call' values c left) :
    ∃ s', Caught catchable call s c s' ∧ V.Leads grows lost s s' left := by
  unfold Caught at step ⊢
  generalize call c s = o, call' c values = o' at refines step
  cases refines with
  | @returned t value leads =>
    rcases step with returned | ⟨e, _, stopped⟩
    · cases returned
      exact ⟨t, Or.inl rfl, leads⟩
    · cases stopped
  | @stopped e t value leads =>
    rcases step with returned | ⟨e, caught, stopped⟩
    · cases returned
    · cases stopped
      exact ⟨t, Or.inr ⟨_, caught, rfl⟩, leads⟩

theorem Leads.cons {c : κ} {cs : List κ} {s s' s'' : OnHeap α τ} {values values' : σ}
    (trans : ∀ {a b c}, grows a b → grows b c → grows a c) (first : V.Leads grows (lost c) s s' values)
    (rest : V.Leads grows (fun p => ∃ d ∈ cs, lost d p) s' s'' values') :
    V.Leads grows (fun p => ∃ d ∈ c :: cs, lost d p) s s'' values' := by
  refine ⟨rest.toShows, (first.footprint.mono fun p gone => ?_).trans trans (rest.footprint.mono fun p => ?_)⟩
  · exact ⟨c, List.mem_cons_self .., gone⟩
  · rintro ⟨d, member, gone⟩
    exact ⟨d, List.mem_cons_of_mem _ member, gone⟩

variable (refl : ∀ o, grows o o) (trans : ∀ {a b c}, grows a b → grows b c → grows a c)
  (refines : ∀ c s values, V.Shows s values → V.Refines grows (lost c) s (call c s) (call' c values))
include refl trans refines

theorem leads_of_run (shows : V.Shows s values) {s' : OnHeap α τ} {cs : List κ}
    (run : Run (Caught catchable call) s cs s') :
    ∃ left, Run (Caught catchable call') values cs left ∧
      V.Leads grows (fun p => ∃ c ∈ cs, lost c p) s s' left := by
  induction run generalizing values with
  | start => exact ⟨values, .start, shows.leads_self refl⟩
  | call step _ ih =>
    obtain ⟨middle, stepValues, leads⟩ := leads_of_caught (refines _ _ _ shows) step
    obtain ⟨left, restValues, leads'⟩ := ih leads.toShows
    exact ⟨left, .call stepValues restValues, leads.cons trans leads'⟩

theorem exists_run (shows : V.Shows s values) {cs : List κ}
    (run : Run (Caught catchable call') values cs left) :
    ∃ s', Run (Caught catchable call) s cs s' ∧ V.Leads grows (fun p => ∃ c ∈ cs, lost c p) s s' left := by
  induction run generalizing s with
  | start => exact ⟨s, .start, shows.leads_self refl⟩
  | call step _ ih =>
    obtain ⟨middle, stepAt, leads⟩ := exists_caught (refines _ _ _ shows) step
    obtain ⟨s', restAt, leads'⟩ := ih leads.toShows
    exact ⟨s', .call stepAt restAt, leads.cons trans leads'⟩

end

end PointerView
