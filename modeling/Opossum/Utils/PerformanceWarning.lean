import Mathlib.Data.List.Induction
import Opossum.Foundation.OStream
import Opossum.Foundation.Run
import Opossum.Types

/-!
# Performance warnings

A place in the code warns when it is reached for the first time. As long as warnings are disabled, this one
is lost: it is not made up for later. Each disabler keeps what it found when it was constructed, and can be
copied and assigned like any other object.
-/

namespace Opossum

open OStream

/-- Control comes to a `PerformanceWarning`, or a `PerformanceWarningDisabler` is constructed, copied,
assigned or destroyed. They are numbered in the order in which they come into being. -/
inductive WarningCall (κ : Type)
  | warn (site : κ)
  | construct
  | copy (i : Nat)
  | assign (i j : Nat)
  | destroy (i : Nat)
  deriving DecidableEq

/-- The static variables, and `_previously_disabled` of each disabler that has not been destroyed. -/
structure PerformanceWarnings (κ : Type) where
  disabled : Bool
  warned : List κ
  disablers : List (Option Bool)
  out : OStream

namespace PerformanceWarnings
variable {κ : Type} [DecidableEq κ]

def start (κ : Type) (out : OStream) : PerformanceWarnings κ := ⟨false, [], [], out⟩

/-- The constructor of `PerformanceWarningClass`. -/
def report (text : String) (w : PerformanceWarnings κ) : OStream :=
  if w.disabled then w.out
  else (((w.out.put "[PERF] ".toList).put text.toList).put
    "\n\tPerformance can be affected. This warning is only shown once.".toList).endl

/-- `PerformanceWarningClass::disable`, with what it returns -/
def disable (w : PerformanceWarnings κ) : Bool × PerformanceWarnings κ :=
  (w.disabled, { w with disabled := true })

def enable (w : PerformanceWarnings κ) : PerformanceWarnings κ := { w with disabled := false }

/-- The texts are those that the macro is given, each with its place. In a release build it expands to
nothing. -/
def run [Build] (text : κ → String) : WarningCall κ → PerformanceWarnings κ →
    Outcome Fault (PerformanceWarnings κ)
  | .warn site, w =>
    if Build.isDebug ∧ site ∉ w.warned then
      .returned { w with warned := w.warned ++ [site], out := w.report (text site) }
    else
      .returned w
  | .construct, w =>
    let (previously, w) := w.disable
    .returned { w with disablers := w.disablers ++ [some previously] }
  | .copy i, w =>
    match w.disablers[i]?.join with
    | some previously => .returned { w with disablers := w.disablers ++ [some previously] }
    | none => .stopped .undefined w
  | .assign i j, w =>
    match w.disablers[i]?.join, w.disablers[j]?.join with
    | some _, some previously => .returned { w with disablers := w.disablers.set i (some previously) }
    | _, _ => .stopped .undefined w
  | .destroy i, w =>
    match w.disablers[i]?.join with
    | some previously =>
      let w := { w with disablers := w.disablers.set i none }
      .returned (if previously then w else w.enable)
    | none => .stopped .undefined w

/-- What one warning writes. -/
def message (text : String) : List Char :=
  "[PERF] ".toList ++ text.toList ++
    "\n\tPerformance can be affected. This warning is only shown once.".toList ++ ['\n']

/-- What is known of the disablers that are alive, after one more call. `fresh` is known of one that is
constructed. -/
def record {α : Type} (fresh : α) (known : List (Option α)) : WarningCall κ → List (Option α)
  | .warn _ => known
  | .construct => known ++ [some fresh]
  | .copy i => known ++ [known[i]?.join]
  | .assign i j => known.set i known[j]?.join
  | .destroy i => known.set i none

/-- Each disabler that is alive after these calls, and whether it is an outer one: constructed when none was
alive. Copying and assigning make it one just like their source. -/
def recorded (calls : List (WarningCall κ)) : List (Option Bool) :=
  calls.foldl (fun known call => record (!known.any Option.isSome) known call) []

def Alive (calls : List (WarningCall κ)) (i : Nat) : Prop := (recorded calls)[i]?.join.isSome = true

def Outer (calls : List (WarningCall κ)) (i : Nat) : Prop := (recorded calls)[i]?.join = some true

/-- The disablers that a call reads, writes or destroys. -/
def uses : WarningCall κ → List Nat
  | .warn _ => []
  | .construct => []
  | .copy i => [i]
  | .assign i j => [i, j]
  | .destroy i => [i]

/-- No disabler is used before it has been made, or after it has been destroyed. -/
def Defined (calls : List (WarningCall κ)) : Prop :=
  AtEach (fun before call => ∀ i ∈ uses call, Alive before i) calls

/-- An outer disabler is destroyed when no other one is alive, and only then. -/
def Restores (calls : List (WarningCall κ)) : Prop :=
  AtEach (fun before call => ∀ i, call = .destroy i → (Outer before i ↔ ∀ k, Alive before k → k = i)) calls

/-- The disablers are local objects of their blocks: none is copied or assigned, and it is always the
youngest that is destroyed. -/
def Nested (calls : List (WarningCall κ)) : Prop :=
  AtEach (fun before call => (∀ i, call ≠ .copy i) ∧ (∀ i j, call ≠ .assign i j) ∧
    ∀ i, call = .destroy i → Alive before i ∧ ∀ k, Alive before k → k ≤ i) calls

/-- The place of a call that is the first one to reach it, when no disabler is alive. -/
def reports (before : List (WarningCall κ)) : WarningCall κ → Option κ
  | .warn site => if .warn site ∉ before ∧ ¬(recorded before).any Option.isSome then some site else none
  | _ => none

/-- The places that are reached for the first time when no disabler is alive. -/
def reported (calls : List (WarningCall κ)) : List κ :=
  (List.range calls.length).filterMap fun i => calls[i]?.bind (reports (calls.take i))

section
variable {α β : Type} {known : List (Option α)} {i k : Nat}

theorem any_isSome_iff : known.any Option.isSome = true ↔ ∃ i : Nat, known[i]?.join.isSome = true := by
  rw [List.any_eq_true]
  constructor
  · rintro ⟨entry, member, alive⟩
    obtain ⟨i, found⟩ := List.mem_iff_getElem?.mp member
    exact ⟨i, by rwa [found, Option.join_some]⟩
  · rintro ⟨i, alive⟩
    cases found : known[i]? with
    | none =>
      rw [found] at alive
      cases alive
    | some entry =>
      rw [found, Option.join_some] at alive
      exact ⟨entry, List.mem_of_getElem? found, alive⟩

theorem lt_length_of_isSome (alive : known[i]?.join.isSome = true) : i < known.length := by
  by_contra outside
  rw [List.getElem?_eq_none (Nat.le_of_not_lt outside)] at alive
  cases alive

theorem join_concat (entry : Option α) :
    (known ++ [entry])[k]?.join = if k = known.length then entry else known[k]?.join := by
  rw [List.getElem?_append]
  rcases Nat.lt_trichotomy k known.length with inside | rfl | outside
  · rw [if_pos inside, if_neg inside.ne]
  · rw [if_neg (Nat.lt_irrefl _), if_pos rfl, Nat.sub_self]
    rfl
  · rw [if_neg (by omega), if_neg outside.ne', List.getElem?_eq_none outside.le,
      List.getElem?_eq_none (by rw [List.length_singleton]; omega)]

theorem join_set_none : (known.set i none)[k]?.join = if k = i then none else known[k]?.join := by
  rw [List.getElem?_set]
  by_cases same : i = k
  · subst same
    rw [if_pos rfl, if_pos rfl]
    split <;> rfl
  · rw [if_neg same, if_neg (Ne.symm same)]

theorem join_map (f : α → β) : (known.map (Option.map f))[k]?.join = known[k]?.join.map f := by
  rw [List.getElem?_map]
  cases known[k]? <;> rfl

omit [DecidableEq κ] in
/-- What happens to the disablers does not depend on what is known of them. -/
theorem map_record (f : α → β) (fresh : α) (call : WarningCall κ) :
    (record fresh known call).map (Option.map f) = record (f fresh) (known.map (Option.map f)) call := by
  cases call with
  | warn site => rfl
  | construct => simp [record]
  | copy i => rw [record, record, List.map_append, List.map_singleton, join_map]
  | assign i j => rw [record, record, List.map_set, join_map]
  | destroy i => simp [record, List.map_set]

end

variable {calls : List (WarningCall κ)} {call : WarningCall κ} {site : κ}
  {w left : PerformanceWarnings κ} {i k : Nat}

omit [DecidableEq κ] in
theorem recorded_snoc :
    recorded (calls ++ [call]) = record (!(recorded calls).any Option.isSome) (recorded calls) call := by
  rw [recorded, List.foldl_append]
  rfl

omit [DecidableEq κ] in
theorem alive_destroy : Alive (calls ++ [.destroy i]) k ↔ k ≠ i ∧ Alive calls k := by
  rw [Alive, recorded_snoc, record, join_set_none]
  by_cases same : k = i <;> simp [same, Alive]

omit [DecidableEq κ] in
theorem alive_construct : Alive (calls ++ [.construct]) k ↔ k = (recorded calls).length ∨ Alive calls k := by
  rw [Alive, recorded_snoc, record, join_concat]
  by_cases same : k = (recorded calls).length <;> simp [same, Alive]

omit [DecidableEq κ] in
/-- A disabler stays alive until it is destroyed. -/
theorem Alive.step (alive : Alive calls k) (used : ∀ i ∈ uses call, Alive calls i)
    (kept : call ≠ .destroy k) :
    Alive (calls ++ [call]) k := by
  have inside := lt_length_of_isSome alive
  rw [Alive, recorded_snoc]
  cases call with
  | warn site => exact alive
  | construct => rwa [record, join_concat, if_neg inside.ne]
  | copy i => rwa [record, join_concat, if_neg inside.ne]
  | assign i j =>
    rw [record, List.getElem?_set]
    split
    · rw [if_pos (by omega), Option.join_some]
      exact used j (by simp [uses])
    · exact alive
  | destroy i =>
    rw [record, join_set_none, if_neg fun same => kept (congrArg _ same.symm)]
    exact alive

variable [Build] {text : κ → String} {written : List Char}

/-- Whether warnings are disabled after a call. -/
def disabledAfter (w : PerformanceWarnings κ) : WarningCall κ → Bool
  | .construct => true
  | .destroy i => w.disabled && w.disablers[i]?.join == some true
  | _ => w.disabled

theorem alive_of_returned (step : run text call w = .returned left) :
    ∀ i ∈ uses call, w.disablers[i]?.join.isSome = true := by
  cases call with
  | warn site => nofun
  | construct => nofun
  | copy i =>
    cases found : w.disablers[i]?.join with
    | none => simp [run, found] at step
    | some previously => simp [uses, found]
  | assign i j =>
    cases found : w.disablers[i]?.join with
    | none => simp [run, found] at step
    | some _ =>
      cases source : w.disablers[j]?.join with
      | none => simp [run, found, source] at step
      | some previously => simp [uses, found, source]
  | destroy i =>
    cases found : w.disablers[i]?.join with
    | none => simp [run, found] at step
    | some previously => simp [uses, found]

/-- All that a call on disablers that are alive does, unless it is a warning. -/
theorem run_of_alive (text : κ → String) (alive : ∀ i ∈ uses call, w.disablers[i]?.join.isSome = true)
    (silent : ∀ site, call ≠ .warn site) :
    run text call w = .returned { w with disabled := disabledAfter w call,
                                         disablers := record w.disabled w.disablers call } := by
  cases call with
  | warn site => exact absurd rfl (silent site)
  | construct => rfl
  | copy i =>
    obtain ⟨previously, found⟩ := Option.isSome_iff_exists.mp (alive i (List.mem_singleton.mpr rfl))
    simp only [run, found, record, disabledAfter]
  | assign i j =>
    obtain ⟨_, found⟩ := Option.isSome_iff_exists.mp (alive i (by simp [uses]))
    obtain ⟨previously, source⟩ := Option.isSome_iff_exists.mp (alive j (by simp [uses]))
    simp only [run, found, source, record, disabledAfter]
  | destroy i =>
    obtain ⟨previously, found⟩ := Option.isSome_iff_exists.mp (alive i (List.mem_singleton.mpr rfl))
    cases previously <;> simp [run, found, record, disabledAfter, enable]

/-- What a warning does. -/
theorem run_warn (text : κ → String) (site : κ) (w : PerformanceWarnings κ) :
    ∃ left, run text (.warn site) w = .returned left ∧ left.disabled = w.disabled ∧
      left.disablers = w.disablers := by
  by_cases first : Build.isDebug = true ∧ site ∉ w.warned
  · exact ⟨_, if_pos first, rfl, rfl⟩
  · exact ⟨_, if_neg first, rfl, rfl⟩

/-- The disablers after a call. -/
theorem left_eq (step : run text call w = .returned left) :
    left.disabled = disabledAfter w call ∧ left.disablers = record w.disabled w.disablers call := by
  by_cases warning : ∃ site, call = .warn site
  · obtain ⟨site, rfl⟩ := warning
    obtain ⟨_, returned, disabled, same⟩ := run_warn text site w
    cases step.symm.trans returned
    exact ⟨disabled, same⟩
  · have returned := run_of_alive text (alive_of_returned step) (not_exists.mp warning)
    cases step.symm.trans returned
    exact ⟨rfl, rfl⟩

/-- Which disablers are alive depends on the calls alone, not on what is stored in them. -/
theorem alive_of_run (runs : Run (Returning (run text)) (start κ ⟨written, 0⟩) calls w) (i : Nat) :
    w.disablers[i]?.join.isSome = true ↔ Alive calls i := by
  have same : w.disablers.map (Option.map fun _ => ()) = (recorded calls).map (Option.map fun _ => ()) := by
    induction calls using List.reverseRecOn generalizing w with
    | nil =>
      obtain rfl := Run.nil_iff.mp runs
      rfl
    | append_singleton calls call ih =>
      obtain ⟨v, before, step⟩ := Run.snoc_iff.mp runs
      rw [(left_eq step).2, recorded_snoc, map_record, map_record, ih before]
  have entry := congrArg (fun known => known[i]?.join.isSome) same
  simp only [join_map, Option.isSome_map] at entry
  rw [entry, Alive]

theorem exists_run_iff (text : κ → String) (written : List Char) (calls : List (WarningCall κ)) :
    (∃ w, Run (Returning (run text)) (start κ ⟨written, 0⟩) calls w) ↔ Defined calls := by
  induction calls using List.reverseRecOn with
  | nil => exact iff_of_true ⟨_, .start⟩ .nil
  | append_singleton calls call ih =>
    rw [Defined, atEach_snoc, ← Defined, ← ih]
    constructor
    · rintro ⟨w, runs⟩
      obtain ⟨v, before, step⟩ := Run.snoc_iff.mp runs
      exact ⟨⟨v, before⟩, fun i used => (alive_of_run before i).mp (alive_of_returned step i used)⟩
    · rintro ⟨⟨v, before⟩, alive⟩
      have used (i : Nat) (used : i ∈ uses call) := (alive_of_run before i).mpr (alive i used)
      by_cases warning : ∃ site, call = .warn site
      · obtain ⟨site, rfl⟩ := warning
        obtain ⟨left, returned, _⟩ := run_warn text site v
        exact ⟨left, Run.snoc_iff.mpr ⟨v, before, returned⟩⟩
      · exact ⟨_, Run.snoc_iff.mpr ⟨v, before, run_of_alive text used (not_exists.mp warning)⟩⟩

/-- What is stored in the disablers, and whether warnings are disabled, as it is meant to be. -/
structure Agrees (calls : List (WarningCall κ)) (w : PerformanceWarnings κ) : Prop where
  disablers : w.disablers = (recorded calls).map (Option.map not)
  disabled : w.disabled = true ↔ ∃ i, Alive calls i

omit [DecidableEq κ] [Build] in
theorem Agrees.start : Agrees [] (start κ ⟨written, 0⟩) :=
  ⟨rfl, by simp [PerformanceWarnings.start, Alive, recorded]⟩

omit [DecidableEq κ] [Build] in
theorem Agrees.disabled_eq (agrees : Agrees calls w) : w.disabled = (recorded calls).any Option.isSome := by
  rw [Bool.eq_iff_iff, agrees.disabled, any_isSome_iff]
  rfl

/-- A disabler that is constructed stores whether it is not an outer one. -/
theorem Agrees.left_disablers (agrees : Agrees calls w) (step : run text call w = .returned left) :
    left.disablers = (recorded (calls ++ [call])).map (Option.map not) := by
  rw [(left_eq step).2, recorded_snoc, map_record, agrees.disablers, agrees.disabled_eq, Bool.not_not]

/-- A call keeps warnings disabled just as long as a disabler is alive, unless it destroys the wrong one. -/
theorem Agrees.disabled_iff (agrees : Agrees calls w) (step : run text call w = .returned left) :
    (left.disabled = true ↔ ∃ k, Alive (calls ++ [call]) k) ↔
      ∀ i, call = .destroy i → (Outer calls i ↔ ∀ k, Alive calls k → k = i) := by
  have used (i : Nat) (used : i ∈ uses call) : Alive calls i := by
    have alive := alive_of_returned step i used
    rwa [agrees.disablers, join_map, Option.isSome_map] at alive
  have disabled := (left_eq step).1
  cases call with
  | warn site =>
    refine iff_of_true ?_ nofun
    have same := agrees.disabled
    unfold Alive at same ⊢
    rwa [disabled, recorded_snoc]
  | construct =>
    refine iff_of_true (iff_of_true disabled ⟨(recorded calls).length, ?_⟩) nofun
    rw [Alive, recorded_snoc, record, join_concat, if_pos rfl]
    rfl
  | copy i =>
    have alive := used i (List.mem_singleton.mpr rfl)
    refine iff_of_true (iff_of_true ?_ ⟨i, alive.step used nofun⟩) nofun
    rw [disabled]
    exact agrees.disabled.mpr ⟨i, alive⟩
  | assign i j =>
    have alive := used i (List.mem_cons_self ..)
    refine iff_of_true (iff_of_true ?_ ⟨i, alive.step used nofun⟩) nofun
    rw [disabled]
    exact agrees.disabled.mpr ⟨i, alive⟩
  | destroy i =>
    have alive := used i (List.mem_singleton.mpr rfl)
    have off := agrees.disabled.mpr ⟨i, alive⟩
    obtain ⟨outer, found⟩ := Option.isSome_iff_exists.mp alive
    have stays : left.disabled = !outer := by
      rw [disabled, disabledAfter, off, agrees.disablers, join_map, found]
      cases outer <;> rfl
    have others : (∃ k, Alive (calls ++ [.destroy i]) k) ↔ ¬∀ k, Alive calls k → k = i := by
      simp only [alive_destroy, not_forall, exists_prop]
      exact exists_congr fun k => and_comm
    simp only [WarningCall.destroy.injEq, forall_eq', Outer, found, stays, others]
    cases outer <;> simp

theorem Agrees.step (agrees : Agrees calls w) (step : run text call w = .returned left)
    (restores : ∀ i, call = .destroy i → (Outer calls i ↔ ∀ k, Alive calls k → k = i)) :
    Agrees (calls ++ [call]) left :=
  ⟨agrees.left_disablers step, (agrees.disabled_iff step).mpr restores⟩

/-- Warnings are disabled as they are meant to be in a whole run exactly when each disabler is destroyed in
time. -/
theorem agrees_iff (runs : Run (Returning (run text)) (start κ ⟨written, 0⟩) calls w) :
    ((∀ pre v, pre <+: calls → Run (Returning (run text)) (start κ ⟨written, 0⟩) pre v →
      (v.disabled = true ↔ ∃ i, Alive pre i)) ↔ Restores calls) ∧ (Restores calls → Agrees calls w) := by
  induction calls using List.reverseRecOn generalizing w with
  | nil =>
    obtain rfl := Run.nil_iff.mp runs
    refine ⟨iff_of_true (fun pre v isPrefix runs => ?_) .nil, fun _ => .start⟩
    obtain rfl := List.prefix_nil.mp isPrefix
    obtain rfl := Run.nil_iff.mp runs
    exact Agrees.start.disabled
  | append_singleton calls call ih =>
    obtain ⟨v, before, step⟩ := Run.snoc_iff.mp runs
    obtain ⟨meant, agrees⟩ := ih before
    rw [Restores, atEach_snoc, ← Restores]
    refine ⟨⟨fun always => ?_, ?_⟩, fun ⟨restores, last⟩ => (agrees restores).step step last⟩
    · have restores := meant.mp fun pre u isPrefix => always pre u (isPrefix.trans (List.prefix_append ..))
      exact ⟨restores, ((agrees restores).disabled_iff step).mp (always _ w (List.prefix_refl _) runs)⟩
    · rintro ⟨restores, last⟩ pre u isPrefix runs'
      rcases List.prefix_concat_iff.mp isPrefix with rfl | isPrefix
      · cases runs.functional Returning.functional runs'
        exact ((agrees restores).step step last).disabled
      · exact meant.mpr restores pre u isPrefix runs'

omit [DecidableEq κ] [Build] in
/-- Of local objects, it is the oldest one that is the outer one. -/
theorem outer_iff (whole : Nested calls) (alive : Alive calls k) :
    Outer calls k ↔ ∀ j, Alive calls j → k ≤ j := by
  induction calls using List.reverseRecOn generalizing k with
  | nil => cases alive
  | append_singleton calls call ih =>
    obtain ⟨nested, noCopy, noAssignment, youngest⟩ := atEach_snoc.mp whole
    cases call with
    | warn site =>
      have outer := ih nested (k := k)
      unfold Alive Outer at *
      rw [recorded_snoc] at *
      exact outer alive
    | construct =>
      simp only [alive_construct, forall_eq_or_imp]
      rcases alive_construct.mp alive with rfl | alive
      · rw [Outer, recorded_snoc, record, join_concat, if_pos rfl, Option.some.injEq, Bool.not_eq_true',
          ← Bool.not_eq_true, any_isSome_iff, not_exists]
        constructor
        · exact fun none => ⟨Nat.le_refl _, fun j found => absurd found (none j)⟩
        · exact fun ⟨_, later⟩ j found => absurd (lt_length_of_isSome found) (later j found).not_gt
      · have inside := lt_length_of_isSome alive
        rw [Outer, recorded_snoc, record, join_concat, if_neg inside.ne, ← Outer, ih nested alive]
        exact (and_iff_right inside.le).symm
    | copy i => exact absurd rfl (noCopy i)
    | assign i j => exact absurd rfl (noAssignment i j)
    | destroy i =>
      obtain ⟨other, alive⟩ := alive_destroy.mp alive
      obtain ⟨_, youngest⟩ := youngest i rfl
      rw [Outer, recorded_snoc, record, join_set_none, if_neg other, ← Outer, ih nested alive]
      refine ⟨fun oldest j found => oldest j (alive_destroy.mp found).2, fun oldest j found => ?_⟩
      by_cases last : j = i
      · exact last ▸ youngest k alive
      · exact oldest j (alive_destroy.mpr ⟨last, found⟩)

omit [DecidableEq κ] [Build] in
/-- Disablers that are local objects are never used too early or too late, and are destroyed in time. -/
theorem Nested.restores (nested : Nested calls) : Defined calls ∧ Restores calls := by
  constructor
  · intro before call isPrefix i used
    obtain ⟨noCopy, noAssignment, youngest⟩ := nested before call isPrefix
    cases call with
    | warn site => cases used
    | construct => cases used
    | copy j => exact absurd rfl (noCopy j)
    | assign j k => exact absurd rfl (noAssignment j k)
    | destroy j =>
      obtain rfl := List.mem_singleton.mp used
      exact (youngest _ rfl).1
  · rintro before _ isPrefix i rfl
    obtain ⟨_, _, youngest⟩ := nested before _ isPrefix
    obtain ⟨alive, youngest⟩ := youngest i rfl
    have earlier : Nested before := fun pre call shorter =>
      nested pre call (shorter.trans ((List.prefix_append ..).trans isPrefix))
    rw [outer_iff earlier alive]
    exact forall₂_congr fun k found => (youngest k found).ge_iff_eq

omit [Build] in
theorem reports_eq_some : reports calls call = some site ↔
    call = .warn site ∧ .warn site ∉ calls ∧ ¬(recorded calls).any Option.isSome = true := by
  cases call with
  | warn other =>
    rw [reports, Option.ite_none_right_eq_some, Option.some.injEq, WarningCall.warn.injEq]
    constructor
    · rintro ⟨first, rfl⟩
      exact ⟨rfl, first⟩
    · rintro ⟨rfl, first⟩
      exact ⟨first, rfl⟩
  | construct => simp [reports]
  | copy i => simp [reports]
  | assign i j => simp [reports]
  | destroy i => simp [reports]

omit [Build] in
theorem reported_snoc : reported (calls ++ [call]) = reported calls ++ (reports calls call).toList := by
  unfold reported
  rw [List.length_append, List.length_singleton, List.range_succ, List.filterMap_append]
  congr 1
  · refine List.filterMap_congr fun i inside => ?_
    have inside := List.mem_range.mp inside
    rw [List.getElem?_append_left inside, List.take_append_of_le_length inside.le]
  · simp only [List.filterMap_cons, List.filterMap_nil, List.getElem?_concat_length, Option.bind_some,
      List.take_left]
    cases reports calls call <;> rfl

omit [Build] in
/-- It is the first time that counts: a place that has been reached under a disabler is never reported. -/
theorem mem_reported : site ∈ reported calls ↔
    ∃ pre post, calls = pre ++ .warn site :: post ∧ .warn site ∉ pre ∧
      ¬(recorded pre).any Option.isSome = true := by
  simp only [reported, List.mem_filterMap, List.mem_range, Option.bind_eq_some_iff, reports_eq_some]
  constructor
  · rintro ⟨i, inside, _, found, rfl, fresh, none⟩
    obtain ⟨_, same⟩ := List.getElem?_eq_some_iff.mp found
    exact ⟨calls.take i, calls.drop (i + 1), by rw [← same, List.getElem_cons_drop, List.take_append_drop],
      fresh, none⟩
  · rintro ⟨pre, post, rfl, fresh, none⟩
    exact ⟨pre.length, by simp, _, by simp, rfl, by simpa using fresh, by simpa using none⟩

omit [Build] in
/-- No place is reported twice. -/
theorem nodup_reported (calls : List (WarningCall κ)) : (reported calls).Nodup := by
  induction calls using List.reverseRecOn with
  | nil => exact .nil
  | append_singleton calls call ih =>
    rw [reported_snoc, List.nodup_append']
    refine ⟨ih, ?_, ?_⟩
    · cases reports calls call <;> simp
    · intro site before last
      obtain ⟨_, fresh, _⟩ := reports_eq_some.mp (by simpa using last)
      obtain ⟨pre, post, rfl, _⟩ := mem_reported.mp before
      exact fresh (by simp)

/-- What the places that have been reached have written. -/
structure Wrote (text : κ → String) (written : List Char) (calls : List (WarningCall κ))
    (w : PerformanceWarnings κ) : Prop where
  warned : ∀ site, site ∈ w.warned ↔ Build.isDebug = true ∧ .warn site ∈ calls
  out : w.out =
    ⟨written ++ if Build.isDebug then (reported calls).flatMap fun site => message (text site) else [], 0⟩

theorem Wrote.start : Wrote text written [] (start κ ⟨written, 0⟩) :=
  ⟨by simp [PerformanceWarnings.start], by simp [PerformanceWarnings.start, reported]⟩

omit [DecidableEq κ] [Build] in
theorem report_eq {before : List Char} (out : w.out = ⟨before, 0⟩) (text : String) :
    w.report text = ⟨before ++ if w.disabled then [] else message text, 0⟩ := by
  unfold report message
  rw [out]
  generalize "[PERF] ".toList = opening,
    "\n\tPerformance can be affected. This warning is only shown once.".toList = closing
  cases w.disabled <;> simp

theorem Wrote.warn (wrote : Wrote text written calls w) (agrees : Agrees calls w)
    (step : run text (.warn site) w = .returned left) : Wrote text written (calls ++ [.warn site]) left := by
  have seen := wrote.warned site
  by_cases first : Build.isDebug = true ∧ site ∉ w.warned
  · have fresh : .warn site ∉ calls := fun member => first.2 (seen.mpr ⟨first.1, member⟩)
    cases step.symm.trans (if_pos first)
    refine ⟨fun other => by simp [wrote.warned other, first.1], ?_⟩
    rw [report_eq wrote.out, reported_snoc]
    have quiet := agrees.disabled_eq
    cases off : w.disabled <;> rw [off] at quiet <;> simp [reports, fresh, first.1, ← quiet]
  · have again (debug : Build.isDebug = true) : .warn site ∈ calls := by
      by_contra fresh
      exact first ⟨debug, fun member => fresh (seen.mp member).2⟩
    cases step.symm.trans (if_neg first)
    refine ⟨fun other => ?_, ?_⟩
    · rw [wrote.warned other]
      by_cases same : other = site
      · subst same
        simpa using again
      · simp [same]
    · rw [wrote.out, reported_snoc]
      cases debug : (Build.isDebug : Bool)
      · rfl
      · simp [reports, again debug]

theorem Wrote.step (wrote : Wrote text written calls w) (agrees : Agrees calls w)
    (step : run text call w = .returned left) : Wrote text written (calls ++ [call]) left := by
  by_cases warning : ∃ site, call = .warn site
  · obtain ⟨site, rfl⟩ := warning
    exact wrote.warn agrees step
  · have silent := not_exists.mp warning
    cases step.symm.trans (run_of_alive text (alive_of_returned step) silent)
    have none : reports calls call = none := by
      rw [Option.eq_none_iff_forall_ne_some]
      exact fun site reports => silent site (reports_eq_some.mp reports).1
    refine ⟨fun site => ?_, ?_⟩
    · rw [List.mem_append, List.mem_singleton, or_iff_left (Ne.symm (silent site))]
      exact wrote.warned site
    · rw [reported_snoc, none, Option.toList_none, List.append_nil]
      exact wrote.out

theorem wrote_of_run (runs : Run (Returning (run text)) (start κ ⟨written, 0⟩) calls w)
    (restores : Restores calls) :
    Wrote text written calls w := by
  induction calls using List.reverseRecOn generalizing w with
  | nil =>
    obtain rfl := Run.nil_iff.mp runs
    exact .start
  | append_singleton calls call ih =>
    obtain ⟨v, before, step⟩ := Run.snoc_iff.mp runs
    obtain ⟨restores, _⟩ := atEach_snoc.mp restores
    exact (ih before restores).step ((agrees_iff before).2 restores) step

/-- Disablers can be copied, assigned and destroyed in any order, as long as they are alive. Warnings are
disabled exactly while one is alive if and only if outer disablers are the last ones to be destroyed, and no
others are. Then a debug build has written one message for each place that was reached for the first time
when no disabler was alive, in the order in which they were reached, and no other; a release build writes
none. Local objects are used in this way. -/
theorem reported_run (text : κ → String) (written : List Char) (calls : List (WarningCall κ)) :
    ((∃ w, Run (Returning (run text)) (start κ ⟨written, 0⟩) calls w) ↔ Defined calls) ∧
      (Defined calls → ((∀ pre w, pre <+: calls → Run (Returning (run text)) (start κ ⟨written, 0⟩) pre w →
        (w.disabled = true ↔ ∃ i, Alive pre i)) ↔ Restores calls)) ∧
      (Restores calls → ∀ w, Run (Returning (run text)) (start κ ⟨written, 0⟩) calls w →
        w.out =
          ⟨written ++ if Build.isDebug then (reported calls).flatMap fun site => message (text site) else [],
            0⟩) ∧
      (reported calls).Nodup ∧ (Nested calls → Defined calls ∧ Restores calls) := by
  refine ⟨exists_run_iff text written calls, fun defined => ?_,
    fun restores w runs => (wrote_of_run runs restores).out,
    nodup_reported calls, Nested.restores⟩
  obtain ⟨w, runs⟩ := (exists_run_iff text written calls).mpr defined
  exact (agrees_iff runs).1

/-- A printed table uses up the warning of its columns: only strings are still reported. -/
example : reported [.construct, .warn ColumnType.int, .destroy 0, .warn .int, .warn .string] = [.string] :=
  by decide

end PerformanceWarnings

end Opossum
