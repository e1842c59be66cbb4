import Mathlib.Data.List.Flatten
import Mathlib.Data.List.Forall2
import Mathlib.Tactic.Ring

/-!
# Logs cut into segments

An append-only log that is stored in segments. Only the last segment, `back`, is written. With a
capacity other than `0`, an append to a full back opens a new segment first; a segment can also be
opened on request, and the back is then closed whatever its length.
-/

universe u

structure PartitionedLog (α : Type u) where
  closed : List (List α)
  back : List α

namespace PartitionedLog
variable {α : Type u} {capacity : Nat} {log : PartitionedLog α} {x : α}

def empty : PartitionedLog α := ⟨[], []⟩

def segments (log : PartitionedLog α) : List (List α) := log.closed ++ [log.back]

/-- What has been appended, in order. -/
def rows (log : PartitionedLog α) : List α := log.segments.flatten

def openSegment (log : PartitionedLog α) : PartitionedLog α := ⟨log.segments, []⟩

/-- The back can take no more rows. -/
def Full (capacity : Nat) (log : PartitionedLog α) : Prop :=
  capacity ≠ 0 ∧ log.back.length = capacity

instance : Decidable (Full capacity log) := inferInstanceAs (Decidable (_ ∧ _))

/-- An append to a log whose back has room. -/
def push (x : α) (log : PartitionedLog α) : PartitionedLog α := ⟨log.closed, log.back ++ [x]⟩

def append (capacity : Nat) (log : PartitionedLog α) (x : α) : PartitionedLog α :=
  push x (if log.Full capacity then log.openSegment else log)

@[simp] theorem rows_empty : (empty : PartitionedLog α).rows = [] := rfl

theorem rows_eq : log.rows = log.closed.flatten ++ log.back := by
  simp [rows, segments]

@[simp] theorem rows_openSegment : log.openSegment.rows = log.rows := by
  simp [rows, segments, openSegment]

@[simp] theorem rows_push : (log.push x).rows = log.rows ++ [x] := by
  simp [rows_eq, push]

@[simp] theorem rows_append : (log.append capacity x).rows = log.rows ++ [x] := by
  unfold append
  split <;> simp

theorem length_segments : log.segments.length = log.closed.length + 1 := by
  simp [segments]

theorem length_segments_openSegment :
    log.openSegment.segments.length = log.segments.length + 1 := by
  simp [segments, openSegment]

theorem length_segments_append_le :
    (log.append capacity x).segments.length ≤ log.segments.length + 1 := by
  unfold append
  split <;> simp [openSegment, push, segments]

theorem rows_foldl_append (capacity : Nat) (xs : List α) (log : PartitionedLog α) :
    (xs.foldl (append capacity) log).rows = log.rows ++ xs := by
  induction xs generalizing log with
  | nil => simp
  | cons x xs ih => rw [List.foldl_cons, ih, rows_append, List.append_assoc, List.singleton_append]

theorem length_le_rows {segment : List α} (member : segment ∈ log.segments) :
    segment.length ≤ log.rows.length := by
  exact (List.sublist_flatten_of_mem member).length_le

theorem back_mem (log : PartitionedLog α) : log.back ∈ log.segments :=
  List.mem_append_right _ (List.mem_singleton.mpr rfl)

/-- The shape of a log in which segments have been opened by appends only: nothing but the back has
room, and the back is empty only in the empty log. -/
structure Packed (capacity : Nat) (log : PartitionedLog α) : Prop where
  closed : ∀ segment ∈ log.closed, capacity ≠ 0 ∧ segment.length = capacity
  back : capacity ≠ 0 → log.back.length ≤ capacity
  started : log.closed ≠ [] → log.back ≠ []

theorem Packed.empty : Packed capacity (empty : PartitionedLog α) :=
  ⟨by simp [PartitionedLog.empty], by simp [PartitionedLog.empty], by simp [PartitionedLog.empty]⟩

theorem Packed.append (packed : log.Packed capacity) : (log.append capacity x).Packed capacity := by
  unfold PartitionedLog.append
  split
  · rename_i full
    refine ⟨fun segment member => ?_, fun finite => ?_, fun _ => by simp [push]⟩
    · rcases List.mem_append.mp member with old | last
      · exact packed.closed segment old
      · exact List.mem_singleton.mp last ▸ full
    · simpa [push, openSegment] using Nat.one_le_iff_ne_zero.mpr finite
  · rename_i room
    refine ⟨packed.closed, fun finite => ?_, fun _ => by simp [push]⟩
    have below := packed.back finite
    have different : log.back.length ≠ capacity := fun same => room ⟨finite, same⟩
    simp only [push, List.length_append, List.length_singleton]
    omega

theorem Packed.foldl_append (xs : List α) (packed : log.Packed capacity) :
    (xs.foldl (PartitionedLog.append capacity) log).Packed capacity := by
  induction xs generalizing log with
  | nil => exact packed
  | cons x xs ih => exact ih packed.append

theorem Packed.closed_eq_nil (packed : log.Packed 0) : log.closed = [] :=
  List.eq_nil_iff_forall_not_mem.mpr fun segment member => (packed.closed segment member).1 rfl

theorem Packed.length_rows (packed : log.Packed capacity) :
    log.rows.length = log.closed.length * capacity + log.back.length := by
  have sizes : log.closed.map List.length = List.replicate log.closed.length capacity :=
    List.map_eq_replicate_iff.mpr fun segment member => (packed.closed segment member).2
  have closed : log.closed.flatten.length = log.closed.length * capacity := by
    rw [List.length_flatten, sizes, List.sum_replicate_nat]
  rw [rows_eq, List.length_append, closed]

/-- The number of segments is the number of rows over the capacity, rounded up, and at least one. -/
theorem Packed.length_segments_eq (packed : log.Packed capacity) (finite : 0 < capacity) :
    log.segments.length = max 1 ((log.rows.length + capacity - 1) / capacity) := by
  have below := packed.back (Nat.pos_iff_ne_zero.mp finite)
  rw [packed.length_rows, length_segments]
  by_cases none : log.back = []
  · have fresh : log.closed = [] := by
      by_contra some
      exact packed.started some none
    simp only [none, fresh, List.length_nil, Nat.zero_mul, Nat.add_zero, Nat.zero_add]
    rw [Nat.div_eq_of_lt (by omega)]
    rfl
  · have positive := List.length_pos_iff.mpr none
    have place : (log.closed.length * capacity + log.back.length + capacity - 1) / capacity =
        log.closed.length + 1 := by
      rw [Nat.div_eq_iff finite]
      constructor
      · rw [Nat.add_mul]
        omega
      · rw [Nat.add_mul]
        omega
    rw [place]
    omega

/-- No segment is opened without a row. -/
theorem Packed.length_segments_le (packed : log.Packed capacity) :
    log.segments.length ≤ max 1 log.rows.length := by
  rw [length_segments, packed.length_rows]
  by_cases fresh : log.closed = []
  · simp [fresh]
  · obtain ⟨segment, member⟩ := List.exists_mem_of_ne_nil _ fresh
    have positive := List.length_pos_iff.mpr (packed.started fresh)
    have finite := Nat.pos_of_ne_zero (packed.closed segment member).1
    have full := Nat.le_mul_of_pos_right log.closed.length finite
    omega

theorem Packed.length_segment (packed : log.Packed capacity) (finite : 0 < capacity) {i : Nat}
    {segment : List α} (found : log.segments[i]? = some segment) :
    segment.length ≤ capacity ∧ (i + 1 < log.segments.length → segment.length = capacity) := by
  rw [length_segments]
  by_cases inClosed : i < log.closed.length
  · rw [segments, List.getElem?_append_left inClosed] at found
    have full := (packed.closed segment (List.mem_of_getElem? found)).2
    exact ⟨full.le, fun _ => full⟩
  · have member := List.mem_of_getElem? found
    obtain ⟨inside, _⟩ := List.getElem?_eq_some_iff.mp found
    rw [segments, List.getElem?_append_right (by omega)] at found
    have last := List.mem_singleton.mp (List.mem_of_getElem? found)
    exact ⟨last ▸ packed.back (Nat.pos_iff_ne_zero.mp finite), fun before => by omega⟩

/-- Row `j` is at offset `j % capacity` of segment `j / capacity`. -/
theorem Packed.getElem?_rows (packed : log.Packed capacity) (finite : 0 < capacity) {j : Nat}
    (found : log.rows[j]? = some x) :
    ∃ segment, log.segments[j / capacity]? = some segment ∧ segment[j % capacity]? = some x := by
  obtain ⟨closed, back⟩ := log
  induction closed generalizing j with
  | nil =>
    have below := packed.back (Nat.pos_iff_ne_zero.mp finite)
    have inBack : back[j]? = some x := by simpa [rows, segments] using found
    obtain ⟨inside, _⟩ := List.getElem?_eq_some_iff.mp inBack
    by_cases last : j < capacity
    · exact ⟨back, by simp [segments, Nat.div_eq_of_lt last], by rwa [Nat.mod_eq_of_lt last]⟩
    · exact absurd (inside.trans_le below) last
  | cons first closed ih =>
    obtain ⟨_, size⟩ := packed.closed first (List.mem_cons_self ..)
    have split : (PartitionedLog.mk (first :: closed) back).rows =
        first ++ (PartitionedLog.mk closed back).rows := by
      simp [rows, segments]
    rw [split] at found
    by_cases inFirst : j < capacity
    · rw [List.getElem?_append_left (by omega)] at found
      exact ⟨first, by simp [segments, Nat.div_eq_of_lt inFirst], by rwa [Nat.mod_eq_of_lt inFirst]⟩
    · rw [List.getElem?_append_right (by omega), size] at found
      have later : (PartitionedLog.mk closed back).Packed capacity :=
        ⟨fun segment member => packed.closed segment (List.mem_cons_of_mem _ member), packed.back,
          fun _ => packed.started (by simp)⟩
      obtain ⟨segment, atSegment, atRow⟩ := ih later found
      have above : j / capacity = (j - capacity) / capacity + 1 := by
        rw [← Nat.add_div_right _ finite]
        congr 1
        omega
      refine ⟨segment, ?_, ?_⟩
      · rw [above]
        simpa [segments] using atSegment
      · rwa [Nat.mod_eq_sub_mod (by omega)]

/-- Without a capacity there is one segment. -/
theorem Packed.segments_eq (packed : log.Packed 0) : log.segments = [log.rows] := by
  simp [segments, rows, packed.closed_eq_nil]

/-- The places in segments that are counted from `k` on. -/
def positionsFrom : Nat → List (List α) → List (Nat × Nat)
  | _, [] => []
  | k, segment :: segments =>
    (List.range segment.length).map (fun offset => (k, offset)) ++ positionsFrom (k + 1) segments

/-- Where the rows are, in the order of the rows. -/
def positions (log : PartitionedLog α) : List (Nat × Nat) := positionsFrom 0 log.segments

theorem mem_positionsFrom {k i r : Nat} {segments : List (List α)} :
    (i, r) ∈ positionsFrom k segments ↔
      k ≤ i ∧ ∃ segment, segments[i - k]? = some segment ∧ r < segment.length := by
  induction segments generalizing k with
  | nil => simp [positionsFrom]
  | cons first segments ih =>
    simp only [positionsFrom, List.mem_append, List.mem_map, List.mem_range, Prod.mk.injEq, ih]
    constructor
    · rintro (⟨_, inside, rfl, rfl⟩ | ⟨above, segment, atI, inside⟩)
      · exact ⟨le_rfl, first, by simp, inside⟩
      · exact ⟨by omega, segment, by rwa [show i - k = i - (k + 1) + 1 by omega, List.getElem?_cons_succ],
          inside⟩
    · rintro ⟨above, segment, atI, inside⟩
      by_cases here : k = i
      · subst here
        obtain rfl : first = segment := by simpa using atI
        exact Or.inl ⟨r, inside, rfl, rfl⟩
      · rw [show i - k = i - (k + 1) + 1 by omega, List.getElem?_cons_succ] at atI
        exact Or.inr ⟨by omega, segment, atI, inside⟩

theorem mem_positions {i r : Nat} :
    (i, r) ∈ log.positions ↔ ∃ segment, log.segments[i]? = some segment ∧ r < segment.length := by
  simp [positions, mem_positionsFrom]

theorem positionsFrom_append (k : Nat) (segments later : List (List α)) :
    positionsFrom k (segments ++ later) =
      positionsFrom k segments ++ positionsFrom (k + segments.length) later := by
  induction segments generalizing k with
  | nil => simp [positionsFrom]
  | cons first segments ih =>
    rw [List.cons_append, positionsFrom, positionsFrom, ih, List.append_assoc, List.length_cons]
    congr 3
    omega

theorem pairwise_positionsFrom (k : Nat) (segments : List (List α)) :
    (positionsFrom k segments).Pairwise fun p q => p.1 < q.1 ∨ p.1 = q.1 ∧ p.2 < q.2 := by
  induction segments generalizing k with
  | nil => exact .nil
  | cons first segments ih =>
    rw [positionsFrom, List.pairwise_append, List.pairwise_map]
    refine ⟨List.pairwise_lt_range.imp fun below => Or.inr ⟨rfl, below⟩, ih (k + 1), ?_⟩
    rintro _ inFirst ⟨i, r⟩ later
    obtain ⟨offset, _, rfl⟩ := List.mem_map.mp inFirst
    exact Or.inl (mem_positionsFrom.mp later).1

/-- The row at each position. -/
theorem forall₂_positionsFrom (k : Nat) (segments : List (List α)) :
    List.Forall₂ (fun p x => ∃ segment, segments[p.1 - k]? = some segment ∧ k ≤ p.1 ∧ segment[p.2]? = some x)
      (positionsFrom k segments) segments.flatten := by
  induction segments generalizing k with
  | nil => exact .nil
  | cons first segments ih =>
    refine List.rel_append ?_ ((ih (k + 1)).imp ?_)
    · rw [List.forall₂_map_left_iff, List.forall₂_iff_get]
      exact ⟨List.length_range, fun r _ inside => ⟨first, by simp, le_rfl, by simp⟩⟩
    · rintro ⟨i, r⟩ x ⟨segment, atI, above, atR⟩
      exact ⟨segment, by rwa [show i - k = i - (k + 1) + 1 by omega, List.getElem?_cons_succ], by omega, atR⟩

theorem forall₂_positions (log : PartitionedLog α) :
    List.Forall₂ (fun p x => ∃ segment, log.segments[p.1]? = some segment ∧ segment[p.2]? = some x)
      log.positions log.rows :=
  (forall₂_positionsFrom 0 log.segments).imp fun _ _ ⟨segment, atI, _, atR⟩ => ⟨segment, atI, atR⟩

theorem positions_openSegment : log.openSegment.positions = log.positions := by
  rw [positions, segments, openSegment, positionsFrom_append]
  simp [positionsFrom, positions]

/-- What has a place keeps it. -/
theorem positions_push : log.positions <+: (log.push x).positions := by
  rw [positions, positions, segments, segments, push, positionsFrom_append, positionsFrom_append]
  simp [positionsFrom, List.range_succ, List.prefix_append_right_inj]

theorem positions_append : log.positions <+: (log.append capacity x).positions := by
  unfold append
  split
  · rw [← positions_openSegment]
    exact positions_push
  · exact positions_push

end PartitionedLog
