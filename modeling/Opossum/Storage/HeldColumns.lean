import Opossum.Storage.ColumnPointers
import Opossum.Storage.RowIDs

/-!
# Columns that are held

Tables are made on one heap of columns and called in any order. A pointer to one of their columns can be
held by others as well.
-/

namespace Opossum

open Heap

namespace PointerTables
variable [Build]

def start : OnHeap BaseColumn (List PointerTable) := ⟨[], []⟩

def run : ObjectCall UInt32 TableCall → OnHeap BaseColumn (List PointerTable) →
    Outcome Fault (OnHeap BaseColumn (List PointerTable))
  | .make chunkSize, s =>
    match PointerTable.new chunkSize s.heap with
    | .returned made => .returned ⟨made.heap, s.object ++ [made.object]⟩
    | .stopped fault _ => .stopped fault s
  | .on i call, s => s.atIndex .undefined i (PointerTable.run call)

/-- The same calls on tables that hold their columns. -/
def runOf : ObjectCall UInt32 TableCall → List Table → Outcome Fault (List Table)
  | .make chunkSize, tables =>
    match Table.new chunkSize with
    | .returned made => .returned (tables ++ [made])
    | .stopped fault _ => .stopped fault tables
  | .on i call, tables => Outcome.atIndex .undefined i call.run tables

/-- The tables as they are seen through their pointers. -/
def deref (s : OnHeap BaseColumn (List PointerTable)) : List Table := s.object.map (PointerTable.deref s.heap)

/-- `get_column` of `get_chunk` of one of the tables -/
def getColumn (s : OnHeap BaseColumn (List PointerTable)) (i k j : Nat) : Option Nat := do
  let t ← s.object[i]?
  let chunk ← t.chunks[k]?
  chunk.columns[j]?

/-- The column that is seen there. -/
def columnAt (tables : List Table) (i k j : Nat) : Option BaseColumn := do
  let t ← tables[i]?
  let chunk ← t.chunks[k]?
  chunk.columns[j]?

/-- What one call can do. -/
abbrev Next : OnHeap BaseColumn (List PointerTable) → ObjectCall UInt32 TableCall →
    OnHeap BaseColumn (List PointerTable) → Prop :=
  Caught Fault.Catchable run

theorem caught_runOf_iff {tables left : List Table} {call : ObjectCall UInt32 TableCall} :
    Caught Fault.Catchable runOf tables call left ↔ SharedTables.OnTables tables call left := by
  cases call with
  | make chunkSize =>
    rw [SharedTables.OnTables, Objects.next_make_iff]
    simp [Caught, runOf, Table.new_eq, SharedTables.Makes, eq_comm]
  | on i call =>
    rw [SharedTables.OnTables, Objects.next_on_iff]
    cases atI : tables[i]? with
    | none => simp [Caught, runOf, Outcome.atIndex, atI, Fault.Catchable]
    | some t =>
      have part : runOf (.on i call) tables = (call.run t).within fun u => tables.set i u := by
        simp only [runOf, Outcome.atIndex, atI]
      rw [caught_within_iff part]
      simp [eq_comm]

/-- A table that has been made comes behind the others. -/
theorem leads_made {s : OnHeap BaseColumn (List PointerTable)} {tables : List Table}
    {lost : Nat × Nat × Nat → Prop} {start made : OnHeap BaseColumn PointerTable} {t : Table}
    (shows : tableView.list.Shows s tables) (heap : start.heap = s.heap)
    (empty : start.object.chunks = []) 
    (leads : tableView.Leads BaseColumn.Extends (fun _ => False) start made t) :
    tableView.list.Leads BaseColumn.Extends lost s ⟨made.heap, s.object ++ [made.object]⟩
      (tables ++ [t]) := by
  have length := shows.length_eq
  have nothing (p : Nat × Nat) : tableView.place start.object p = none := by
    show chunkView.list.place start.object.chunks p = none
    rw [empty]
    rfl
  have footprint : Footprint BaseColumn.Extends (fun q => lost (s.object.length, q)) s.heap
      (fun q => tableView.list.place s.object (s.object.length, q)) made.heap
        (tableView.place made.object) := by
    rw [← heap]
    refine leads.footprint.replace nothing fun q a found => ?_
    obtain ⟨old, atEnd, _⟩ := Option.bind_eq_some_iff.mp found
    have inside := (List.getElem?_eq_some_iff.mp atEnd).1
    omega
  exact shows.leads_of_part List.getElem?_concat_length (fun j other => getElem?_concat_ne other)
    (length ▸ List.getElem?_concat_length) (fun j other => getElem?_concat_ne (length ▸ other))
    leads.toShows footprint

theorem run_refines {s : OnHeap BaseColumn (List PointerTable)} {tables : List Table}
    (shows : tableView.list.Shows s tables)
    (call : ObjectCall UInt32 TableCall) : tableView.list.Refines BaseColumn.Extends
      (fun p => ∃ id, call = .on p.1 (.compressChunk id) ∧ p.2.1 = id.toNat) s (run call s)
        (runOf call tables) := by
  cases call with
  | make chunkSize =>
    have refines := PointerTable.new_refines s.heap chunkSize
    simp only [run, runOf]
    generalize PointerTable.new chunkSize s.heap = o, Table.new chunkSize = o' at refines
    cases refines with
    | stopped => exact .stopped (shows.leads_self BaseColumn.Extends.refl)
    | returned leads => exact .returned (leads_made shows rfl rfl leads)
  | on i call =>
    refine .atIndex BaseColumn.Extends.refl _ shows fun t found showsPart => ?_
    refine (PointerTable.run_refines showsPart call).imp fun _ _ leads =>
      ⟨leads.toShows, leads.footprint.mono ?_⟩
    rintro q ⟨id, rfl, same⟩
    exact ⟨id, rfl, same⟩

/-- Compression writes no column. -/
theorem compress_refines {s : OnHeap BaseColumn (List PointerTable)} {tables : List Table}
    (shows : tableView.list.Shows s tables) (i : Nat) (id : ChunkID) :
    tableView.list.Refines Eq (fun _ => True) s
      (run (.on i (.compressChunk id)) s) (runOf (.on i (.compressChunk id)) tables) :=
  .atIndex Eq.refl _ shows fun _ _ showsPart => PointerTable.compressChunk_refines showsPart id
    fun _ => trivial

omit [Build] in
theorem shows_start : tableView.list.Shows start [] :=
  ⟨⟨nofun, nofun⟩, rfl⟩

/-- The place is in a chunk that one of the calls compresses. -/
abbrev Compressed (calls : List (ObjectCall UInt32 TableCall)) (p : Nat × Nat × Nat) : Prop :=
  ∃ call ∈ calls, ∃ id, call = .on p.1 (.compressChunk id) ∧ p.2.1 = id.toNat

variable {s s' : OnHeap BaseColumn (List PointerTable)} {tables left : List Table}
  {calls : List (ObjectCall UInt32 TableCall)}

theorem leads_of_calls (shows : tableView.list.Shows s tables) (later : Run Next s calls s') :
    ∃ left, Run SharedTables.OnTables tables calls left ∧
      tableView.list.Leads BaseColumn.Extends (Compressed calls) s s' left := by
  obtain ⟨left, values, leads⟩ := PointerView.leads_of_run BaseColumn.Extends.refl BaseColumn.Extends.trans
    (fun call s tables shows => run_refines shows call) shows later
  exact ⟨left, values.mono fun _ _ _ _ => caught_runOf_iff.mp, leads⟩

/-- Tables that hold pointers to their columns can be called as tables that hold the columns, and are seen
as these. -/
theorem deref_run_iff : (∃ s, Run Next start calls s ∧ deref s = tables) ↔
    Run SharedTables.OnTables [] calls tables := by
  constructor
  · rintro ⟨s, later, rfl⟩
    obtain ⟨left, values, leads⟩ := leads_of_calls shows_start later
    rwa [show deref s = left from leads.deref]
  · intro values
    obtain ⟨s, later, leads⟩ := PointerView.exists_run BaseColumn.Extends.refl BaseColumn.Extends.trans
      (fun call s tables shows => run_refines shows call) shows_start
        (values.mono fun _ _ _ _ => caught_runOf_iff.mpr)
    exact ⟨s, later, leads.deref⟩

variable {i k j a : Nat}

omit [Build] in
theorem columnAt_of_held (shows : tableView.list.Shows s tables) (held : getColumn s i k j = some a) :
    columnAt tables i k j = s.heap[a]? := by
  obtain ⟨t, atI, held⟩ := Option.bind_eq_some_iff.mp held
  obtain ⟨chunk, atK, atJ⟩ := Option.bind_eq_some_iff.mp held
  obtain ⟨showsTable, seenI⟩ := shows.part atI
  obtain ⟨showsChunk, seenK⟩ := (PointerTable.shows_chunks showsTable).part atK
  obtain ⟨column, seenJ, read⟩ := Pointwise.getElem?_left (PointerChunk.forall₂_columns showsChunk) atJ
  rw [columnAt, seenI, read, ← seenJ]
  exact congrArg (Option.bind · _) seenK

/-- A column that is held is the column of the table until its chunk is compressed. From then on it never
changes. -/
theorem held_run {made : List (ObjectCall UInt32 TableCall)} (reached : Run Next start made s)
    (held : getColumn s i k j = some a) (later : Run Next s calls s') : ∃ column column',
      s.heap[a]? = some column ∧ s'.heap[a]? = some column' ∧ column.Extends column' ∧
        (getColumn s' i k j = some a ∧ columnAt (deref s') i k j = some column' ∨
          (∃ id, .on i (.compressChunk id) ∈ calls ∧ id.toNat = k) ∧
            ∀ more s'', Run Next s' more s'' → s''.heap[a]? = some column') := by
  obtain ⟨tables, _, before⟩ := leads_of_calls shows_start reached
  obtain ⟨left, _, leads⟩ := leads_of_calls before.toShows later
  have inside := before.owned.inside (i, k, j) a held
  obtain ⟨column', found', extended⟩ := leads.footprint.grown a _ (List.getElem?_eq_getElem inside)
  refine ⟨_, column', List.getElem?_eq_getElem inside, found', extended, ?_⟩
  rcases leads.footprint.stays_or before.owned (show tableView.list.place s.object
    (i, k, j) = some a from held) with
    stays | ⟨⟨call, member, id, rfl, here⟩, nowhere⟩
  · have seen : deref s' = left := leads.deref
    exact Or.inl ⟨stays, by rw [seen, columnAt_of_held leads.toShows stays, found']⟩
  · refine Or.inr ⟨⟨id, member, here.symm⟩, fun more s'' rest => ?_⟩
    obtain ⟨_, _, after⟩ := leads_of_calls leads.toShows rest
    rw [after.footprint.kept a (List.getElem?_eq_some_iff.mp found').1 nowhere, found']

omit [Build] in
theorem held_run_compressed :
    letI := strictBuild
    ∃ s s' column column', Run Next s [.on 0 (.append [⟨.int, (7 : Int32)⟩]), .on 0 (.compressChunk 0)] s' ∧
      s.heap[0]? = some column ∧ s'.heap[0]? = some column' ∧ column.Extends column' ∧
        (getColumn s' 0 0 0 = some 0 ∧ columnAt (deref s') 0 0 0 = some column' ∨
          (∃ id : ChunkID, ObjectCall.on (ν := UInt32) 0 (TableCall.compressChunk id) ∈
            [.on 0 (.append [⟨.int, (7 : Int32)⟩]), .on 0 (.compressChunk 0)] ∧ id.toNat = 0) ∧
            ∀ more s'', Run Next s' more s'' → s''.heap[0]? = some column') := by
  let _ := strictBuild
  obtain ⟨s, reached, held, s', later⟩ : ∃ s, Run Next start [.make 1, .on 0 (.addColumn "a" "int")] s ∧
      getColumn s 0 0 0 = some 0 ∧
        ∃ s', Run Next s [.on 0 (.append [⟨.int, (7 : Int32)⟩]), .on 0 (.compressChunk 0)] s' :=
    ⟨_, .call (Or.inl rfl) (.single (Or.inl rfl)), rfl, _, .call (Or.inl rfl) (.single (Or.inl rfl))⟩
  obtain ⟨column, column', seen⟩ := held_run reached held later
  exact ⟨s, s', column, column', later, seen⟩

/-- `compress_chunk` changes nothing on tables that are seen through their pointers, if it changes nothing
on the tables. -/
def Lossless (s : OnHeap BaseColumn (List PointerTable)) : ObjectCall UInt32 TableCall → Prop
  | .make _ => True
  | .on i call => ∀ t, (deref s)[i]? = some t → call.Lossless t

theorem columnAt_extends {call : ObjectCall UInt32 TableCall} {column : BaseColumn}
    (lossless : ∀ i c t, call = .on i c → tables[i]? = some t → c.Lossless t)
    (step : SharedTables.OnTables tables call left)
    (shown : columnAt tables i k j = some column) : ∃ column', columnAt left i k j = some column' ∧
    column.Extends column' := by
  obtain ⟨t, atI, shown⟩ := Option.bind_eq_some_iff.mp shown
  obtain ⟨chunk, atK, atJ⟩ := Option.bind_eq_some_iff.mp shown
  have kept : ∃ u, left[i]? = some u ∧ t.Extends u := by
    cases step with
    | make _ =>
      exact ⟨t, by rw [List.getElem?_append_left (List.getElem?_eq_some_iff.mp atI).1, atI], .refl t⟩
    | @on i' call u v atI' step =>
      by_cases same : i' = i
      · subst same
        cases atI.symm.trans atI'
        refine ⟨v, List.getElem?_set_self (List.getElem?_eq_some_iff.mp atI).1, ?_⟩
        rw [← step.left_eq]
        exact Table.extends_run (lossless _ _ _ rfl atI)
      · exact ⟨t, by rw [List.getElem?_set_ne same, atI], .refl t⟩
  obtain ⟨u, atI', extended⟩ := kept
  obtain ⟨chunk', atK', extended⟩ := extended k chunk atK
  obtain ⟨column', atJ', extended⟩ := extended j column atJ
  exact ⟨column', by simp only [columnAt, atI', atK', atJ', Option.bind_eq_bind, Option.bind_some], extended⟩

/-- What is held, what is shown in its place, and that the one is the other or is no longer in any place. -/
structure Tracks (i k j a : Nat) (s : OnHeap BaseColumn (List PointerTable)) (column shown : BaseColumn) :
    Prop where
  shows : tableView.list.Shows s (deref s)
  held : s.heap[a]? = some column
  seen : columnAt (deref s) i k j = some shown
  extended : column.Extends shown
  placed : getColumn s i k j = some a ∨ ∀ p, tableView.list.place s.object p ≠ some a

theorem Tracks.step {call : ObjectCall UInt32 TableCall} {column shown : BaseColumn}
    (tracks : Tracks i k j a s column shown) (lossless : Lossless s call) (step : Next s call s') :
    ∃ column' shown', Tracks i k j a s' column' shown' := by
  obtain ⟨left, values, leads⟩ := PointerView.leads_of_caught (run_refines tracks.shows call) step
  obtain rfl : deref s' = left := leads.deref
  have lossless' (i : Nat) (c : TableCall) (t : Table) (same : call = .on i c)
      (atI : (deref s)[i]? = some t) : c.Lossless t := by
    subst same
    exact lossless t atI
  obtain ⟨shown', seen, grown⟩ := columnAt_extends lossless' (caught_runOf_iff.mp values) tracks.seen
  -- it is in its place, or it has not been written
  have kept (found : s'.heap[a]? = some column) (nowhere : ∀ p, tableView.list.place s'.object p ≠ some a) :
      ∃ column' shown', Tracks i k j a s' column' shown' :=
    ⟨column, shown', leads.toShows, found, seen, tracks.extended.trans grown, Or.inr nowhere⟩
  rcases tracks.placed with held | nowhere
  · rcases leads.footprint.stays_or tracks.shows.owned
      (show tableView.list.place s.object (i, k, j) = some a from held) with
      stays | ⟨⟨id, rfl, _⟩, nowhere⟩
    · have read := columnAt_of_held leads.toShows stays
      exact ⟨shown', shown', leads.toShows, read ▸ seen, seen, .refl shown', Or.inl stays⟩
    · obtain ⟨_, _, compressed⟩ := PointerView.leads_of_caught (compress_refines tracks.shows i id) step
      obtain ⟨_, found, rfl⟩ := compressed.footprint.grown a column tracks.held
      exact kept found nowhere
  · have inside := (List.getElem?_eq_some_iff.mp tracks.held).1
    refine kept (by rw [leads.footprint.kept a inside nowhere, tracks.held]) fun p found => ?_
    exact nowhere p (leads.footprint.fresh p a found inside)

/-- What can be read from a column that is held is what the table shows in its place, compressed or not. -/
theorem shown_run {made : List (ObjectCall UInt32 TableCall)} (reached : Run Next start made s)
    (held : getColumn s i k j = some a) 
    (later : Run (fun s call s' => Lossless s call ∧ Next s call s') s calls s') :
    ∃ column shown, s'.heap[a]? = some column ∧ columnAt (deref s') i k j = some shown ∧
      column.Extends shown := by
  obtain ⟨tables, _, before⟩ := leads_of_calls shows_start reached
  have found := List.getElem?_eq_getElem (before.owned.inside (i, k, j) a held)
  obtain rfl : deref s = tables := before.deref
  have tracks : ∃ column shown, Tracks i k j a s' column shown := by
    refine later.invariant (fun s => ∃ column shown, Tracks i k j a s column shown) ?_
      ⟨_, _, before.toShows, found,
      (columnAt_of_held before.toShows held).trans found, .refl _, Or.inl held⟩
    rintro s call s' _ ⟨column, shown, tracks⟩ ⟨lossless, step⟩
    exact tracks.step lossless step
  obtain ⟨column, shown, tracks⟩ := tracks
  exact ⟨column, shown, tracks.held, tracks.seen, tracks.extended⟩

omit [Build] in
theorem shown_run_compressed :
    letI := strictBuild
    ∃ s s' column shown, getColumn s 0 0 0 = some 0 ∧
      Run (fun s call s' => Lossless s call ∧ Next s call s') s
        [.on 0 (.append [⟨.int, (7 : Int32)⟩]), .on 0 (.compressChunk 0),
          .on 0 (.append [⟨.int, (8 : Int32)⟩])] s' ∧
      s'.heap[0]? = some column ∧ columnAt (deref s') 0 0 0 = some shown ∧ column.Extends shown := by
  let _ := strictBuild
  have lossless : Lossless ⟨[.value .int ⟨[(7 : Int32)]⟩], [⟨[true], ["a"], ["int"], [⟨[0]⟩], 1⟩]⟩
      (.on 0 (.compressChunk 0)) := by
    intro t atTable chunk found
    cases atTable
    cases found
    simp [PointerChunk.deref, ColumnType.ordered_iff]
  obtain ⟨s, reached, held, s', later⟩ : ∃ s, Run Next start [.make 1, .on 0 (.addColumn "a" "int")] s ∧
      getColumn s 0 0 0 = some 0 ∧ ∃ s', Run (fun s call s' => Lossless s call ∧ Next s call s') s
        [.on 0 (.append [⟨.int, (7 : Int32)⟩]), .on 0 (.compressChunk 0),
          .on 0 (.append [⟨.int, (8 : Int32)⟩])] s' :=
    ⟨_, .call (Or.inl rfl) (.single (Or.inl rfl)), rfl, _, .call ⟨fun _ _ => trivial, Or.inl rfl⟩
      (.call ⟨lossless, Or.inl rfl⟩ (.single ⟨fun _ _ => trivial, Or.inl rfl⟩))⟩
  obtain ⟨column, shown, seen⟩ := shown_run reached held later
  exact ⟨s, s', column, shown, held, later, seen⟩

end PointerTables

end Opossum
