import Opossum.Foundation.Heap
import Opossum.Storage.SharedTables

/-!
# Columns behind pointers

A chunk does not hold columns but shared pointers to them. Tables make all their columns themselves and
never put one into two places, so they behave as if they held the columns.
-/

namespace Opossum

/-- `Chunk`, with the pointers that it holds. -/
structure PointerChunk where
  columns : List Nat

/-- `Table`, with chunks that hold pointers. -/
structure PointerTable where
  isInstantiated : List Bool
  columnNames : List String
  columnTypes : List String
  chunks : List PointerChunk
  chunkSize : UInt32

namespace PointerChunk

def empty : PointerChunk := ⟨[]⟩

/-- The chunk as it is seen through its pointers. -/
def deref (heap : List BaseColumn) (c : PointerChunk) : Chunk := ⟨c.columns.filterMap fun a => heap[a]?⟩

/-- `add_column` of a possibly null pointer -/
def addColumn (column : Option Nat) (s : OnHeap BaseColumn PointerChunk) :
    Outcome Fault (OnHeap BaseColumn PointerChunk) :=
  match column with
  | none => .stopped .undefined s
  | some a =>
    match s.heap[a]? with
    | none => .stopped .undefined s
    | some column =>
      if column.size = (s.object.deref s.heap).size.toNat ∨ s.object.columns.length = 0 then
        .returned { s with object := ⟨s.object.columns ++ [a]⟩ }
      else
        .stopped (.logicError "Column size does not match chunk size!") s

/-- `add_column` of a column that has just been made. It is destroyed again if it is not taken. -/
def addMade (made : Except Fault (Option BaseColumn)) (s : OnHeap BaseColumn PointerChunk) :
    Outcome Fault (OnHeap BaseColumn PointerChunk) :=
  match made with
  | .error fault => .stopped fault s
  | .ok none => addColumn none s
  | .ok (some column) =>
    match addColumn (some s.heap.length) { s with heap := s.heap ++ [column] } with
    | .returned t => .returned t
    | .stopped fault _ => .stopped fault s

variable [Build]

/-- One round of the loop in `append`. -/
def appendValue (values : List AllTypeVariant) (i : Nat) (s : OnHeap BaseColumn PointerChunk) :
    Outcome Fault (OnHeap BaseColumn PointerChunk) :=
  match values[i]?, s.object.columns[i]? with
  | some value, some a =>
    match s.heap[a]? with
    | none => .stopped .undefined s
    | some column => (column.append value).within fun column => { s with heap := s.heap.set a column }
  | _, _ => .stopped .undefined s

def append (values : List AllTypeVariant) (s : OnHeap BaseColumn PointerChunk) :
    Outcome Fault (OnHeap BaseColumn PointerChunk) :=
  if values.length = s.object.columns.length then
    Outcome.loop (appendValue values) (List.range values.length) s
  else
    .stopped (.logicError "Number of given values does not match number of columns!") s

end PointerChunk

variable [Build]

namespace PointerTable

/-- The table as it is seen through its pointers. -/
def deref (heap : List BaseColumn) (t : PointerTable) : Table :=
  ⟨t.isInstantiated, t.columnNames, t.columnTypes, t.chunks.map (PointerChunk.deref heap), t.chunkSize⟩

/-- A call that works on the definitions of a table only. -/
def onDefinitions (call : Table → Outcome Fault Table) (s : OnHeap BaseColumn PointerTable) :
    Outcome Fault (OnHeap BaseColumn PointerTable) :=
  (call (s.object.deref s.heap)).within fun t => { s with object := { s.object with
    isInstantiated := t.isInstantiated
    columnNames := t.columnNames
    columnTypes := t.columnTypes } }

/-- A call on `_chunks`. -/
def onChunks (call : OnHeap BaseColumn (List PointerChunk) →
      Outcome Fault (OnHeap BaseColumn (List PointerChunk)))
    (s : OnHeap BaseColumn PointerTable) : Outcome Fault (OnHeap BaseColumn PointerTable) :=
  (call ⟨s.heap, s.object.chunks⟩).within fun u => ⟨u.heap, { s.object with chunks := u.object }⟩

/-- What `add_column` does to the definitions first. -/
def define (name type : String) (t : Table) : Outcome Fault Table :=
  if t.hasDefinition name then
    Outcome.ofExcept t ((t.validateExistingDefinition name type).map fun _ => t)
  else
    t.addColumnDefinition name type

def addColumn (name type : String) (s : OnHeap BaseColumn PointerTable) :
    Outcome Fault (OnHeap BaseColumn PointerTable) :=
  let instantiate := PointerChunk.addMade (makeSharedByColumnType BaseColumn.newValueColumn type)
  ((onDefinitions (define name type) s).andThen fun s =>
    onChunks (Outcome.loop (fun k => OnHeap.atIndex .undefined k instantiate)
      (List.range s.object.chunks.length)) s).andThen
    (onDefinitions fun t => t.markInstantiated name)

/-- A chunk is made, and put into the table when it is complete. -/
def putMade (put : PointerChunk → List PointerChunk) (made : Outcome Fault (OnHeap BaseColumn PointerChunk))
    (s : OnHeap BaseColumn PointerTable) : Outcome Fault (OnHeap BaseColumn PointerTable) :=
  match made with
  | .returned new => .returned ⟨new.heap, { s.object with chunks := put new.object }⟩
  | .stopped fault _ => .stopped fault s

def createNewChunk (s : OnHeap BaseColumn PointerTable) : Outcome Fault (OnHeap BaseColumn PointerTable) :=
  putMade (s.object.chunks ++ [·])
    (Outcome.loop (fun type => PointerChunk.addMade (makeSharedByColumnType BaseColumn.newValueColumn type))
      s.object.columnTypes ⟨s.heap, .empty⟩) s

def new (chunkSize : UInt32) (heap : List BaseColumn) : Outcome Fault (OnHeap BaseColumn PointerTable) :=
  createNewChunk ⟨heap, ⟨[], [], [], [], chunkSize⟩⟩

def append (values : List AllTypeVariant) (s : OnHeap BaseColumn PointerTable) :
    Outcome Fault (OnHeap BaseColumn PointerTable) :=
  (if (s.object.deref s.heap).isLastChunkFull then createNewChunk s else .returned s).andThen fun s =>
    onChunks (OnHeap.atIndex .undefined (s.object.chunks.length - 1) (PointerChunk.append values)) s

/-- One round of the loop in `compress_chunk`. -/
def compressColumn (t : Table) (oldChunk : PointerChunk) (id : Nat)
    (newChunk : OnHeap BaseColumn PointerChunk) :
    Outcome Fault (OnHeap BaseColumn PointerChunk) :=
  match (oldChunk.deref newChunk.heap).getColumn id, t.columnType id with
  | .error fault, _ => .stopped fault newChunk
  | _, .error fault => .stopped fault newChunk
  | .ok curColumn, .ok type =>
    PointerChunk.addMade (makeSharedByColumnType (BaseColumn.newDictionaryColumn curColumn) type) newChunk

def compressChunk (id : ChunkID) (s : OnHeap BaseColumn PointerTable) :
    Outcome Fault (OnHeap BaseColumn PointerTable) :=
  match s.object.chunks[id.toNat]? with
  | none => .stopped .outOfRange s
  | some oldChunk =>
    let t := s.object.deref s.heap
    let shown := oldChunk.deref s.heap
    if t.hasInfiniteChunkSize then
      .stopped (.logicError "Cannot compress chunk of unlimited size!") s
    else if shown.size ≠ t.chunkSize then
      .stopped (.logicError "Non-full chunk cannot be compressed!") s
    else
      putMade (s.object.chunks.set id.toNat ·)
        (Outcome.loop (compressColumn t oldChunk) (List.range shown.colCount.toNat) ⟨s.heap, .empty⟩) s

def run : TableCall → OnHeap BaseColumn PointerTable → Outcome Fault (OnHeap BaseColumn PointerTable)
  | .addColumnDefinition name type, s => onDefinitions (fun t => t.addColumnDefinition name type) s
  | .addColumn name type, s => addColumn name type s
  | .append values, s => append values s
  | .createNewChunk, s => createNewChunk s
  | .compressChunk id, s => compressChunk id s

end PointerTable

open Heap

omit [Build] in
/-- A chunk holds its columns in the places of its pointers. -/
def chunkView : PointerView BaseColumn PointerChunk Chunk Nat where
  place c i := c.columns[i]?
  deref := PointerChunk.deref
  deref_congr heap heap' c same := by
    refine congrArg Chunk.mk (List.filterMap_congr fun a member => ?_)
    obtain ⟨i, atI⟩ := List.mem_iff_getElem?.mp member
    exact same i a atI

namespace PointerChunk
variable {s : OnHeap BaseColumn PointerChunk} {c : Chunk} {lost : Nat → Prop}

omit [Build] in
theorem forall₂_columns (shows : chunkView.Shows s c) :
    List.Forall₂ (fun a column => s.heap[a]? = some column) s.object.columns c.columns := by
  have each (a : Nat) (member : a ∈ s.object.columns) : ∃ column, s.heap[a]? = some column := by
    obtain ⟨i, atI⟩ := List.mem_iff_getElem?.mp member
    exact ⟨_, List.getElem?_eq_getElem (shows.owned.inside i a atI)⟩
  obtain ⟨columns, related⟩ := Pointwise.exists_forall₂ each
  have same : c.columns = columns := by
    rw [← shows.deref]
    exact Pointwise.filterMap_eq related
  exact same ▸ related

omit [Build] in
/-- A new column comes behind the others. -/
theorem leads_push {grows : BaseColumn → BaseColumn → Prop} (refl : ∀ column, grows column column)
    (shows : chunkView.Shows s c) (column : BaseColumn) : chunkView.Leads grows lost s
    ⟨s.heap ++ [column], ⟨s.object.columns ++ [s.heap.length]⟩⟩
      ⟨c.columns ++ [column]⟩ := by
  have atPlace {i a : Nat} (found : (s.object.columns ++ [s.heap.length])[i]? = some a) :
      s.object.columns[i]? = some a ∨ i = s.object.columns.length ∧ a = s.heap.length := by
    rw [List.getElem?_append] at found
    split at found
    · exact Or.inl found
    · rw [List.getElem?_singleton, Option.ite_none_right_eq_some] at found
      exact Or.inr ⟨by omega, (Option.some.inj found.2).symm⟩
  refine ⟨⟨⟨fun i a found => ?_, fun i j a atI atJ => ?_⟩, congrArg Chunk.mk (Pointwise.filterMap_eq ?_)⟩,
    .of_append refl _ (fun i a found inside => ?_) fun i a found _ => ?_⟩
  · rw [List.length_append, List.length_singleton]
    rcases atPlace found with old | ⟨_, rfl⟩
    · have inside := shows.owned.inside i a old
      omega
    · omega
  · rcases atPlace atI with oldI | ⟨lastI, newI⟩ <;> rcases atPlace atJ with oldJ | ⟨lastJ, newJ⟩
    · exact shows.owned.unique i j a oldI oldJ
    · have inside := shows.owned.inside i a oldI
      omega
    · have inside := shows.owned.inside j a oldJ
      omega
    · rw [lastI, lastJ]
  · refine Pointwise.append_singleton ((forall₂_columns shows).imp fun a column found => ?_)
      List.getElem?_concat_length
    rw [List.getElem?_append_left (List.getElem?_eq_some_iff.mp found).1, found]
  · rcases atPlace found with old | ⟨_, rfl⟩
    · exact old
    · omega
  · have old : s.object.columns[i]? = some a := found
    exact (List.getElem?_append_left (List.getElem?_eq_some_iff.mp old).1).trans old

omit [Build] in
theorem addMade_refines {grows : BaseColumn → BaseColumn → Prop} (refl : ∀ column, grows column column)
    (shows : chunkView.Shows s c) (made : Except Fault (Option BaseColumn)) :
    chunkView.Refines grows lost s (addMade made s)
      (match made with
        | .ok column => c.addColumn column
        | .error fault => .stopped fault c) := by
  have unchanged : chunkView.Leads grows lost s s c := shows.leads_self refl
  unfold addMade
  split
  · exact .stopped unchanged
  · exact .stopped unchanged
  · rename_i column
    have old : deref (s.heap ++ [column]) s.object = c := by
      rw [← shows.deref]
      exact chunkView.deref_congr _ _ _ fun i a found =>
        List.getElem?_append_left (shows.owned.inside i a found)
    have last : (s.heap ++ [column])[s.heap.length]? = some column := List.getElem?_concat_length
    have length := (forall₂_columns shows).length_eq
    by_cases taken : column.size = c.size.toNat ∨ c.columns.length = 0
    · have added : addColumn (some s.heap.length) { s with heap := s.heap ++ [column] } =
          .returned ⟨s.heap ++ [column], ⟨s.object.columns ++ [s.heap.length]⟩⟩ := by
        simp only [addColumn, last, old, length, if_pos taken]
      rw [added]
      simp only [Chunk.addColumn, if_pos taken]
      exact .returned (leads_push refl shows column)
    · have refused : addColumn (some s.heap.length) { s with heap := s.heap ++ [column] } =
          .stopped (.logicError "Column size does not match chunk size!")
            { s with heap := s.heap ++ [column] } := by
        simp only [addColumn, last, old, length, if_neg taken]
      rw [refused]
      simp only [Chunk.addColumn, if_neg taken]
      exact .stopped unchanged

/-- A column is written in place. -/
theorem leads_write (shows : chunkView.Shows s c) {i a : Nat} {column left : BaseColumn}
    (atI : s.object.columns[i]? = some a) (found : s.heap[a]? = some column)
    (extended : column.Extends left) :
    chunkView.Leads BaseColumn.Extends lost s { s with heap := s.heap.set a left }
      ⟨c.columns.set i left⟩ := by
  have inside := (List.getElem?_eq_some_iff.mp found).1
  have length := (forall₂_columns shows).length_eq
  refine ⟨⟨⟨fun j b atJ => ?_, shows.owned.unique⟩, congrArg Chunk.mk (Pointwise.filterMap_eq ?_)⟩,
    ⟨fun b _ free => ?_, fun b other atB => ?_, fun j b atJ _ => atJ, fun j b atJ _ => atJ⟩⟩
  · rw [List.length_set]
    exact shows.owned.inside j b atJ
  · refine Pointwise.of_getElem? (by simp [length]) fun j b column' atJ atColumn => ?_
    by_cases same : i = j
    · subst same
      cases atI.symm.trans atJ
      rw [List.getElem?_set_self inside, ← atColumn, List.getElem?_set_self]
      rw [← length]
      exact (List.getElem?_eq_some_iff.mp atI).1
    · have apart : a ≠ b := fun equal => same (shows.owned.unique i j a atI (equal ▸ atJ))
      rw [List.getElem?_set_ne same] at atColumn
      obtain ⟨_, atOld, read⟩ := Pointwise.getElem?_left (forall₂_columns shows) atJ
      rw [List.getElem?_set_ne apart, read, ← atOld, atColumn]
  · refine List.getElem?_set_ne fun same => free i ?_
    rw [← same]
    exact atI
  · by_cases same : a = b
    · subst same
      cases found.symm.trans atB
      exact ⟨left, List.getElem?_set_self inside, extended⟩
    · exact ⟨other, by rw [List.getElem?_set_ne same, atB], .refl other⟩

/-- One round of the loop in `append`, on a column that is held itself. -/
def appendAt (values : List AllTypeVariant) (i : Nat) (column : BaseColumn) : Outcome Fault BaseColumn :=
  match values[i]? with
  | some value => column.append value
  | none => .stopped .undefined column

def appendColumn (values : List AllTypeVariant) (i : Nat) (c : Chunk) : Outcome Fault Chunk :=
  (Outcome.atIndex .undefined i (appendAt values i) c.columns).within Chunk.mk

theorem append_eq_loop {values : List AllTypeVariant} (length : values.length = c.columns.length) :
    c.append values = Outcome.loop (appendColumn values) (List.range values.length) c := by
  have columns : Outcome.each (fun value column => BaseColumn.append column value) values c.columns =
      Outcome.loop (fun k => Outcome.atIndex Fault.undefined k (appendAt values k))
        (List.range c.columns.length) c.columns := by
    refine Outcome.each_eq_loop Fault.undefined length fun k value atK => ?_
    funext column
    rw [appendAt, atK]
  have round (i : Nat) (columns : List BaseColumn) : appendColumn values i ⟨columns⟩ =
      (Outcome.atIndex Fault.undefined i (appendAt values i) columns).within Chunk.mk := rfl
  rw [Chunk.append, if_pos length, columns, Outcome.within_loop round, length]

theorem appendValue_refines (shows : chunkView.Shows s c) (values : List AllTypeVariant) (i : Nat) :
    chunkView.Refines BaseColumn.Extends lost s (appendValue values i s)
      (appendColumn values i c) := by
  have unchanged : chunkView.Leads BaseColumn.Extends lost s s c := shows.leads_self BaseColumn.Extends.refl
  have related := forall₂_columns shows
  have put (column : BaseColumn) (atI : c.columns[i]? = some column) :
      Chunk.mk (c.columns.set i column) = c := by
    obtain ⟨inside, rfl⟩ := List.getElem?_eq_some_iff.mp atI
    rw [List.set_getElem_self]
  unfold appendValue appendColumn Outcome.atIndex appendAt
  cases atPointer : s.object.columns[i]? with
  | none =>
    have missing : c.columns[i]? = none := by
      rw [List.getElem?_eq_none_iff, ← related.length_eq, ← List.getElem?_eq_none_iff, atPointer]
    rw [missing]
    cases values[i]? <;> exact .stopped unchanged
  | some a =>
    obtain ⟨column, atColumn, found⟩ := Pointwise.getElem?_left related atPointer
    rw [atColumn]
    cases values[i]? with
    | none =>
      simp only [Outcome.within_stopped, put column atColumn]
      exact .stopped unchanged
    | some value =>
      simp only [found]
      cases run : column.append value with
      | returned left =>
        exact .returned (leads_write shows atPointer found (BaseColumn.append_returned run).1)
      | stopped fault left =>
        obtain ⟨rfl, _⟩ := BaseColumn.append_eq_stopped run
        exact .stopped (leads_write shows atPointer found (.refl left))

theorem append_refines (shows : chunkView.Shows s c) (values : List AllTypeVariant) :
    chunkView.Refines BaseColumn.Extends lost s (append values s) (c.append values) := by
  have length := (forall₂_columns shows).length_eq
  unfold append
  by_cases same : values.length = s.object.columns.length
  · rw [if_pos same, append_eq_loop (same.trans length)]
    exact .loop BaseColumn.Extends.refl BaseColumn.Extends.trans
      (fun i s c leads => appendValue_refines leads.toShows values i)
        (shows.leads_self BaseColumn.Extends.refl) _
  · rw [if_neg same, Chunk.append, if_neg fun equal => same (equal.trans length.symm)]
    exact .stopped (shows.leads_self BaseColumn.Extends.refl)

end PointerChunk

omit [Build] in
/-- A table holds the columns of its chunks. -/
def tableView : PointerView BaseColumn PointerTable Table (Nat × Nat) where
  place t := chunkView.list.place t.chunks
  deref := PointerTable.deref
  deref_congr heap heap' t same := by
    unfold PointerTable.deref
    rw [show t.chunks.map (PointerChunk.deref heap') = t.chunks.map (PointerChunk.deref heap) from
      chunkView.list.deref_congr heap heap' t.chunks same]

namespace PointerTable
variable {s : OnHeap BaseColumn PointerTable} {t : Table} {lost : Nat × Nat → Prop}

omit [Build] in
theorem shows_chunks (shows : tableView.Shows s t) :
    chunkView.list.Shows ⟨s.heap, s.object.chunks⟩ t.chunks := by
  refine ⟨shows.owned, ?_⟩
  rw [← shows.deref]
  rfl

omit [Build] in
/-- What is done to the chunks is done to the table. -/
theorem leads_chunks {grows : BaseColumn → BaseColumn → Prop} (shows : tableView.Shows s t)
    {u : OnHeap BaseColumn (List PointerChunk)} {chunks : List Chunk}
    (leads : chunkView.list.Leads grows lost ⟨s.heap, s.object.chunks⟩ u chunks) :
    tableView.Leads grows lost s ⟨u.heap, { s.object with chunks := u.object }⟩
      { t with chunks := chunks } := by
  refine ⟨⟨leads.owned, ?_⟩, leads.footprint⟩
  rw [← leads.deref, ← shows.deref]
  rfl

theorem onChunks_refines (shows : tableView.Shows s t)
    {call : OnHeap BaseColumn (List PointerChunk) → Outcome Fault (OnHeap BaseColumn (List PointerChunk))}
    {call' : List Chunk → Outcome Fault (List Chunk)}
    (refines : chunkView.list.Refines BaseColumn.Extends lost ⟨s.heap, s.object.chunks⟩
      (call ⟨s.heap, s.object.chunks⟩)
      (call' t.chunks)) :
    tableView.Refines BaseColumn.Extends lost s (onChunks call s)
      ((call' t.chunks).within fun chunks => { t with chunks := chunks }) := by
  unfold onChunks
  generalize call ⟨s.heap, s.object.chunks⟩ = o, call' t.chunks = o' at refines
  cases refines with
  | returned leads => exact .returned (leads_chunks shows leads)
  | stopped leads => exact .stopped (leads_chunks shows leads)

/-- A call on the definitions leaves the chunks alone. -/
theorem onDefinitions_refines (shows : tableView.Shows s t) {call : Table → Outcome Fault Table}
    (same : (call t).left.chunks = t.chunks ∧ (call t).left.chunkSize = t.chunkSize) :
    tableView.Refines BaseColumn.Extends lost s (onDefinitions call s) (call t) := by
  have put {u : Table} (same : u.chunks = t.chunks ∧ u.chunkSize = t.chunkSize) :
      tableView.Leads BaseColumn.Extends lost s { s with object := { s.object with
        isInstantiated := u.isInstantiated
        columnNames := u.columnNames
        columnTypes := u.columnTypes } } u := by
    refine ⟨⟨shows.owned, ?_⟩, .refl BaseColumn.Extends.refl _ _ _⟩
    obtain ⟨_, _, _, _, _⟩ := u
    obtain ⟨rfl, rfl⟩ := same
    rw [← shows.deref]
    rfl
  unfold onDefinitions
  rw [show s.object.deref s.heap = t from shows.deref]
  cases run : call t with
  | returned u => exact .returned (put (by rwa [run] at same))
  | stopped fault u => exact .stopped (put (by rwa [run] at same))

omit [Build] in
theorem left_addColumnDefinition (name type : String) (t : Table) :
    (t.addColumnDefinition name type).left.chunks = t.chunks ∧
    (t.addColumnDefinition name type).left.chunkSize = t.chunkSize := by
  unfold Table.addColumnDefinition
  split <;> exact ⟨rfl, rfl⟩

omit [Build] in
theorem left_define (name type : String) (t : Table) :
    (define name type t).left.chunks = t.chunks ∧ (define name type t).left.chunkSize = t.chunkSize := by
  unfold define
  split
  · rw [Outcome.left_ofExcept_const]
    exact ⟨rfl, rfl⟩
  · exact left_addColumnDefinition name type t

omit [Build] in
theorem left_markInstantiated (name : String) (t : Table) :
    (t.markInstantiated name).left.chunks = t.chunks ∧
    (t.markInstantiated name).left.chunkSize = t.chunkSize := by
  unfold Table.markInstantiated
  split
  · exact ⟨rfl, rfl⟩
  · split <;> exact ⟨rfl, rfl⟩

theorem instantiate_refines {chunk : Chunk} {c : OnHeap BaseColumn PointerChunk} {lost : Nat → Prop}
    (shows : chunkView.Shows c chunk) (type : String) : chunkView.Refines BaseColumn.Extends lost c
      (PointerChunk.addMade (makeSharedByColumnType BaseColumn.newValueColumn type) c)
        (Table.instantiate type chunk) :=
  PointerChunk.addMade_refines BaseColumn.Extends.refl shows _

theorem addColumn_refines (shows : tableView.Shows s t) (name type : String) :
    tableView.Refines BaseColumn.Extends lost s (addColumn name type s) (t.addColumn name type) := by
  have value : t.addColumn name type = ((define name type t).andThen fun t =>
      (Outcome.forEach (Table.instantiate type) t.chunks).within fun chunks =>
        { t with chunks := chunks }).andThen
        fun t => t.markInstantiated name := by
    rw [Outcome.andThen_assoc]
    rfl
  rw [value, addColumn]
  refine .andThen BaseColumn.Extends.trans ?_ fun u t' leads =>
    onDefinitions_refines leads.toShows (left_markInstantiated name t')
  refine (onDefinitions_refines shows (left_define name type t)).andThen BaseColumn.Extends.trans
    fun u t' leads => ?_
  refine onChunks_refines leads.toShows ?_
  have showsChunks := shows_chunks leads.toShows
  rw [Outcome.forEach, Outcome.each_eq_loop Fault.undefined rfl fun k chunk _ => rfl, showsChunks.length_eq]
  refine .loop BaseColumn.Extends.refl BaseColumn.Extends.trans (fun k w chunks later => ?_)
    (showsChunks.leads_self BaseColumn.Extends.refl) _
  exact .atIndex BaseColumn.Extends.refl _ later.toShows fun c _ showsPart =>
    instantiate_refines showsPart type

omit [Build] in
/-- A chunk that has been made comes to its place in the table. -/
theorem putMade_refines {grows : BaseColumn → BaseColumn → Prop} (refl : ∀ column, grows column column)
    (shows : tableView.Shows s t) {made : Outcome Fault (OnHeap BaseColumn PointerChunk)}
    {made' : Outcome Fault Chunk}
    (refines : chunkView.Refines grows (fun _ => True) ⟨s.heap, .empty⟩ made made')
    {put : PointerChunk → List PointerChunk} {put' : Chunk → List Chunk} {k : Nat}
    (here : ∀ new, (put new)[k]? = some new) (others : ∀ new j, j ≠ k → (put new)[j]? = s.object.chunks[j]?)
    (here' : ∀ new, (put' new)[k]? = some new) (others' : ∀ new j, j ≠ k → (put' new)[j]? = t.chunks[j]?)
    (free : ∀ q, k < s.object.chunks.length → lost (k, q)) :
    tableView.Refines grows lost s (putMade put made s)
      (.ofExcept t (made'.toExcept.map fun chunk => { t with chunks := put' chunk })) := by
  cases refines with
  | stopped leads => exact .stopped (shows.leads_self refl)
  | @returned new chunk leads =>
    have footprint : Footprint grows (fun q => lost (k, q)) s.heap
        (fun q => chunkView.list.place s.object.chunks (k, q)) new.heap (chunkView.place new.object) := by
      refine leads.footprint.replace (fun _ => rfl) fun q a found => free q ?_
      obtain ⟨old, atK, _⟩ := Option.bind_eq_some_iff.mp found
      exact (List.getElem?_eq_some_iff.mp atK).1
    have whole := (shows_chunks shows).leads_of_part (here new.object) (others new.object) (here' chunk)
      (others' chunk)
      leads.toShows footprint
    exact .returned (leads_chunks shows whole)

omit [Build] in
theorem shows_empty (heap : List BaseColumn) : chunkView.Shows ⟨heap, .empty⟩ Chunk.empty :=
  ⟨⟨nofun, nofun⟩, rfl⟩

theorem createNewChunk_refines (shows : tableView.Shows s t) :
    tableView.Refines BaseColumn.Extends lost s (createNewChunk s) t.createNewChunk := by
  have types : t.columnTypes = s.object.columnTypes := by
    rw [← shows.deref]
    rfl
  have length := (shows_chunks shows).length_eq
  have made : t.newChunk = (Outcome.loop Table.instantiate t.columnTypes Chunk.empty).toExcept := by
    rw [Outcome.toExcept_loop, Table.newChunk]
    congr 1
    funext chunk type
    unfold Table.addValueColumn Table.instantiate
    cases makeSharedByColumnType BaseColumn.newValueColumn type <;> rfl
  rw [createNewChunk, Table.createNewChunk, made, ← types]
  refine putMade_refines BaseColumn.Extends.refl shows
    (.loop BaseColumn.Extends.refl BaseColumn.Extends.trans (fun type c chunk leads =>
    instantiate_refines leads.toShows type) ((shows_empty s.heap).leads_self BaseColumn.Extends.refl) _)
    (fun new => List.getElem?_concat_length) ?_ (fun new => length ▸ List.getElem?_concat_length) ?_
    fun _ inside => absurd inside (lt_irrefl _)
  · exact fun new j other => getElem?_concat_ne other
  · exact fun new j other => getElem?_concat_ne (length ▸ other)

omit [Build] in
theorem onBack_eq (t : Table) (call : Chunk → Outcome Fault Chunk) : t.onBack call =
    (Outcome.atIndex Fault.undefined (t.chunks.length - 1) call t.chunks).within fun chunks =>
    { t with chunks := chunks } := by
  unfold Table.onBack Outcome.atIndex
  rw [List.getLast?_eq_getElem?]
  cases found : t.chunks[t.chunks.length - 1]? with
  | none => rfl
  | some chunk =>
    obtain ⟨front, last, same⟩ := (List.eq_nil_or_concat' t.chunks).resolve_left
      fun empty => by simp [empty] at found
    simp only [same, List.dropLast_concat, List.length_append, List.length_singleton, Nat.add_sub_cancel,
      List.set_append_right _ _ (le_refl _), Nat.sub_self, List.set_cons_zero]
    cases call chunk <;> rfl

theorem append_refines (shows : tableView.Shows s t) (values : List AllTypeVariant) :
    tableView.Refines BaseColumn.Extends lost s (append values s) (t.append values) := by
  rw [append, Table.append, show s.object.deref s.heap = t from shows.deref]
  refine PointerView.Refines.andThen BaseColumn.Extends.trans ?_ fun u t' leads => ?_
  · split
    · exact createNewChunk_refines shows
    · exact .returned (shows.leads_self BaseColumn.Extends.refl)
  · have showsChunks := shows_chunks leads.toShows
    rw [onBack_eq, showsChunks.length_eq]
    refine onChunks_refines leads.toShows ?_
    exact .atIndex BaseColumn.Extends.refl _ showsChunks fun c _ showsPart =>
      PointerChunk.append_refines showsPart values

/-- One round of the loop in `compress_chunk`, on chunks that hold columns. -/
def compressColumnOf (t : Table) (oldChunk : Chunk) (id : Nat) (newChunk : Chunk) : Outcome Fault Chunk :=
  match oldChunk.getColumn id, t.columnType id with
  | .error fault, _ => .stopped fault newChunk
  | _, .error fault => .stopped fault newChunk
  | .ok curColumn, .ok type =>
    match makeSharedByColumnType (BaseColumn.newDictionaryColumn curColumn) type with
    | .ok column => newChunk.addColumn column
    | .error fault => .stopped fault newChunk

theorem toExcept_compressColumnOf (t : Table) (oldChunk newChunk : Chunk) (id : Nat) :
    (compressColumnOf t oldChunk id newChunk).toExcept = t.compressColumn oldChunk newChunk id := by
  unfold compressColumnOf Table.compressColumn
  cases oldChunk.getColumn id with
  | error fault => rfl
  | ok curColumn =>
    cases t.columnType id with
    | error fault => rfl
    | ok type =>
      simp only [Except.ok_bind]
      cases makeSharedByColumnType (BaseColumn.newDictionaryColumn curColumn) type <;> rfl

/-- The old chunk keeps its columns while the new one is made. -/
theorem compressColumn_refines {oldChunk : PointerChunk} {heap : List BaseColumn} (t : Table)
    (showsOld : chunkView.Shows ⟨heap, oldChunk⟩ (oldChunk.deref heap)) {c : OnHeap BaseColumn PointerChunk}
    {chunk : Chunk} (leads : chunkView.Leads Eq (fun _ => True) ⟨heap, .empty⟩ c chunk) (id : Nat) :
    chunkView.Refines Eq (fun _ => True) c (compressColumn t oldChunk id c)
      (compressColumnOf t (oldChunk.deref heap) id chunk) := by
  have unchanged : chunkView.Leads Eq (fun _ => True) c c chunk := leads.toShows.leads_self Eq.refl
  have old : oldChunk.deref c.heap = oldChunk.deref heap :=
    chunkView.deref_congr heap c.heap oldChunk fun i a found =>
      leads.footprint.kept a (showsOld.owned.inside i a found) fun j taken => by cases taken
  unfold compressColumn compressColumnOf
  rw [old]
  cases (oldChunk.deref heap).getColumn id with
  | error fault => exact .stopped unchanged
  | ok curColumn =>
    cases t.columnType id with
    | error fault => exact .stopped unchanged
    | ok type => exact PointerChunk.addMade_refines Eq.refl leads.toShows _

/-- Compression makes new columns and changes none. -/
theorem compressChunk_refines (shows : tableView.Shows s t) (id : ChunkID) (free : ∀ q, lost (id.toNat, q)) :
    tableView.Refines Eq lost s (compressChunk id s) (t.compressChunk id) := by
  have unchanged : tableView.Leads Eq lost s s t := shows.leads_self Eq.refl
  have showsChunks := shows_chunks shows
  rw [compressChunk, Table.compressChunk, Table.compressedChunk,
    show s.object.deref s.heap = t from shows.deref]
  cases found : s.object.chunks[id.toNat]? with
  | none =>
    have absent : t.chunks[id.toNat]? = none := by
      rw [← showsChunks.deref]
      exact (List.getElem?_map ..).trans (by rw [found, Option.map_none])
    simp only [Table.getChunk, absent]
    exact .stopped unchanged
  | some oldChunk =>
    obtain ⟨showsOld, atId⟩ := showsChunks.part found
    have got : t.getChunk id = .ok (oldChunk.deref s.heap) := Table.getChunk_eq_ok.mpr atId
    simp only [got, Except.ok_bind]
    cases infinite : t.hasInfiniteChunkSize with
    | true =>
      simp only [if_true]
      exact .stopped unchanged
    | false =>
      by_cases full : (oldChunk.deref s.heap).size = t.chunkSize
      · have loop : (List.range (oldChunk.deref s.heap).colCount.toNat).foldlM
          (t.compressColumn (oldChunk.deref s.heap))
            Chunk.empty = (Outcome.loop (compressColumnOf t (oldChunk.deref s.heap))
              (List.range (oldChunk.deref s.heap).colCount.toNat) Chunk.empty).toExcept := by
          simp only [Outcome.toExcept_loop, toExcept_compressColumnOf]
        simp only [full, decide_true, assert_true, Except.ok_bind, Bool.not_false, Bool.false_eq_true,
          if_false, ne_eq,
          not_true_eq_false, loop]
        have inside := (List.getElem?_eq_some_iff.mp found).1
        have inside' := (List.getElem?_eq_some_iff.mp atId).1
        refine putMade_refines Eq.refl shows (.loop Eq.refl Eq.trans
          (fun id c chunk leads => compressColumn_refines t showsOld leads id)
          ((shows_empty s.heap).leads_self Eq.refl) _) (fun new => List.getElem?_set_self inside)
          (fun new j other => List.getElem?_set_ne (Ne.symm other))
            (fun new => List.getElem?_set_self inside')
          (fun new j other => List.getElem?_set_ne (Ne.symm other)) fun q _ => free q
      · simp only [full, decide_false, Bool.false_eq_true, if_false, ne_eq, not_false_eq_true, if_true]
        exact .stopped unchanged

theorem run_refines (shows : tableView.Shows s t) (call : TableCall) :
    tableView.Refines BaseColumn.Extends (fun p => ∃ id, call = .compressChunk id ∧ p.1 = id.toNat) s
      (run call s) (call.run t) := by
  cases call with
  | addColumnDefinition name type =>
    let define (t : Table) := t.addColumnDefinition name type
    have same : (define t).left.chunks = t.chunks ∧ (define t).left.chunkSize = t.chunkSize :=
      left_addColumnDefinition name type t
    exact onDefinitions_refines shows same
  | addColumn name type => exact addColumn_refines shows name type
  | append values => exact append_refines shows values
  | createNewChunk => exact createNewChunk_refines shows
  | compressChunk id =>
    refine (compressChunk_refines shows id fun q => ⟨id, rfl, rfl⟩).imp fun _ _ leads => leads.weaken ?_
    rintro column _ rfl
    exact .refl column

theorem new_refines (heap : List BaseColumn) (chunkSize : UInt32) :
    tableView.Refines BaseColumn.Extends (fun _ => False) ⟨heap, ⟨[], [], [], [], chunkSize⟩⟩
      (new chunkSize heap)
      (Table.new chunkSize) :=
  createNewChunk_refines ⟨⟨nofun, nofun⟩, rfl⟩

end PointerTable

end Opossum
