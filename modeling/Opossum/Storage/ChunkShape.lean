import Opossum.Foundation.Run
import Opossum.Storage.Chunk

namespace Opossum

namespace Chunk

/-- Every column has the size that the chunk reports. -/
def Rectangular (c : Chunk) : Prop := ∀ column ∈ c.columns, column.size = c.size.toNat

theorem rectangular_of_columns_eq_nil {c : Chunk} (empty : c.columns = []) : c.Rectangular := by
  simp [Rectangular, empty]

/-- Reporting the right size takes equal columns, and a number of rows and of columns that the
conversions in `size()` leave alone. -/
theorem rectangular_iff {c : Chunk} (nonempty : c.columns ≠ []) :
    c.Rectangular ↔ (∀ column ∈ c.columns, column.size = c.firstColumnSize) ∧
      c.firstColumnSize < 2 ^ 32 ∧ (c.firstColumnSize = 0 ∨ c.columns.length % 2 ^ 16 ≠ 0) := by
  have reported := c.size_toNat
  constructor
  · intro rectangular
    have first := firstColumnSize_eq nonempty rectangular
    refine ⟨fun column member => (rectangular column member).trans first.symm, ?_, ?_⟩
    · split at reported <;> omega
    · split at reported <;> omega
  · rintro ⟨sizes, small, few⟩ column member
    rw [sizes column member]
    split at reported
    · omega
    · rw [reported, Nat.mod_eq_of_lt small]

end Chunk

variable [Build]

/-- The calls that change a chunk. -/
inductive ChunkCall
  | addColumn (column : BaseColumn)
  | append (values : List AllTypeVariant)

def ChunkCall.run : ChunkCall → Chunk → Outcome Fault Chunk
  | addColumn column, c => c.addColumn (some column)
  | append values, c => c.append values

/-- A chunk reached by calls of which some may have thrown. -/
abbrev ChunkRun : Chunk → List ChunkCall → Chunk → Prop :=
  Run (Caught Fault.Catchable ChunkCall.run)

/-- A value that the column takes: it is a value column, and `type_cast` succeeds. -/
def BaseColumn.Accepts (column : BaseColumn) (value : AllTypeVariant) : Prop :=
  column.isValue = true ∧ ∃ x, typeCast column.elementType value = .ok x

theorem BaseColumn.accepts_iff {column : BaseColumn} {value : AllTypeVariant} :
    column.Accepts value ↔ ∃ left, column.append value = .returned left := by
  constructor
  · rintro ⟨isValue, x, cast⟩
    cases column with
    | value T c => exact ⟨_, append_eq_returned.mpr ⟨T, c, x, rfl, cast, rfl⟩⟩
    | dictionary T c => cases isValue
  · rintro ⟨left, run⟩
    obtain ⟨T, c, x, rfl, cast, rfl⟩ := append_eq_returned.mp run
    exact ⟨rfl, x, cast⟩

/-- A column that still has its entries, and perhaps more of them. -/
structure BaseColumn.Extends (column later : BaseColumn) : Prop where
  sameType : later.elementType = column.elementType
  size_le : column.size ≤ later.size
  entry : ∀ r, r < column.size → later.entry r = column.entry r

theorem BaseColumn.Extends.refl (column : BaseColumn) : column.Extends column :=
  ⟨rfl, le_rfl, fun _ _ => rfl⟩

theorem BaseColumn.Extends.trans {a b c : BaseColumn} (ab : a.Extends b) (bc : b.Extends c) :
    a.Extends c where
  sameType := bc.sameType.trans ab.sameType
  size_le := ab.size_le.trans bc.size_le
  entry r inside := (bc.entry r (inside.trans_le ab.size_le)).trans (ab.entry r inside)

/-- What a column looks like after it has taken a value. -/
theorem BaseColumn.append_returned {column left : BaseColumn} {value : AllTypeVariant}
    (run : column.append value = .returned left) :
    column.Extends left ∧ left.size = column.size + 1 ∧ left.isValue = true ∧
      ∃ x, castTo left.elementType value = .ok x ∧ left.entry column.size = .ok x := by
  obtain ⟨T, c, x, rfl, cast, rfl⟩ := append_eq_returned.mp run
  have grown : (BaseColumn.value T ⟨c.values ++ [x]⟩).size = (BaseColumn.value T c).size + 1 := by
    simp [size, ValueColumn.size]
  refine ⟨⟨rfl, by omega, fun r inside => ?_⟩, grown, rfl, ⟨T, x⟩, Except.map_eq_ok.mpr ⟨x, cast, rfl⟩, ?_⟩
  · have old : r < c.values.length := inside
    rw [entry_value old, entry_value (c := ⟨c.values ++ [x]⟩) (by simp; omega)]
    simp [List.getElem_append_left old]
  · have last : c.values.length < (c.values ++ [x]).length := by simp
    have read := entry_value (T := T) (c := ⟨c.values ++ [x]⟩) last
    simpa [size, ValueColumn.size] using read

namespace Chunk

/-- Columns are only ever added to a chunk and extended. -/
def Extends (c later : Chunk) : Prop :=
  ∀ (i : Nat) (column : BaseColumn), c.columns[i]? = some column →
    ∃ column', later.columns[i]? = some column' ∧ column.Extends column'

theorem Extends.refl (c : Chunk) : c.Extends c := fun _ column found =>
  ⟨column, found, .refl column⟩

theorem Extends.trans {a b c : Chunk} (ab : a.Extends b) (bc : b.Extends c) : a.Extends c := by
  intro i column found
  obtain ⟨column', found', first⟩ := ab i column found
  obtain ⟨column'', found'', second⟩ := bc i column' found'
  exact ⟨column'', found'', first.trans second⟩

theorem append_eq_returned {c left : Chunk} {values : List AllTypeVariant} :
    c.append values = .returned left ↔ values.length = c.columns.length ∧
      left.columns.length = c.columns.length ∧
      ∀ (k : Nat) value column, values[k]? = some value → c.columns[k]? = some column →
        ∃ column', column.append value = .returned column' ∧ left.columns[k]? = some column' := by
  unfold append
  split
  · rename_i same
    rw [Outcome.within_eq_returned]
    constructor
    · rintro ⟨columns, run, rfl⟩
      exact ⟨same, (Outcome.each_eq_returned same).mp run⟩
    · rintro ⟨_, calls⟩
      exact ⟨left.columns, (Outcome.each_eq_returned same).mpr calls, rfl⟩
  · rename_i different
    simp [different]

/-- Where an append can stop: at the count of the values, or at some column after the columns
before it have been written. -/
theorem append_eq_stopped {c left : Chunk} {values : List AllTypeVariant} {fault : Fault}
    (run : c.append values = .stopped fault left) :
    (values.length ≠ c.columns.length ∧ left = c) ∨
      values.length = c.columns.length ∧ ∃ (k : Nat) (value : AllTypeVariant) (column : BaseColumn),
        values[k]? = some value ∧ c.columns[k]? = some column ∧ ¬column.Accepts value ∧
        (∀ n, k ≤ n → left.columns[n]? = c.columns[n]?) ∧
        ∀ (n : Nat) value column, n < k → values[n]? = some value → c.columns[n]? = some column →
          ∃ column', column.append value = .returned column' ∧ left.columns[n]? = some column' := by
  unfold append at run
  split at run
  · rename_i same
    obtain ⟨columns, loop, rfl⟩ := Outcome.within_eq_stopped.mp run
    obtain ⟨k, value, column, column', atValue, atColumn, stop, atLeft, after, before⟩ :=
      Outcome.each_eq_stopped loop
    obtain ⟨rfl, _⟩ := BaseColumn.append_eq_stopped stop
    refine Or.inr ⟨same, k, value, column', atValue, atColumn, ?_, ?_, before⟩
    · intro accepts
      obtain ⟨other, returned⟩ := BaseColumn.accepts_iff.mp accepts
      rw [stop] at returned
      cases returned
    · intro n above
      rcases Nat.lt_or_eq_of_le above with above | rfl
      · exact after n above
      · exact atLeft.trans atColumn.symm
  · rename_i different
    cases run
    exact Or.inl ⟨different, rfl⟩

/-- An append that stops has written nothing if the count was wrong or the first column refused its
value; else it has written the first column, and it was a later one that refused. -/
theorem append_stopped_cases {c left : Chunk} {values : List AllTypeVariant} {fault : Fault}
    (run : c.append values = .stopped fault left) :
    (left = c ∧ (values.length = c.columns.length → ∃ column value, c.columns[0]? = some column ∧
      values[0]? = some value ∧ ¬column.Accepts value)) ∨
    values.length = c.columns.length ∧
      (∃ (column grown : BaseColumn) (value : AllTypeVariant), c.columns[0]? = some column ∧
        values[0]? = some value ∧ column.append value = .returned grown ∧
          left.columns[0]? = some grown) ∧
      ∃ (k : Nat) (column : BaseColumn) (value : AllTypeVariant), c.columns[k]? = some column ∧
        values[k]? = some value ∧ ¬column.Accepts value ∧ left.columns[k]? = some column := by
  rcases append_eq_stopped run with ⟨different, rfl⟩ |
    ⟨same, k, value, column, atValue, atColumn, refused, after, earlier⟩
  · exact Or.inl ⟨rfl, fun equal => absurd equal different⟩
  · obtain _ | k := k
    · have unchanged : left.columns = c.columns := List.ext_getElem? fun n => after n (Nat.zero_le n)
      have equal : left = c := by cases left; cases c; simp_all
      exact Or.inl ⟨equal, fun _ => ⟨column, value, atColumn, atValue, refused⟩⟩
    · obtain ⟨inside, _⟩ := List.getElem?_eq_some_iff.mp atColumn
      have first := List.getElem?_eq_getElem (l := c.columns) (i := 0) (by omega)
      have firstValue := List.getElem?_eq_getElem (l := values) (i := 0) (by omega)
      obtain ⟨grown, taken, atGrown⟩ := earlier 0 _ _ (Nat.succ_pos k) firstValue first
      exact Or.inr ⟨same, ⟨_, grown, _, first, firstValue, taken, atGrown⟩,
        k + 1, column, value, atColumn, atValue, refused, (after (k + 1) le_rfl).trans atColumn⟩

/-- A row that the first column takes and some column does not is neither refused at once nor taken by all. -/
theorem not_whole_of_partial {c : Chunk} {values : List AllTypeVariant} {first grown column : BaseColumn}
    {firstValue value : AllTypeVariant} {k : Nat} (atFirst : c.columns[0]? = some first)
    (atFirstValue : values[0]? = some firstValue) (taken : first.append firstValue = .returned grown)
    (atColumn : c.columns[k]? = some column) (atValue : values[k]? = some value)
    (refused : ¬column.Accepts value) :
    ¬((∃ column value, c.columns[0]? = some column ∧ values[0]? = some value ∧ ¬column.Accepts value) ∨
      ∀ (k : Nat) column value, c.columns[k]? = some column → values[k]? = some value →
        column.Accepts value) := by
  rintro (⟨column', value', atColumn', atValue', refuses⟩ | accepts)
  · cases atFirst.symm.trans atColumn'
    cases atFirstValue.symm.trans atValue'
    exact refuses (BaseColumn.accepts_iff.mpr ⟨grown, taken⟩)
  · exact refused (accepts k column value atColumn atValue)

theorem catchable_of_append {c left : Chunk} {values : List AllTypeVariant} {fault : Fault}
    (run : c.append values = .stopped fault left) : fault.Catchable := by
  unfold append at run
  split at run
  · obtain ⟨columns, loop, rfl⟩ := Outcome.within_eq_stopped.mp run
    obtain ⟨_, _, _, _, _, _, stop, _⟩ := Outcome.each_eq_stopped loop
    exact (BaseColumn.append_eq_stopped stop).2
  · cases run
    simp [Fault.Catchable]

end Chunk

/-- The calls that leave a rectangular chunk rectangular. A column that is taken must have fewer than
`2^32` entries, and none at all when it makes the number of columns a multiple of `2^16`. A row of
the right length must be taken by all columns, or else be refused by the first one already; and it
may be neither the row with number `2^32` nor a row of a multiple of `2^16` columns. -/
def ChunkCall.KeepsShape (c : Chunk) : ChunkCall → Prop
  | addColumn column =>
    c.columns = [] ∨ column.size = c.firstColumnSize →
      column.size < 2 ^ 32 ∧ (column.size = 0 ∨ (c.columns.length + 1) % 2 ^ 16 ≠ 0)
  | append values =>
    values.length = c.columns.length →
      (∃ column value, c.columns[0]? = some column ∧ values[0]? = some value ∧
        ¬column.Accepts value) ∨
      (∀ (k : Nat) column value, c.columns[k]? = some column → values[k]? = some value →
        column.Accepts value) ∧
        (c.columns = [] ∨ c.firstColumnSize + 1 < 2 ^ 32 ∧ c.columns.length % 2 ^ 16 ≠ 0)

namespace Chunk

theorem addColumn_rectangular_iff {c left : Chunk} {column : BaseColumn} (before : c.Rectangular)
    (step : Caught Fault.Catchable ChunkCall.run c (.addColumn column) left) :
    left.Rectangular ↔ (ChunkCall.addColumn column).KeepsShape c := by
  rcases step with run | ⟨fault, _, run⟩
  · obtain ⟨taken, rfl⟩ := addColumn_eq_returned.mp run
    rw [rectangular_iff (by simp)]
    simp only [firstColumnSize_append_singleton, List.length_append, List.length_singleton,
      ChunkCall.KeepsShape]
    by_cases empty : c.columns = []
    · simp [empty]
    · obtain ⟨sizes, _, _⟩ := (rectangular_iff empty).mp before
      have first := firstColumnSize_eq empty before
      have equal : column.size = c.firstColumnSize := by
        rcases taken with same | none
        · exact same.trans first.symm
        · exact absurd none empty
      have all : ∀ d ∈ c.columns ++ [column], d.size = c.firstColumnSize := by
        intro d member
        rcases List.mem_append.mp member with old | new
        · exact sizes d old
        · rw [List.mem_singleton.mp new, equal]
      simp only [empty, if_false, equal, or_true, true_imp_iff]
      exact and_iff_right all
  · obtain ⟨rfl, _, different, nonempty⟩ := addColumn_eq_stopped run
    refine iff_of_true before fun taken => ?_
    rcases taken with empty | same
    · exact absurd empty nonempty
    · exact absurd (same.trans (firstColumnSize_eq nonempty before)) different

/-- A row that every column takes makes every column longer by one. -/
theorem append_sizes {c left : Chunk} {values : List AllTypeVariant}
    (run : c.append values = .returned left) {n : Nat}
    (sizes : ∀ column ∈ c.columns, column.size = n) :
    ∀ column ∈ left.columns, column.size = n + 1 := by
  obtain ⟨same, length, calls⟩ := append_eq_returned.mp run
  intro column member
  obtain ⟨k, inside, rfl⟩ := List.getElem_of_mem member
  have inOld : k < c.columns.length := length ▸ inside
  obtain ⟨column', taken, found⟩ := calls k _ _ (List.getElem?_eq_getElem (same ▸ inOld))
    (List.getElem?_eq_getElem inOld)
  obtain rfl : left.columns[k] = column' := by simpa [inside] using found
  rw [(BaseColumn.append_returned taken).2.1, sizes _ (List.getElem_mem inOld)]

theorem append_firstColumnSize {c left : Chunk} {values : List AllTypeVariant}
    (run : c.append values = .returned left) :
    left.columns.length = c.columns.length ∧
      left.firstColumnSize = if c.columns = [] then 0 else c.firstColumnSize + 1 := by
  obtain ⟨same, length, calls⟩ := append_eq_returned.mp run
  refine ⟨length, ?_⟩
  obtain ⟨columns⟩ := c
  obtain ⟨columns'⟩ := left
  simp only at same length
  obtain _ | ⟨column, columns⟩ := columns
  · obtain rfl : columns' = [] := List.length_eq_zero_iff.mp length
    rfl
  · obtain _ | ⟨column', columns'⟩ := columns'
    · simp at length
    obtain _ | ⟨value, values⟩ := values
    · simp at same
    obtain ⟨taken, run, found⟩ := calls 0 value column rfl rfl
    obtain rfl : column' = taken := by simpa using found
    exact (BaseColumn.append_returned run).2.1

theorem append_accepts {c left : Chunk} {values : List AllTypeVariant}
    (run : c.append values = .returned left) (k : Nat) (column : BaseColumn) (value : AllTypeVariant)
    (atColumn : c.columns[k]? = some column) (atValue : values[k]? = some value) :
    column.Accepts value := by
  obtain ⟨_, _, calls⟩ := append_eq_returned.mp run
  obtain ⟨column', taken, _⟩ := calls k value column atValue atColumn
  exact BaseColumn.accepts_iff.mpr ⟨column', taken⟩

/-- When a later column refuses the row, the first column has taken it already. -/
theorem append_stopped_rectangular_iff {c left : Chunk} {values : List AllTypeVariant} {fault : Fault}
    (before : c.Rectangular) (run : c.append values = .stopped fault left) :
    left.Rectangular ↔ (ChunkCall.append values).KeepsShape c := by
  rcases append_stopped_cases run with ⟨rfl, refuses⟩ |
    ⟨same, ⟨first, grown, firstValue, atFirst, atFirstValue, taken, atGrown⟩,
      k, column, value, atColumn, atValue, refused, atLeft⟩
  · exact iff_of_true before fun equal => Or.inl (refuses equal)
  · refine iff_of_false ?_ fun keeps => ?_
    · intro rectangular
      have sizeFirst := rectangular grown (List.mem_of_getElem? atGrown)
      have sizeLater := rectangular column (List.mem_of_getElem? atLeft)
      have old := before column (List.mem_of_getElem? atColumn)
      have oldFirst := before first (List.mem_of_getElem? atFirst)
      rw [(BaseColumn.append_returned taken).2.1] at sizeFirst
      omega
    · have whole := (keeps same).imp_right And.left
      exact not_whole_of_partial atFirst atFirstValue taken atColumn atValue refused whole

theorem append_returned_rectangular_iff {c left : Chunk} {values : List AllTypeVariant}
    (before : c.Rectangular) (run : c.append values = .returned left) :
    left.Rectangular ↔ (ChunkCall.append values).KeepsShape c := by
  obtain ⟨same, length, _⟩ := append_eq_returned.mp run
  have accepts := append_accepts run
  by_cases empty : c.columns = []
  · have none : left.columns = [] := List.length_eq_zero_iff.mp (by simp [length, empty])
    exact iff_of_true (rectangular_of_columns_eq_nil none) fun _ => Or.inr ⟨accepts, Or.inl empty⟩
  · have positive := List.length_pos_iff.mpr empty
    have some : left.columns ≠ [] := List.length_pos_iff.mp (length ▸ positive)
    have sizes := append_sizes run ((rectangular_iff empty).mp before).1
    have first := firstColumnSize_eq some sizes
    rw [rectangular_iff some, first, length]
    constructor
    · rintro ⟨_, small, few⟩ _
      exact Or.inr ⟨accepts, Or.inr ⟨small, by omega⟩⟩
    · intro keeps
      rcases keeps same with ⟨column, value, atColumn, atValue, refuses⟩ | ⟨_, none | ⟨small, few⟩⟩
      · exact absurd (accepts 0 column value atColumn atValue) refuses
      · exact absurd none empty
      · exact ⟨sizes, small, Or.inr few⟩

/-- One call on a rectangular chunk, whichever way it ends. -/
theorem rectangular_step_iff {c left : Chunk} {call : ChunkCall} (before : c.Rectangular)
    (step : Caught Fault.Catchable ChunkCall.run c call left) :
    left.Rectangular ↔ call.KeepsShape c := by
  cases call with
  | addColumn column => exact addColumn_rectangular_iff before step
  | append values =>
    rcases step with run | ⟨fault, _, run⟩
    · exact append_returned_rectangular_iff before run
    · exact append_stopped_rectangular_iff before run

theorem addColumn_extends {c left : Chunk} {column : BaseColumn} {o : Outcome Fault Chunk}
    (run : c.addColumn (some column) = o) (ends : o.left = left) : c.Extends left := by
  intro i old found
  refine ⟨old, ?_, .refl old⟩
  cases o with
  | returned d =>
    obtain ⟨_, rfl⟩ := addColumn_eq_returned.mp run
    obtain rfl := ends
    exact List.getElem?_append_left (List.getElem?_eq_some_iff.mp found).1 ▸ found
  | stopped fault d =>
    obtain ⟨rfl, _⟩ := addColumn_eq_stopped run
    obtain rfl := ends
    exact found

theorem append_extends {c left : Chunk} {values : List AllTypeVariant} {o : Outcome Fault Chunk}
    (run : c.append values = o) (ends : o.left = left) : c.Extends left := by
  intro i old found
  obtain ⟨inside, rfl⟩ := List.getElem?_eq_some_iff.mp found
  cases o with
  | returned d =>
    obtain rfl := ends
    obtain ⟨same, _, calls⟩ := append_eq_returned.mp run
    obtain ⟨column', taken, found'⟩ := calls i _ _
      (List.getElem?_eq_getElem (l := values) (i := i) (by omega)) found
    exact ⟨column', found', (BaseColumn.append_returned taken).1⟩
  | stopped fault d =>
    obtain rfl := ends
    rcases append_eq_stopped run with ⟨_, rfl⟩ | ⟨same, k, _, _, _, _, _, after, earlier⟩
    · exact ⟨_, found, .refl _⟩
    by_cases below : i < k
    · obtain ⟨column', taken, found'⟩ := earlier i _ _ below
        (List.getElem?_eq_getElem (l := values) (i := i) (by omega)) found
      exact ⟨column', found', (BaseColumn.append_returned taken).1⟩
    · exact ⟨_, (after i (by omega)).trans found, .refl _⟩

theorem extends_step {c left : Chunk} {call : ChunkCall}
    (step : Caught Fault.Catchable ChunkCall.run c call left) : c.Extends left := by
  cases call with
  | addColumn column => exact addColumn_extends rfl step.left_eq
  | append values => exact append_extends rfl step.left_eq

theorem extends_run {c left : Chunk} {calls : List ChunkCall} (run : ChunkRun c calls left) :
    c.Extends left :=
  run.invariant c.Extends (fun _ _ _ _ before step => before.trans (extends_step step)) (.refl c)

/-- The entries that an append has written are still there at one and the same offset of all
columns, the number of rows before that append. -/
def RowsAligned (calls : List ChunkCall) (c : Chunk) : Prop :=
  ∀ pre values post u v, calls = pre ++ .append values :: post → ChunkRun empty pre u →
    u.append values = .returned v → ∀ (i : Nat) value, values[i]? = some value →
      ∃ column x, c.columns[i]? = some column ∧ castTo column.elementType value = .ok x ∧
        column.entry u.size.toNat = .ok x

/-- If all states of a run are rectangular, then so are its rows. -/
theorem rowsAligned_of_rectangular {calls : List ChunkCall} {c : Chunk} (run : ChunkRun empty calls c)
    (rectangular : ∀ pre u, pre <+: calls → ChunkRun empty pre u → u.Rectangular) :
    c.RowsAligned calls := by
  rintro pre values post u v rfl before appended i value atValue
  have shape := rectangular pre u (List.prefix_append ..) before
  obtain ⟨u', before', after⟩ := Run.append_iff.mp run
  obtain rfl := Run.functional Caught.functional before before'
  obtain ⟨v', step, later⟩ := Run.cons_iff.mp after
  obtain rfl := Caught.functional _ _ _ _ (Or.inl appended) step
  obtain ⟨same, _, calls⟩ := append_eq_returned.mp appended
  obtain ⟨inside, _⟩ := List.getElem?_eq_some_iff.mp atValue
  have old := List.getElem?_eq_getElem (l := u.columns) (i := i) (by omega)
  obtain ⟨column, taken, found⟩ := calls i value _ atValue old
  obtain ⟨_, grown, _, x, cast, written⟩ := BaseColumn.append_returned taken
  have size := shape _ (List.mem_of_getElem? old)
  obtain ⟨column', found', kept⟩ := extends_run later i column found
  refine ⟨column', x, found', kept.sameType ▸ cast, ?_⟩
  rw [kept.entry _ (by omega), ← size, written]

/-- Chunk rectangularity, exactly: in every state of a run, throwing calls included, all columns have
the size that the chunk reports and every appended row sits at one offset, if and only if every call
of the run keeps the shape of the chunk it is made on. -/
theorem rectangular_run_iff {calls : List ChunkCall} {c : Chunk} (run : ChunkRun empty calls c) :
    (∀ pre u, pre <+: calls → ChunkRun empty pre u → u.Rectangular ∧ u.RowsAligned pre) ↔
      Run (fun c call left => call.KeepsShape c ∧ Caught Fault.Catchable ChunkCall.run c call left)
        empty calls c := by
  have exactly := Run.all_good_iff Caught.functional (fun _ => True) Rectangular
    (fun c (call : ChunkCall) => call.KeepsShape c) (fun _ _ _ _ _ => trivial)
    (fun _ _ _ _ before step => rectangular_step_iff before step) run trivial
    (rectangular_of_columns_eq_nil rfl)
  rw [← exactly]
  constructor
  · intro all pre u isPrefix before
    exact (all pre u isPrefix before).1
  · intro all pre u isPrefix before
    exact ⟨all pre u isPrefix before, rowsAligned_of_rectangular before fun pre' u' inner =>
      all pre' u' (inner.trans isPrefix)⟩

omit [Build] in
theorem rectangular_run_iff_one_column :
    letI := strictBuild
    (∀ pre u, pre <+: [.addColumn (.value .int ⟨[(4 : Int32)]⟩), .append [⟨.int, (6 : Int32)⟩]] →
        ChunkRun empty pre u → u.Rectangular ∧ u.RowsAligned pre) ↔
      Run (fun c call left => call.KeepsShape c ∧ Caught Fault.Catchable ChunkCall.run c call left)
        empty [.addColumn (.value .int ⟨[(4 : Int32)]⟩), .append [⟨.int, (6 : Int32)⟩]]
        ⟨[.value .int ⟨[(4 : Int32), (6 : Int32)]⟩]⟩ :=
  letI := strictBuild
  rectangular_run_iff (.call (Or.inl rfl) (.call (Or.inl rfl) .start))

omit [Build] in
/-- The second column cannot cast its value, but the first one has been written by then. -/
theorem append_breaks_shape :
    ¬∀ [Build] (calls : List ChunkCall) (c : Chunk), ChunkRun empty calls c → c.Rectangular := by
  intro all
  let _ := strictBuild
  have run : ChunkRun empty
      [.addColumn (.value .int ⟨[]⟩), .addColumn (.value .int ⟨[]⟩),
        .append [⟨.int, (1 : Int32)⟩, ⟨.string, "one"⟩]]
      ⟨[.value .int ⟨[(1 : Int32)]⟩, .value .int ⟨[]⟩]⟩ :=
    .call (Or.inl rfl) (.call (Or.inl rfl)
      (.call (Or.inr ⟨.badLexicalCast, by simp [Fault.Catchable], rfl⟩) .start))
  have equal := all _ _ run (.value .int ⟨[]⟩) (by simp)
  revert equal
  decide

end Chunk

end Opossum
