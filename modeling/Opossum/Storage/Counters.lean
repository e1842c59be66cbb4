import Opossum.Foundation.Run
import Opossum.Storage.ChunkShape
import Opossum.Storage.TableSteps
import Mathlib.Algebra.Group.Action.Defs
import Mathlib.Algebra.Order.BigOperators.Group.List

/-!
# The counters of tables and chunks

`col_count`, `row_count`, `chunk_count` and `size` are computed from longer integers. They are exact as
long as the true counts fit.
-/

namespace Opossum
namespace Table
variable {t left : Table}

/-- Every counter gives the true count. -/
structure CountersExact (t : Table) : Prop where
  colCount : t.colCount.toNat = t.columnNames.length
  chunkCount : t.chunkCount.toNat = t.chunks.length
  chunkColCount : ∀ chunk ∈ t.chunks, chunk.colCount.toNat = chunk.columns.length
  chunkSize : ∀ chunk ∈ t.chunks, chunk.size.toNat = chunk.firstColumnSize
  rowCount : t.rowCount.toNat = (t.chunks.map Chunk.firstColumnSize).sum

/-- The true counts fit the types of the counters. -/
structure CountsFit (t : Table) : Prop where
  columns : t.columnNames.length < 2 ^ 16
  chunks : t.chunks.length < 2 ^ 32
  chunkColumns : ∀ chunk ∈ t.chunks, chunk.columns.length < 2 ^ 16
  chunkRows : ∀ chunk ∈ t.chunks, chunk.firstColumnSize < 2 ^ 32

theorem mod_eq_iff_lt {n m : Nat} (positive : 0 < m) : n % m = n ↔ n < m :=
  ⟨fun same => same ▸ Nat.mod_lt n positive, Nat.mod_eq_of_lt⟩

/-- The conversions lose nothing exactly when the counts fit. -/
theorem countersExact_iff : t.CountersExact ↔ t.CountsFit := by
  constructor
  · rintro ⟨colCount, chunkCount, chunkColCount, chunkSize, _⟩
    rw [colCount_toNat, mod_eq_iff_lt (by omega)] at colCount
    rw [chunkCount_toNat, mod_eq_iff_lt (by omega)] at chunkCount
    refine ⟨colCount, chunkCount, fun chunk member => ?_, fun chunk member => ?_⟩
    · have same := chunkColCount chunk member
      rwa [Chunk.colCount_toNat, mod_eq_iff_lt (by omega)] at same
    · rw [← chunkSize chunk member]
      exact UInt32.toNat_lt _
  · rintro ⟨columns, chunks, chunkColumns, chunkRows⟩
    have size (chunk : Chunk) (member : chunk ∈ t.chunks) : chunk.size.toNat = chunk.firstColumnSize := by
      have few := chunkColumns chunk member
      rw [Chunk.size_toNat, Nat.mod_eq_of_lt few, Nat.mod_eq_of_lt (chunkRows chunk member)]
      split
      · rename_i none
        simp [Chunk.firstColumnSize, List.length_eq_zero_iff.mp none]
      · rfl
    have sizes : (t.chunks.map fun chunk => chunk.size.toNat) = t.chunks.map Chunk.firstColumnSize :=
      List.map_congr_left size
    have total := List.sum_le_card_nsmul (t.chunks.map Chunk.firstColumnSize) (2 ^ 32) (by
      simpa using fun chunk member => (chunkRows chunk member).le)
    rw [List.length_map, smul_eq_mul] at total
    refine ⟨?_, ?_, fun chunk member => ?_, size, ?_⟩
    · rw [colCount_toNat, Nat.mod_eq_of_lt columns]
    · rw [chunkCount_toNat, Nat.mod_eq_of_lt chunks]
    · rw [Chunk.colCount_toNat, Nat.mod_eq_of_lt (chunkColumns chunk member)]
    · rw [rowCount_toNat, sizes, Nat.mod_eq_of_lt (by omega)]

end Table

/-- The call leaves counts that fit: it does not add the column definition, the column, the chunk or the
row that is one too many. -/
def TableCall.KeepsCounts (t : Table) : TableCall → Prop
  | addColumnDefinition _ _ => t.columnNames.length + 1 < 2 ^ 16
  | addColumn name _ => (name ∈ t.columnNames ∨ t.columnNames.length + 1 < 2 ^ 16) ∧
      ∀ chunk ∈ t.chunks, chunk.columns.length + 1 < 2 ^ 16
  | append _ =>
      if t.isLastChunkFull = true then t.chunks.length + 1 < 2 ^ 32
      else ∀ chunk, t.chunks.getLast? = some chunk →
        chunk.columns = [] ∨ chunk.firstColumnSize + 1 < 2 ^ 32
  | createNewChunk => t.chunks.length + 1 < 2 ^ 32
  | compressChunk _ => True

namespace Table
variable [Build] {t left : Table} {name type : String}

omit [Build] in
theorem CountsFit.with_chunks (fit : t.CountsFit) (chunks : List Chunk) :
    { t with chunks := chunks }.CountsFit ↔ chunks.length < 2 ^ 32 ∧ ∀ chunk ∈ chunks,
      chunk.columns.length < 2 ^ 16 ∧ chunk.firstColumnSize < 2 ^ 32 := by
  constructor
  · rintro ⟨_, few, columns, rows⟩
    exact ⟨few, fun chunk member => ⟨columns chunk member, rows chunk member⟩⟩
  · rintro ⟨few, each⟩
    exact ⟨fit.columns, few, fun chunk member => (each chunk member).1,
      fun chunk member => (each chunk member).2⟩

omit [Build] in
theorem addColumnDefinition_countsFit_iff (fit : t.CountsFit)
    (run : t.addColumnDefinition name type = .returned left) :
    left.CountsFit ↔ (TableCall.addColumnDefinition name type).KeepsCounts t := by
  obtain ⟨_, rfl⟩ := addColumnDefinition_eq_returned.mp run
  constructor
  · intro fits
    simpa [TableCall.KeepsCounts] using fits.columns
  · intro keeps
    exact ⟨by simpa [TableCall.KeepsCounts] using keeps, fit.chunks, fit.chunkColumns, fit.chunkRows⟩

theorem instantiate_counts {chunk chunk' : Chunk} (run : instantiate type chunk = .returned chunk') :
    chunk'.columns.length = chunk.columns.length + 1 ∧
      chunk'.firstColumnSize = chunk.firstColumnSize := by
  obtain ⟨T, _, _, rfl⟩ := instantiate_eq_returned.mp run
  refine ⟨by simp, ?_⟩
  rw [Chunk.firstColumnSize_append_singleton]
  split
  · rename_i none
    simp [Chunk.firstColumnSize, none, BaseColumn.size, ValueColumn.size]
  · rfl

theorem addColumn_countsFit_iff (fit : t.CountsFit)
    (run : t.addColumn name type = .returned left) :
    left.CountsFit ↔ (TableCall.addColumn name type).KeepsCounts t := by
  obtain ⟨t', chunks, id, defines, taken, _, _, rfl⟩ := addColumn_eq_returned.mp run
  have names : t'.columnNames.length < 2 ^ 16 ↔
      name ∈ t.columnNames ∨ t.columnNames.length + 1 < 2 ^ 16 := by
    cases defines with
    | known member => simpa [member] using fit.columns
    | new absent => simp [absent]
  constructor
  · rintro ⟨columns, _, chunkColumns, _⟩
    refine ⟨names.mp columns, fun chunk member => ?_⟩
    obtain ⟨chunk', member', made⟩ := Pointwise.mem_left taken member
    exact (instantiate_counts made).1 ▸ chunkColumns chunk' member'
  · rintro ⟨columns, chunkColumns⟩
    refine ⟨names.mpr columns, taken.length_eq ▸ fit.chunks, ?_, ?_⟩
    · intro chunk' member'
      obtain ⟨chunk, member, made⟩ := Pointwise.mem_right taken member'
      rw [(instantiate_counts made).1]
      exact chunkColumns chunk member
    · intro chunk' member'
      obtain ⟨chunk, member, made⟩ := Pointwise.mem_right taken member'
      rw [(instantiate_counts made).2]
      exact fit.chunkRows chunk member

omit [Build] in
theorem fresh_counts {types : List ColumnType} (few : types.length < 2 ^ 16) :
    (Chunk.fresh types).columns.length < 2 ^ 16 ∧ (Chunk.fresh types).firstColumnSize = 0 := by
  refine ⟨by simpa [Chunk.fresh] using few, ?_⟩
  cases types <;> rfl

theorem createNewChunk_countsFit_iff (fit : t.CountsFit)
    (steady : t.columnTypes.length = t.columnNames.length) (run : t.createNewChunk = .returned left) :
    left.CountsFit ↔ TableCall.createNewChunk.KeepsCounts t := by
  obtain ⟨types, typed, rfl⟩ := createNewChunk_eq_returned.mp run
  have columns := fit.columns
  rw [← steady, typed, List.length_map] at columns
  obtain ⟨fewColumns, noRows⟩ := fresh_counts columns
  rw [fit.with_chunks, List.length_append, List.length_singleton]
  refine and_iff_left_of_imp fun _ chunk member => ?_
  rcases List.mem_append.mp member with old | new
  · exact ⟨fit.chunkColumns chunk old, fit.chunkRows chunk old⟩
  · rw [List.mem_singleton.mp new, noRows]
    exact ⟨fewColumns, by omega⟩

/-- An append to the last chunk makes its first column longer by one, if it has one. -/
theorem onBack_countsFit_iff {values : List AllTypeVariant} (fit : t.CountsFit)
    (run : t.onBack (fun chunk => chunk.append values) = .returned left) :
    left.CountsFit ↔ ∀ chunk, t.chunks.getLast? = some chunk →
      chunk.columns = [] ∨ chunk.firstColumnSize + 1 < 2 ^ 32 := by
  obtain ⟨front, last, last', split, wrote, rfl⟩ := onBack_eq_returned.mp run
  obtain ⟨sameColumns, rows⟩ := Chunk.append_firstColumnSize wrote
  have few := fit.chunks
  have member : last ∈ t.chunks := by simp [split]
  rw [split, List.length_append, List.length_singleton] at few
  rw [fit.with_chunks]
  simp only [split, List.getLast?_append, List.getLast?_singleton, Option.some_or, Option.some.injEq,
    forall_eq', List.length_append, List.length_singleton, few, true_and, List.forall_mem_append,
    List.forall_mem_singleton, sameColumns, rows]
  have before : ∀ chunk ∈ front, chunk.columns.length < 2 ^ 16 ∧ chunk.firstColumnSize < 2 ^ 32 :=
    fun chunk inFront => by
      have old : chunk ∈ t.chunks := by simp [split, inFront]
      exact ⟨fit.chunkColumns chunk old, fit.chunkRows chunk old⟩
  rw [and_iff_right before, and_iff_right (fit.chunkColumns last member)]
  by_cases none : last.columns = []
  · simp [none]
  · simp [none]

theorem append_countsFit_iff {values : List AllTypeVariant} (fit : t.CountsFit)
    (steady : t.columnTypes.length = t.columnNames.length) (run : t.append values = .returned left) :
    left.CountsFit ↔ (TableCall.append values).KeepsCounts t := by
  unfold append at run
  unfold TableCall.KeepsCounts
  split at run
  · rename_i full
    obtain ⟨mid, opened, wrote⟩ := Outcome.andThen_eq_returned.mp run
    have midFits := createNewChunk_countsFit_iff fit steady opened
    rw [if_pos full]
    constructor
    · intro fits
      obtain ⟨front, last, last', split, _, rfl⟩ := onBack_eq_returned.mp wrote
      obtain ⟨types, _, rfl⟩ := createNewChunk_eq_returned.mp opened
      have few := fits.chunks
      have sameLength := congrArg List.length split
      simp only [List.length_append, List.length_singleton] at few sameLength
      omega
    · intro room
      have midFit := midFits.mpr room
      refine (onBack_countsFit_iff midFit wrote).mpr fun chunk last => ?_
      obtain ⟨types, typed, rfl⟩ := createNewChunk_eq_returned.mp opened
      have columns := fit.columns
      rw [← steady, typed, List.length_map] at columns
      rw [List.getLast?_append, List.getLast?_singleton] at last
      rw [← Option.some.inj last, (fresh_counts columns).2]
      exact Or.inr (by omega)
  · rename_i room
    rw [if_neg room]
    exact onBack_countsFit_iff fit run

/-- A call of the kinds that only make the table larger, which returns. -/
def Grows (t : Table) (call : TableCall) (left : Table) : Prop :=
  (∀ id, call ≠ .compressChunk id) ∧ call.run t = .returned left

theorem Grows.functional (t : Table) (call : TableCall) (one other : Table) (first : t.Grows call one)
    (second : t.Grows call other) : one = other :=
  Returning.functional t call one other first.2 second.2

theorem countsFit_step_iff {call : TableCall} (steady : t.columnTypes.length = t.columnNames.length)
    (fit : t.CountsFit) (step : t.Grows call left) : left.CountsFit ↔ call.KeepsCounts t := by
  obtain ⟨notCompress, run⟩ := step
  cases call with
  | addColumnDefinition name type => exact addColumnDefinition_countsFit_iff fit run
  | addColumn name type => exact addColumn_countsFit_iff fit run
  | append values => exact append_countsFit_iff fit steady run
  | createNewChunk => exact createNewChunk_countsFit_iff fit steady run
  | compressChunk id => exact absurd rfl (notCompress id)

/-- Names and types of the columns are stored together. -/
theorem steady_step {call : TableCall} (steady : t.columnTypes.length = t.columnNames.length)
    (step : t.Grows call left) : left.columnTypes.length = left.columnNames.length := by
  obtain ⟨notCompress, run⟩ := step
  have unchanged (rowCall : ∀ name type, call ≠ .addColumnDefinition name type ∧
      call ≠ .addColumn name type) : left.columnTypes.length = left.columnNames.length := by
    obtain ⟨chunks, _, same⟩ := left_rowCall (t := t) rowCall
    rw [run, Outcome.left_returned] at same
    rw [same]
    exact steady
  cases call with
  | addColumnDefinition name type =>
    obtain ⟨_, rfl⟩ := addColumnDefinition_eq_returned.mp run
    simpa using steady
  | addColumn name type =>
    obtain ⟨t', chunks, id, defines, _, _, _, rfl⟩ := addColumn_eq_returned.mp run
    cases defines with
    | known => exact steady
    | new => simpa using steady
  | append values => exact unchanged (by simp)
  | createNewChunk => exact unchanged (by simp)
  | compressChunk id => exact absurd rfl (notCompress id)

theorem new_countsFit {chunkSize : UInt32} (created : Table.new chunkSize = .returned t) :
    t.columnTypes.length = t.columnNames.length ∧ t.CountsFit := by
  obtain ⟨types, typed, rfl⟩ := createNewChunk_eq_returned.mp created
  obtain rfl : types = [] := by simpa using typed.symm
  refine ⟨rfl, by simp, by simp, ?_, ?_⟩ <;> simp [Chunk.fresh, Chunk.firstColumnSize]

/-- No counter wraps in any state of a run if and only if no call of the run makes a count too large for
its counter. -/
theorem countersExact_run_iff {chunkSize : UInt32} {made : Table} {calls : List TableCall}
    (created : Table.new chunkSize = .returned made) (run : Run Table.Grows made calls t) :
    (∀ pre u, pre <+: calls → Run Table.Grows made pre u → u.CountersExact) ↔
      Run (fun t call left => call.KeepsCounts t ∧ t.Grows call left) made calls t := by
  obtain ⟨steady, fit⟩ := new_countsFit created
  simp only [countersExact_iff]
  exact Run.all_good_iff Grows.functional (fun t => t.columnTypes.length = t.columnNames.length) CountsFit
    (fun t call => call.KeepsCounts t) (fun _ _ _ steady step => steady_step steady step)
    (fun _ _ _ steady fit step => countsFit_step_iff steady fit step) run steady fit

omit [Build] in
theorem countersExact_run_iff_new_chunk :
    letI := strictBuild
    let made : Table := ⟨[], [], [], [⟨[]⟩], 2⟩
    let calls := [.addColumnDefinition "a" "int", .addColumn "a" "int", .append [⟨.int, (1 : Int32)⟩],
      .addColumnDefinition "b" "int", .createNewChunk, .append [⟨.int, (2 : Int32)⟩, ⟨.int, (3 : Int32)⟩]]
    (∀ pre u, pre <+: calls → Run Table.Grows made pre u → u.CountersExact) ↔
      Run (fun t call left => call.KeepsCounts t ∧ t.Grows call left) made calls
        ⟨[true, false], ["a", "b"], ["int", "int"], [⟨[.value .int ⟨[(1 : Int32)]⟩]⟩,
          ⟨[.value .int ⟨[(2 : Int32)]⟩, .value .int ⟨[(3 : Int32)]⟩]⟩], 2⟩ := by
  let _ := strictBuild
  have created : Table.new 2 = .returned ⟨[], [], [], [⟨[]⟩], 2⟩ := rfl
  exact countersExact_run_iff created
    (.call ⟨by simp, rfl⟩ <| .call ⟨by simp, rfl⟩ <| .call ⟨by simp, rfl⟩ <| .call ⟨by simp, rfl⟩ <|
      .call ⟨by simp, rfl⟩ <| .call ⟨by simp, rfl⟩ .start)

/-- Definitions of distinct new names are all accepted. -/
theorem run_definitions (names : List String) (distinct : (t.columnNames ++ names).Nodup) :
    ∃ left, Run Table.Grows t (names.map fun name => .addColumnDefinition name "int") left ∧
      left.columnNames = t.columnNames ++ names := by
  induction names generalizing t with
  | nil => exact ⟨t, .start, by simp⟩
  | cons name names ih =>
    have absent : name ∉ t.columnNames := fun member =>
      (List.nodup_append.mp distinct).2.2 name member name (List.mem_cons_self ..) rfl
    have step : t.addColumnDefinition name "int" = .returned _ :=
      addColumnDefinition_eq_returned.mpr ⟨absent, rfl⟩
    obtain ⟨left, run, same⟩ := ih (t := { t with
      columnNames := t.columnNames ++ [name]
      columnTypes := t.columnTypes ++ ["int"]
      isInstantiated := t.isInstantiated ++ [false] }) (by simpa using distinct)
    exact ⟨left, .call ⟨by simp, step⟩ run, by simpa using same⟩

omit [Build] in
/-- After `2^16` definitions the table reports no columns. -/
theorem definitions_wrap_colCount :
    ¬∀ [Build] (chunkSize : UInt32) (made t : Table) (calls : List TableCall),
      Table.new chunkSize = .returned made → Run Table.Grows made calls t → t.CountersExact := by
  intro all
  let _ := strictBuild
  obtain ⟨names, length, distinct⟩ : ∃ names : List String, names.length = 2 ^ 16 ∧ names.Nodup := by
    refine ⟨(List.range (2 ^ 16)).map fun n => String.ofList (List.replicate n 'a'), by simp, ?_⟩
    refine List.nodup_range.map fun n m same => ?_
    have lengths := congrArg (fun s => s.toList.length) same
    simpa using lengths
  obtain ⟨t, run, defined⟩ := run_definitions (t := ⟨[], [], [], [⟨[]⟩], 0⟩) names (by simpa using distinct)
  have exactly := (all 0 _ t _ rfl run).colCount
  rw [colCount_toNat, defined, List.nil_append, length] at exactly
  omega

end Table
end Opossum
