import Opossum.Storage.ChunkRows
import Opossum.Storage.SchemaAlignment
import Opossum.Storage.SchemaLookup
import Opossum.Storage.TypeResolution

/-!
# What a throwing call leaves behind

`append` writes column after column, and `add_column` writes the definition before the chunks. Neither
takes anything back when it throws halfway, so both are atomic only where they throw at once.
-/

namespace Opossum

variable [Build]

namespace Chunk

/-- If the row has the right length, then the first column refuses its value, or no column does. -/
def TakesWhole (c : Chunk) (values : List AllTypeVariant) : Prop :=
  values.length = c.columns.length →
    (∃ column value, c.columns[0]? = some column ∧ values[0]? = some value ∧ ¬column.Accepts value) ∨
    ∀ (k : Nat) column value, c.columns[k]? = some column → values[k]? = some value →
      column.Accepts value

theorem append_atomic_iff {c : Chunk} {values : List AllTypeVariant} :
    (c.append values).Atomic Fault.Catchable c ↔ c.TakesWhole values := by
  cases run : c.append values with
  | returned left =>
    exact iff_of_true (Outcome.atomic_returned c left) fun _ => Or.inr (append_accepts run)
  | stopped fault left =>
    rw [Outcome.atomic_stopped_iff, imp_iff_right (catchable_of_append run)]
    rcases append_stopped_cases run with ⟨rfl, refuses⟩ |
      ⟨same, ⟨first, grown, firstValue, atFirst, atFirstValue, taken, atGrown⟩,
        k, column, value, atColumn, atValue, refused, _⟩
    · exact iff_of_true rfl fun equal => Or.inl (refuses equal)
    · refine iff_of_false ?_ fun whole => ?_
      · rintro rfl
        cases atFirst.symm.trans atGrown
        have grows := (BaseColumn.append_returned taken).2.1
        omega
      · exact not_whole_of_partial atFirst atFirstValue taken atColumn atValue refused (whole same)

/-- The chunk reports no rows, as a new column has none, or has no columns yet. -/
def TakesColumn (c : Chunk) : Prop := c.size.toNat = 0 ∨ c.columns = []

instance : DecidablePred TakesColumn := fun c =>
  inferInstanceAs (Decidable (c.size.toNat = 0 ∨ c.columns = []))

/-- A new chunk takes just the rows that can be cast to its types. -/
theorem fresh_append_iff {types : List ColumnType} {values : List AllTypeVariant} :
    (∃ left, (fresh types).append values = .returned left) ↔ ∃ row, castRow types values = .ok row := by
  constructor
  · rintro ⟨left, run⟩
    have accepts := append_accepts run
    obtain ⟨same, _⟩ := append_eq_returned.mp run
    have length : values.length = types.length := by simpa [fresh] using same
    have castable : ∀ cell ∈ types.zip values, ∃ x, castTo cell.1 cell.2 = .ok x := by
      intro cell member
      obtain ⟨k, atCell⟩ := List.mem_iff_getElem?.mp member
      obtain ⟨atT, atValue⟩ := List.getElem?_zip_eq_some.mp atCell
      have atColumn : (fresh types).columns[k]? = some (.value cell.1 ⟨[]⟩) := by
        rw [fresh, List.getElem?_map, atT, Option.map_some]
      obtain ⟨_, x, cast⟩ := accepts k _ _ atColumn atValue
      exact ⟨⟨cell.1, x⟩, Except.map_eq_ok.mpr ⟨x, cast, rfl⟩⟩
    obtain ⟨row, cast⟩ := Pointwise.exists_forall₂ castable
    exact ⟨row, castRow_eq_ok.mpr ⟨length, cast⟩⟩
  · rintro ⟨row, cast⟩
    refine append_castable ?_ ?_ cast
    · simp [fresh, Function.comp_def]
    · simp [fresh]

end Chunk

namespace Table
variable {t left : Table} {name type : String}

/-- When the last chunk is full, and a new one is opened for it, every value of the row can be cast to
the type of its column; else the last chunk takes the row as a whole. -/
def AppendsWhole (t : Table) (values : List AllTypeVariant) : Prop :=
  if t.isLastChunkFull then
    ∃ types row, t.columnTypes = types.map ColumnType.typeString ∧ castRow types values = .ok row
  else
    ∀ last, t.chunks.getLast? = some last → last.TakesWhole values

omit [Build] in
theorem onBack_concat (front : List Chunk) (last : Chunk) (call : Chunk → Outcome Fault Chunk) :
    onBack { t with chunks := front ++ [last] } call =
      (call last).within fun chunk => { t with chunks := front ++ [chunk] } := by
  simp [onBack]

omit [Build] in
theorem onBack_atomic_iff {call : Chunk → Outcome Fault Chunk} :
    (t.onBack call).Atomic Fault.Catchable t ↔
      ∀ last, t.chunks.getLast? = some last → (call last).Atomic Fault.Catchable last := by
  unfold onBack
  cases atLast : t.chunks.getLast? with
  | none => exact iff_of_true (Outcome.atomic_stopped_iff.mpr fun _ => rfl) (by simp)
  | some last =>
    have whole : t = { t with chunks := t.chunks.dropLast ++ [last] } := by
      rw [List.dropLast_append_getLast? last atLast]
    have injective : Function.Injective fun chunk =>
        ({ t with chunks := t.chunks.dropLast ++ [chunk] } : Table) := by
      intro chunk chunk' same
      simpa using same
    simp only [Option.some.injEq, forall_eq']
    rw [← Outcome.atomic_within_iff injective, ← whole]

theorem append_atomic_iff (resolve : t.TypesResolve) (values : List AllTypeVariant) :
    (t.append values).Atomic Fault.Catchable t ↔ t.AppendsWhole values := by
  unfold append AppendsWhole
  by_cases full : t.isLastChunkFull = true
  · obtain ⟨types, typed⟩ := supported_iff.mp resolve
    rw [if_pos full, if_pos full, createNewChunk_eq typed, Outcome.returned_andThen, onBack_concat]
    have longer (chunk : Chunk) : ({ t with chunks := t.chunks ++ [chunk] } : Table) ≠ t := by
      intro same
      have lengths := congrArg (fun u => u.chunks.length) same
      simp at lengths
    have castable : (∃ types row, t.columnTypes = types.map ColumnType.typeString ∧
        castRow types values = .ok row) ↔ ∃ row, castRow types values = .ok row := by
      constructor
      · rintro ⟨others, row, same, cast⟩
        have equal : others = types :=
          List.map_injective_iff.mpr (fun _ _ => ColumnType.typeString_injective) (same.symm.trans typed)
        exact ⟨row, equal ▸ cast⟩
      · rintro ⟨row, cast⟩
        exact ⟨types, row, typed, cast⟩
    rw [castable, ← Chunk.fresh_append_iff]
    cases run : (Chunk.fresh types).append values with
    | returned left => exact iff_of_true (Outcome.atomic_returned _ _) ⟨left, rfl⟩
    | stopped fault left =>
      refine iff_of_false (fun atomic => ?_) (by simp)
      exact longer left (Outcome.atomic_stopped_iff.mp atomic (Chunk.catchable_of_append run))
  · rw [if_neg full, if_neg full, Outcome.returned_andThen, onBack_atomic_iff]
    simp only [Chunk.append_atomic_iff]

/-- An append to a table with supported types can only throw. -/
theorem catchable_of_append (resolve : t.TypesResolve) (nonempty : t.chunks ≠ [])
    {values : List AllTypeVariant} {fault : Fault}
    (run : t.append values = .stopped fault left) : fault.Catchable := by
  have back {t : Table} (nonempty : t.chunks ≠ [])
      (run : t.onBack (fun chunk => chunk.append values) = .stopped fault left) : fault.Catchable := by
    unfold onBack at run
    split at run
    · obtain ⟨chunk, stop, _⟩ := Outcome.within_eq_stopped.mp run
      exact Chunk.catchable_of_append stop
    · rename_i none
      exact absurd (List.getLast?_eq_none_iff.mp none) nonempty
  unfold append at run
  by_cases full : t.isLastChunkFull = true
  · obtain ⟨types, typed⟩ := supported_iff.mp resolve
    rw [if_pos full, createNewChunk_eq typed, Outcome.returned_andThen] at run
    exact back (by simp) run
  · rw [if_neg full, Outcome.returned_andThen] at run
    exact back nonempty run

/-- In every reachable table whose types are all supported, an append is atomic on error if and only if
it takes the row as a whole: the first column to refuse its value must be the very first one, and no
new chunk may have been opened for a row that is refused. -/
theorem append_atomic_run_iff {chunkSize : UInt32} {made : Table} {calls : List TableCall}
    (created : Table.new chunkSize = .returned made) (supported : ∀ call ∈ calls, call.NamesSupported)
    (run : Run (Caught Fault.Catchable TableCall.run) made calls t) (values : List AllTypeVariant) :
    (∀ fault left, fault.Catchable → t.append values = .stopped fault left → left = t) ↔
      t.AppendsWhole values := by
  refine append_atomic_iff ?_ values
  refine run.invariant TypesResolve (fun u call v member before step => ?_) ?_
  · refine (typesResolve_step_iff before step).mpr ?_
    have names := supported call member
    cases call with
    | addColumnDefinition name type => exact Or.inr names
    | addColumn name type => exact Or.inr names
    | append values => trivial
    | createNewChunk => trivial
    | compressChunk id => trivial
  · simp [TypesResolve, new_columnTypes created]

omit [Build] in
theorem append_atomic_run_iff_one_column :
    letI := strictBuild
    let t : Table := ⟨[true], ["a"], ["int"], [⟨[.value .int ⟨[]⟩]⟩], 2⟩
    (∀ fault left, fault.Catchable → t.append [⟨.string, "one"⟩] = .stopped fault left → left = t) ↔
      t.AppendsWhole [⟨.string, "one"⟩] := by
  let _ := strictBuild
  have created : Table.new 2 = .returned ⟨[], [], [], [⟨[]⟩], 2⟩ := rfl
  have supported : Supported "int" := ⟨.int, rfl⟩
  have run : Run (Caught Fault.Catchable TableCall.run) ⟨[], [], [], [⟨[]⟩], 2⟩ [.addColumn "a" "int"]
      ⟨[true], ["a"], ["int"], [⟨[.value .int ⟨[]⟩]⟩], 2⟩ := .single (Or.inl rfl)
  exact append_atomic_run_iff created (by simp [TableCall.NamesSupported, supported]) run _

omit [Build] in
/-- The first column has got its value when the second one cannot cast its own. -/
theorem append_keeps_half_row :
    ¬∀ [Build] (chunkSize : UInt32) (made t : Table) (calls : List TableCall) (values : List AllTypeVariant),
      Table.new chunkSize = .returned made → (∀ call ∈ calls, call.NamesSupported) →
        Run (Caught Fault.Catchable TableCall.run) made calls t →
          ∀ fault left, fault.Catchable → t.append values = .stopped fault left → left = t := by
  intro all
  let _ := strictBuild
  have supported : Supported "int" := ⟨.int, rfl⟩
  have run : Run (Caught Fault.Catchable TableCall.run) ⟨[], [], [], [⟨[]⟩], 0⟩
      [.addColumn "a" "int", .addColumn "b" "int"]
      ⟨[true, true], ["a", "b"], ["int", "int"], [⟨[.value .int ⟨[]⟩, .value .int ⟨[]⟩]⟩], 0⟩ :=
    .call (Or.inl rfl) (.single (Or.inl rfl))
  have same := all 0 _ _ _ [⟨.int, (1 : Int32)⟩, ⟨.string, "one"⟩] rfl
    (by simp [TableCall.NamesSupported, supported]) run .badLexicalCast _ (by decide) rfl
  have sizes := congrArg (fun u => u.chunks.map fun chunk => chunk.columns.map BaseColumn.size) same
  revert sizes
  decide

/-- A chunk is not changed when it does not get its column; an unsupported type is an error that can be
caught only in a debug build. -/
theorem instantiate_eq_stopped {chunk left : Chunk} {fault : Fault}
    (run : instantiate type chunk = .stopped fault left) :
    left = chunk ∧ ¬(Supported type ∧ chunk.TakesColumn) ∧
      (fault.Catchable ↔ Supported type ∨ Build.isDebug = true) := by
  by_cases supported : Supported type
  · obtain ⟨T, rfl⟩ := supported
    unfold instantiate at run
    rw [makeSharedByColumnType_typeString] at run
    obtain ⟨rfl, rfl, different, nonempty⟩ := Chunk.addColumn_eq_stopped run
    refine ⟨rfl, ?_, iff_of_true (by simp [Fault.Catchable]) (Or.inl ⟨T, rfl⟩)⟩
    rintro ⟨_, noRows | noColumns⟩
    · exact different noRows.symm
    · exact nonempty noColumns
  · unfold instantiate at run
    rw [makeSharedByColumnType_unsupported _ supported] at run
    cases debug : (Build.isDebug : Bool) with
    | false =>
      rw [debug] at run
      cases run
      exact ⟨rfl, fun both => supported both.1, by simp [Fault.Catchable, supported]⟩
    | true =>
      rw [debug] at run
      cases run
      exact ⟨rfl, fun both => supported both.1, by simp [Fault.Catchable]⟩

/-- The loop over the chunks leaves them as they were only when it stops at the first one. -/
theorem instantiateAll_eq_stopped {chunks rest : List Chunk} {fault : Fault}
    (run : Outcome.forEach (instantiate type) chunks = .stopped fault rest) :
    (rest = chunks ↔ ∃ first, chunks[0]? = some first ∧ ¬(Supported type ∧ first.TakesColumn)) ∧
      (∃ chunk ∈ chunks, ¬(Supported type ∧ chunk.TakesColumn)) ∧
      (fault.Catchable ↔ Supported type ∨ Build.isDebug = true) := by
  obtain ⟨k, _, chunk, left, _, atChunk, stop, atLeft, after, before⟩ := Outcome.each_eq_stopped run
  obtain ⟨rfl, refuses, catchable⟩ := instantiate_eq_stopped stop
  refine ⟨?_, ⟨left, List.mem_of_getElem? atChunk, refuses⟩, catchable⟩
  obtain _ | k := k
  · refine iff_of_true (List.ext_getElem? fun n => ?_) ⟨left, atChunk, refuses⟩
    obtain _ | n := n
    · rw [atLeft, atChunk]
    · exact after (n + 1) (Nat.succ_pos n)
  · obtain ⟨inside, _⟩ := List.getElem?_eq_some_iff.mp atChunk
    have atFirst := List.getElem?_eq_getElem (l := chunks) (i := 0) (by omega)
    obtain ⟨grown, taken, atGrown⟩ := before 0 _ _ (Nat.succ_pos k) atFirst atFirst
    obtain ⟨T, same, takes, rfl⟩ := instantiate_eq_returned.mp taken
    refine iff_of_false ?_ ?_
    · rintro rfl
      have lengths := congrArg (fun c => c.columns.length) (Option.some.inj (atFirst.symm.trans atGrown))
      simp at lengths
    · rintro ⟨first, found, refusesFirst⟩
      cases atFirst.symm.trans found
      exact refusesFirst ⟨⟨T, same⟩, takes⟩

omit [Build] in
/-- With distinct names, the lookup finds a name unless its place is beyond the counted columns. -/
theorem WellDefined.exists_columnIdByName_iff (defined : t.WellDefined) (member : name ∈ t.columnNames) :
    (∃ id, t.columnIdByName name = .ok id) ↔ t.columnNames.idxOf name < t.colCount.toNat := by
  constructor
  · rintro ⟨id, found⟩
    obtain ⟨counted, here, first⟩ := columnIdByName_eq_ok.mp found
    rwa [idxOf_eq_of_first here first]
  · intro counted
    have inside := List.idxOf_lt_length_of_mem member
    have here := List.getElem?_eq_getElem inside
    rw [List.getElem_idxOf inside] at here
    refine ⟨_, columnIdByName_eq_ok.mpr ⟨counted, here, fun j before again => ?_⟩⟩
    obtain ⟨inside', same⟩ := List.getElem?_eq_some_iff.mp again
    have equal : j = t.columnNames.idxOf name :=
      defined.distinct.getElem_inj_iff.mp (same.trans (List.getElem_idxOf inside).symm)
    omega

omit [Build] in
/-- The flag is set if the name is found; else the chunks keep the column without it. -/
theorem WellDefined.markInstantiated_atomic_iff (defined : t.WellDefined) (member : name ∈ t.columnNames)
    {s : Table} (changed : t ≠ s) :
    (t.markInstantiated name).Atomic Fault.Catchable s ↔ t.columnNames.idxOf name < t.colCount.toNat := by
  rw [← defined.exists_columnIdByName_iff member]
  cases run : t.markInstantiated name with
  | returned left =>
    obtain ⟨id, found, _⟩ := markInstantiated_eq_returned.mp run
    exact iff_of_true (Outcome.atomic_returned _ _) ⟨id, found⟩
  | stopped fault left =>
    obtain ⟨rfl, catchable⟩ := catchable_of_markInstantiated run
    refine iff_of_false (fun atomic => changed (Outcome.atomic_stopped_iff.mp atomic catchable)) ?_
    rintro ⟨id, found⟩
    obtain ⟨inside, _⟩ := List.getElem?_eq_some_iff.mp (columnIdByName_eq_ok.mp found).2.1
    rw [← defined.flagsLength] at inside
    rw [markInstantiated_eq_returned.mpr ⟨id, found, inside, rfl⟩] at run
    cases run

/-- A known name: its definition is refused, or no chunk is given a column before an error, or all chunks
take one and the column is found. A new name: the call either returns or does not end at all. -/
def AddsWhole (t : Table) (name type : String) : Prop :=
  if name ∈ t.columnNames then
    t.validateExistingDefinition name type = .ok () →
      ¬Supported type ∨ (∃ first, t.chunks[0]? = some first ∧ ¬first.TakesColumn) ∨
        (∀ chunk ∈ t.chunks, chunk.TakesColumn) ∧ t.columnNames.idxOf name < t.colCount.toNat
  else if Supported type then
    (∀ chunk ∈ t.chunks, chunk.TakesColumn) ∧ t.columnNames.length + 1 < 2 ^ 16
  else
    Build.isDebug = false

/-- The part of `add_column` after the definition, seen from the table before it. -/
theorem addColumn_atomic_of_defines {t' : Table} (defined : t'.WellDefined) (nonempty : t.chunks ≠ [])
    (member : name ∈ t'.columnNames) (defines : t.Defines name type t') :
    (t.addColumn name type).Atomic Fault.Catchable t ↔
      if ∀ chunk ∈ t.chunks, Supported type ∧ chunk.TakesColumn then
        t'.columnNames.idxOf name < t'.colCount.toNat
      else
        Supported type ∨ Build.isDebug = true →
          t' = t ∧ ∃ first, t.chunks[0]? = some first ∧ ¬(Supported type ∧ first.TakesColumn) := by
  rw [addColumn_of_defines defines]
  cases run : Outcome.forEach (instantiate type) t.chunks with
  | returned chunks =>
    have taken := Outcome.forEach_eq_returned.mp run
    have allTake : ∀ chunk ∈ t.chunks, Supported type ∧ chunk.TakesColumn := by
      intro chunk inChunks
      obtain ⟨chunk', _, made⟩ := Pointwise.mem_left taken inChunks
      obtain ⟨T, same, takes, _⟩ := instantiate_eq_returned.mp made
      exact ⟨⟨T, same⟩, takes⟩
    have changed : ({ t' with chunks := chunks } : Table) ≠ t := by
      rintro rfl
      obtain ⟨chunk, inChunks⟩ := List.exists_mem_of_ne_nil _ nonempty
      obtain ⟨k, atK⟩ := List.mem_iff_getElem?.mp inChunks
      obtain ⟨chunk', atK', made⟩ := Pointwise.getElem?_left taken atK
      obtain ⟨T, _, _, rfl⟩ := instantiate_eq_returned.mp made
      have lengths := congrArg (fun c => c.columns.length) (Option.some.inj (atK.symm.trans atK'))
      simp at lengths
    rw [Outcome.within_returned, Outcome.returned_andThen, if_pos allTake]
    have defined' : WellDefined { t' with chunks := chunks } :=
      ⟨defined.typesLength, defined.flagsLength, defined.distinct⟩
    exact defined'.markInstantiated_atomic_iff member changed
  | stopped fault rest =>
    obtain ⟨unchanged, ⟨chunk, inChunks, refuses⟩, catchable⟩ := instantiateAll_eq_stopped run
    rw [Outcome.within_stopped, Outcome.stopped_andThen, Outcome.atomic_stopped_iff, catchable,
      if_neg fun all => refuses (all chunk inChunks), ← unchanged]
    have same : ({ t' with chunks := rest } : Table) = t ↔ t' = t ∧ rest = t.chunks := by
      have sameChunks := defines.sameChunks.1
      constructor
      · rintro rfl
        obtain ⟨_, _, _, chunks, _⟩ := t'
        obtain rfl : chunks = rest := sameChunks
        exact ⟨rfl, rfl⟩
      · rintro ⟨rfl, rfl⟩
        rfl
    rw [same]

theorem addColumn_atomic_iff (defined : t.WellDefined) (nonempty : t.chunks ≠ []) (name type : String) :
    (t.addColumn name type).Atomic Fault.Catchable t ↔ t.AddsWhole name type := by
  obtain ⟨first, atFirst⟩ : ∃ first, t.chunks[0]? = some first :=
    ⟨_, List.getElem?_eq_getElem (List.length_pos_iff.mpr nonempty)⟩
  have inChunks := List.mem_of_getElem? atFirst
  unfold AddsWhole
  by_cases member : name ∈ t.columnNames
  · rw [if_pos member]
    by_cases valid : t.validateExistingDefinition name type = .ok ()
    · obtain ⟨sameType, free⟩ := validateExistingDefinition_eq_ok.mp valid
      rw [addColumn_atomic_of_defines defined nonempty member (.known member sameType free),
        imp_iff_right valid]
      by_cases supported : Supported type
      · simp only [supported, true_and, true_or, true_imp_iff, not_true_eq_false, false_or]
        split
        · rename_i all
          have takes := all first inChunks
          rw [and_iff_right all]
          simp [atFirst, takes]
        · rename_i notAll
          simp [notAll]
      · rw [if_neg fun all => supported (all first inChunks).1]
        exact iff_of_true (fun _ => ⟨rfl, first, atFirst, fun both => supported both.1⟩) (Or.inl supported)
    · have refused : ¬∃ t', t.Defines name type t' := fun accepted =>
        valid (exists_defines_iff.mp accepted member)
      obtain ⟨fault, _, stop⟩ := addColumn_of_refused refused
      rw [stop]
      exact iff_of_true (Outcome.atomic_stopped_iff.mpr fun _ => rfl) fun ok => absurd ok valid
  · rw [if_neg member]
    rw [addColumn_atomic_of_defines (defined.define member) nonempty (by simp) (.new member)]
    have place : (t.columnNames ++ [name]).idxOf name = t.columnNames.length := by
      rw [List.idxOf_append_of_notMem member, List.idxOf_cons_self, Nat.add_zero]
    have longer : ({ t with
        columnNames := t.columnNames ++ [name]
        columnTypes := t.columnTypes ++ [type]
        isInstantiated := t.isInstantiated ++ [false] } : Table) ≠ t := by
      intro same
      have lengths := congrArg (fun u => u.columnNames.length) same
      simp at lengths
    simp only [colCount_toNat, place, List.length_append, List.length_singleton, longer, false_and]
    by_cases supported : Supported type
    · simp only [supported, true_and, true_or, true_imp_iff, if_true]
      split
      · rename_i all
        rw [and_iff_right all]
        omega
      · rename_i notAll
        simp [notAll]
    · rw [if_neg fun all => supported (all first inChunks).1, if_neg supported]
      simp [supported]

/-- `add_column` can only throw, unless it needs a column of an unsupported type in a release build. -/
theorem catchable_of_addColumn {fault : Fault} (run : t.addColumn name type = .stopped fault left)
    (made : Supported type ∨ Build.isDebug = true) : fault.Catchable := by
  by_cases defined : ∃ t', t.Defines name type t'
  · obtain ⟨t', defines⟩ := defined
    rw [addColumn_of_defines defines] at run
    cases taken : Outcome.forEach (instantiate type) t.chunks with
    | returned chunks =>
      rw [taken] at run
      exact (catchable_of_markInstantiated run).2
    | stopped fault' rest =>
      rw [taken] at run
      cases run
      exact (instantiateAll_eq_stopped taken).2.2.mpr made
  · obtain ⟨fault', catchable, stop⟩ := addColumn_of_refused defined
    rw [stop] at run
    cases run
    exact catchable

theorem addColumn_undefined {t' : Table} (defines : t.Defines name type t') (nonempty : t.chunks ≠ [])
    (unsupported : ¬Supported type) (release : Build.isDebug = false) :
    ∃ left, t.addColumn name type = .stopped .undefined left := by
  rw [addColumn_of_defines defines]
  cases taken : Outcome.forEach (instantiate type) t.chunks with
  | returned chunks =>
    obtain ⟨chunk, inChunks⟩ := List.exists_mem_of_ne_nil _ nonempty
    obtain ⟨_, _, made⟩ := Pointwise.mem_left (Outcome.forEach_eq_returned.mp taken) inChunks
    obtain ⟨T, same, _⟩ := instantiate_eq_returned.mp made
    exact absurd ⟨T, same⟩ unsupported
  | stopped fault rest =>
    have catchable := (instantiateAll_eq_stopped taken).2.2
    have undefined : fault = .undefined := by
      by_contra other
      rcases catchable.mp other with supported | debug
      · exact unsupported supported
      · rw [release] at debug
        cases debug
    exact ⟨_, by rw [undefined]; rfl⟩

/-- No call takes the last chunk away. -/
theorem chunks_ne_nil_step (call : TableCall) (nonempty : t.chunks ≠ []) :
    (call.run t).left.chunks ≠ [] := by
  have positive := List.length_pos_iff.mpr nonempty
  have unchanged (rowCall : ∀ name type, call ≠ .addColumnDefinition name type ∧
      call ≠ .addColumn name type) : (call.run t).left.chunks ≠ [] := by
    obtain ⟨chunks, longer, same⟩ := left_rowCall (t := t) rowCall
    rw [same]
    exact List.length_pos_iff.mp (positive.trans_le longer)
  cases call with
  | addColumnDefinition name type =>
    rw [TableCall.run, addColumnDefinition]
    split
    · exact nonempty
    · exact nonempty
  | addColumn name type =>
    refine addColumn_left (fun u => u.chunks ≠ []) (fun _ => nonempty) (fun _ => nonempty) ?_
      fun u id some => some
    intro u chunks sameLength some
    exact List.length_pos_iff.mp (sameLength ▸ List.length_pos_iff.mpr some)
  | append values => exact unchanged (by simp)
  | createNewChunk => exact unchanged (by simp)
  | compressChunk id => exact unchanged (by simp)

/-- In every reachable table, `add_column` is atomic on error if and only if it throws before it has
written a definition or a chunk, or does not throw. -/
theorem addColumn_atomic_run_iff {chunkSize : UInt32} {made : Table} {calls : List TableCall}
    (created : Table.new chunkSize = .returned made)
    (run : Run (Caught Fault.Catchable TableCall.run) made calls t) (name type : String) :
    (∀ fault left, fault.Catchable → t.addColumn name type = .stopped fault left → left = t) ↔
      t.AddsWhole name type := by
  have nonempty : t.chunks ≠ [] := by
    refine run.invariant (fun u => u.chunks ≠ []) (fun u call v _ before step => ?_) ?_
    · rw [← step.left_eq]
      exact chunks_ne_nil_step call before
    · obtain ⟨_, _, rfl⟩ := createNewChunk_eq_returned.mp created
      simp
  exact addColumn_atomic_iff (wellDefined_run (new_wellDefined created) run).1 nonempty name type

omit [Build] in
theorem addColumn_atomic_run_iff_unsupported_type :
    letI := strictBuild
    let t : Table := ⟨[true], ["a"], ["int"], [⟨[.value .int ⟨[]⟩]⟩], 2⟩
    (∀ fault left, fault.Catchable → t.addColumn "b" "weird" = .stopped fault left → left = t) ↔
      t.AddsWhole "b" "weird" := by
  let _ := strictBuild
  have created : Table.new 2 = .returned ⟨[], [], [], [⟨[]⟩], 2⟩ := rfl
  have run : Run (Caught Fault.Catchable TableCall.run) ⟨[], [], [], [⟨[]⟩], 2⟩ [.addColumn "a" "int"]
      ⟨[true], ["a"], ["int"], [⟨[.value .int ⟨[]⟩]⟩], 2⟩ := .single (Or.inl rfl)
  exact addColumn_atomic_run_iff created run "b" "weird"

omit [Build] in
/-- A debug build throws for the unsupported type, but keeps the definition. -/
theorem addColumn_keeps_definition :
    ¬∀ [Build] (chunkSize : UInt32) (made t : Table) (calls : List TableCall) (name type : String),
      Table.new chunkSize = .returned made → Run (Caught Fault.Catchable TableCall.run) made calls t →
        ∀ fault left, fault.Catchable → t.addColumn name type = .stopped fault left → left = t := by
  intro all
  let _ := strictBuild
  have same := all 0 _ _ [] "a" "weird" rfl .start _ _ (by decide) rfl
  have names := congrArg Table.columnNames same
  revert names
  decide

end Table
end Opossum
