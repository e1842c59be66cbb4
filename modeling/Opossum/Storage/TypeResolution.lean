import Opossum.Foundation.Run
import Opossum.Storage.TableSteps

namespace Opossum

/-- Every stored type string is the name of a column type. -/
def Table.TypesResolve (t : Table) : Prop := ∀ type ∈ t.columnTypes, Supported type

/-- A call that defines a new column gives it the name of a column type. -/
def TableCall.DefinesSupported (t : Table) : TableCall → Prop
  | addColumnDefinition name type => name ∈ t.columnNames ∨ Supported type
  | addColumn name type => name ∈ t.columnNames ∨ Supported type
  | append _ => True
  | createNewChunk => True
  | compressChunk _ => True

namespace Table
variable [Build] {t left : Table}

/-- It is the same to say that the next chunk can be opened. -/
theorem typesResolve_iff_createNewChunk :
    t.TypesResolve ↔ ∃ left, t.createNewChunk = .returned left := by
  simp only [TypesResolve, supported_iff, createNewChunk_eq_returned]
  constructor
  · rintro ⟨types, typed⟩
    exact ⟨_, types, typed, rfl⟩
  · rintro ⟨left, types, typed, _⟩
    exact ⟨types, typed⟩

theorem addColumn_left_columnTypes (name type : String) : (t.addColumn name type).left.columnTypes =
    if name ∈ t.columnNames then t.columnTypes else t.columnTypes ++ [type] := by
  refine addColumn_left (fun u => u.columnTypes = _) ?_ ?_ (fun u chunks _ same => same) fun u id same => same
  · intro member
    rw [if_pos member]
  · intro absent
    rw [if_neg absent]

omit [Build] in
theorem addColumnDefinition_left_columnTypes (name type : String) :
    (t.addColumnDefinition name type).left.columnTypes =
      if name ∈ t.columnNames then t.columnTypes else t.columnTypes ++ [type] := by
  unfold addColumnDefinition
  by_cases member : name ∈ t.columnNames <;> simp [hasDefinition_iff, member]

omit [Build] in
theorem forall_supported_append {types : List String} {type : String}
    (before : ∀ type ∈ types, Supported type) (known : Prop) [Decidable known] :
    (∀ other ∈ (if known then types else types ++ [type]), Supported other) ↔ known ∨ Supported type := by
  by_cases yes : known
  · simpa [yes] using before
  · simp only [yes, if_false, List.forall_mem_append, List.forall_mem_singleton, false_or]
    exact and_iff_right before

/-- One call, whichever way it ends: it stores an unsupported type string exactly when it defines a
column with one. -/
theorem typesResolve_step_iff {call : TableCall} (before : t.TypesResolve)
    (step : Caught Fault.Catchable TableCall.run t call left) :
    left.TypesResolve ↔ call.DefinesSupported t := by
  rw [← step.left_eq]
  have unchanged (rowCall : ∀ name type, call ≠ .addColumnDefinition name type ∧
      call ≠ .addColumn name type) : (call.run t).left.TypesResolve := by
    obtain ⟨chunks, _, same⟩ := left_rowCall (t := t) rowCall
    rw [same]
    exact before
  cases call with
  | addColumnDefinition name type =>
    rw [TypesResolve, TableCall.run, addColumnDefinition_left_columnTypes]
    exact forall_supported_append before _
  | addColumn name type =>
    rw [TypesResolve, TableCall.run, addColumn_left_columnTypes]
    exact forall_supported_append before _
  | append values => exact iff_of_true (unchanged (by simp)) trivial
  | createNewChunk => exact iff_of_true (unchanged (by simp)) trivial
  | compressChunk id => exact iff_of_true (unchanged (by simp)) trivial

theorem new_columnTypes {chunkSize : UInt32} (created : Table.new chunkSize = .returned t) :
    t.columnTypes = [] := by
  obtain ⟨_, _, rfl⟩ := createNewChunk_eq_returned.mp created
  rfl

/-- Every stored type resolves, and the next chunk can be opened, in all states of a run, throwing
calls included, if and only if every call that defines a new column names a supported type. -/
theorem typesResolve_run_iff {chunkSize : UInt32} {made : Table} {calls : List TableCall}
    (created : Table.new chunkSize = .returned made)
    (run : Run (Caught Fault.Catchable TableCall.run) made calls t) :
    (∀ pre u, pre <+: calls → Run (Caught Fault.Catchable TableCall.run) made pre u →
      u.TypesResolve ∧
      (∀ type ∈ u.columnTypes, ∃ column,
        makeSharedByColumnType BaseColumn.newValueColumn type = .ok (some column)) ∧
      ∃ left, u.createNewChunk = .returned left) ↔
      Run (fun t call left => call.DefinesSupported t ∧ Caught Fault.Catchable TableCall.run t call left)
        made calls t := by
  have initial : made.TypesResolve := by
    simp [TypesResolve, new_columnTypes created]
  rw [← Run.all_good_iff Caught.functional (fun _ => True) TypesResolve
    (fun t call => call.DefinesSupported t) (fun _ _ _ _ _ => trivial)
    (fun _ _ _ _ before step => typesResolve_step_iff before step) run trivial
    initial]
  constructor
  · intro all pre u isPrefix before
    exact (all pre u isPrefix before).1
  · intro all pre u isPrefix before
    have resolve := all pre u isPrefix before
    refine ⟨resolve, fun type member => ?_, typesResolve_iff_createNewChunk.mp resolve⟩
    obtain ⟨T, same⟩ := resolve type member
    exact ⟨.value T ⟨[]⟩, makeSharedByColumnType_eq_ok.mpr ⟨T, same, rfl⟩⟩

omit [Build] in
theorem typesResolve_run_iff_new_chunk :
    letI := strictBuild
    let made : Table := ⟨[], [], [], [⟨[]⟩], 2⟩
    let calls := [.addColumn "a" "int", .append [⟨.int, (1 : Int32)⟩], .addColumnDefinition "b" "int",
      .addColumnDefinition "a" "weird", .createNewChunk, .append [],
      .append [⟨.int, (2 : Int32)⟩, ⟨.int, (3 : Int32)⟩]]
    (∀ pre u, pre <+: calls → Run (Caught Fault.Catchable TableCall.run) made pre u →
      u.TypesResolve ∧
      (∀ type ∈ u.columnTypes, ∃ column,
        makeSharedByColumnType BaseColumn.newValueColumn type = .ok (some column)) ∧
      ∃ left, u.createNewChunk = .returned left) ↔
      Run (fun t call left => call.DefinesSupported t ∧ Caught Fault.Catchable TableCall.run t call left)
        made calls ⟨[true, false], ["a", "b"], ["int", "int"], [⟨[.value .int ⟨[(1 : Int32)]⟩]⟩,
          ⟨[.value .int ⟨[(2 : Int32)]⟩, .value .int ⟨[(3 : Int32)]⟩]⟩], 2⟩ := by
  let _ := strictBuild
  have created : Table.new 2 = .returned ⟨[], [], [], [⟨[]⟩], 2⟩ := rfl
  exact typesResolve_run_iff created
    (.call (Or.inl rfl) <| .call (Or.inl rfl) <| .call (Or.inl rfl) <|
      .call (Or.inr ⟨_, by simp [Fault.Catchable], rfl⟩) <| .call (Or.inl rfl) <|
      .call (Or.inr ⟨_, by simp [Fault.Catchable], rfl⟩) <| .call (Or.inl rfl) .start)

omit [Build] in
/-- A definition is stored whatever its type; a chunk can then not be opened any more. -/
theorem definition_breaks_resolution :
    ¬∀ [Build] (chunkSize : UInt32) (made t : Table) (calls : List TableCall),
      Table.new chunkSize = .returned made → Run (Caught Fault.Catchable TableCall.run) made calls t →
        t.TypesResolve ∧ ∃ left, t.createNewChunk = .returned left := by
  intro all
  let _ := strictBuild
  have run : Run (Caught Fault.Catchable TableCall.run) ⟨[], [], [], [⟨[]⟩], 0⟩
      [.addColumnDefinition "a" "weird"] ⟨[false], ["a"], ["weird"], [⟨[]⟩], 0⟩ :=
    .single (Or.inl rfl)
  have supported := (all 0 _ _ _ rfl run).1 "weird" (by simp)
  revert supported
  decide

end Table

end Opossum
