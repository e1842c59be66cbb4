import Mathlib.Data.List.Nodup
import Opossum.Foundation.Run
import Opossum.Storage.TableSteps

/-!
# Looking columns up by name

Whichever calls are made, and however they end, new definitions only come behind the old ones, under
names of their own, and a flag that has been set stays set.
-/

namespace Opossum

namespace Table
variable {t left : Table} {name type : String}

/-- Every definition has a type, a flag and a name of its own. -/
structure WellDefined (t : Table) : Prop where
  typesLength : t.columnTypes.length = t.columnNames.length
  flagsLength : t.isInstantiated.length = t.columnNames.length
  distinct : t.columnNames.Nodup

/-- The later table has the definitions of the former one at their places, with all flags that were set. -/
structure KeepsDefinitions (t later : Table) : Prop where
  names : t.columnNames <+: later.columnNames
  types : t.columnTypes <+: later.columnTypes
  flags : ∀ (i : Nat), t.isInstantiated[i]? = some true → later.isInstantiated[i]? = some true

theorem KeepsDefinitions.refl (t : Table) : t.KeepsDefinitions t :=
  ⟨List.prefix_refl _, List.prefix_refl _, fun _ set => set⟩

theorem KeepsDefinitions.trans {a b c : Table} (ab : a.KeepsDefinitions b) (bc : b.KeepsDefinitions c) :
    a.KeepsDefinitions c :=
  ⟨ab.names.trans bc.names, ab.types.trans bc.types, fun i set => bc.flags i (ab.flags i set)⟩

theorem WellDefined.define (defined : t.WellDefined) (absent : name ∉ t.columnNames) :
    WellDefined { t with
      columnNames := t.columnNames ++ [name]
      columnTypes := t.columnTypes ++ [type]
      isInstantiated := t.isInstantiated ++ [false] } := by
  refine ⟨by simp [defined.typesLength], by simp [defined.flagsLength], ?_⟩
  rw [List.nodup_append]
  refine ⟨defined.distinct, List.nodup_singleton name, fun old member other new => ?_⟩
  rw [List.mem_singleton.mp new]
  exact fun same => absent (same ▸ member)

theorem keepsDefinitions_define : t.KeepsDefinitions { t with
    columnNames := t.columnNames ++ [name]
    columnTypes := t.columnTypes ++ [type]
    isInstantiated := t.isInstantiated ++ [false] } := by
  refine ⟨List.prefix_append .., List.prefix_append .., fun i set => ?_⟩
  rw [List.getElem?_append_left (List.getElem?_eq_some_iff.mp set).1]
  exact set

theorem WellDefined.setFlag (defined : t.WellDefined) (id : Nat) :
    WellDefined { t with isInstantiated := t.isInstantiated.set id true } :=
  ⟨defined.typesLength, by simpa using defined.flagsLength, defined.distinct⟩

theorem KeepsDefinitions.setFlag {u : Table} (keeps : t.KeepsDefinitions u) (id : Nat) :
    t.KeepsDefinitions { u with isInstantiated := u.isInstantiated.set id true } := by
  refine ⟨keeps.names, keeps.types, fun i set => ?_⟩
  have before := keeps.flags i set
  by_cases same : id = i
  · subst same
    rw [List.getElem?_set_self (List.getElem?_eq_some_iff.mp before).1]
  · rw [List.getElem?_set_ne same]
    exact before

/-- One call, whichever way it ends. -/
theorem wellDefined_step [Build] (call : TableCall) (defined : t.WellDefined) :
    (call.run t).left.WellDefined ∧ t.KeepsDefinitions (call.run t).left := by
  have unchanged (rowCall : ∀ name type, call ≠ .addColumnDefinition name type ∧
      call ≠ .addColumn name type) :
      (call.run t).left.WellDefined ∧ t.KeepsDefinitions (call.run t).left := by
    obtain ⟨chunks, _, same⟩ := left_rowCall (t := t) rowCall
    rw [same]
    exact ⟨⟨defined.typesLength, defined.flagsLength, defined.distinct⟩,
      List.prefix_refl _, List.prefix_refl _, fun _ set => set⟩
  cases call with
  | addColumnDefinition name type =>
    by_cases member : name ∈ t.columnNames
    · have same : (t.addColumnDefinition name type).left = t := by
        simp [addColumnDefinition, hasDefinition_iff, member]
      rw [TableCall.run, same]
      exact ⟨defined, .refl t⟩
    · have run : t.addColumnDefinition name type = .returned _ :=
        addColumnDefinition_eq_returned.mpr ⟨member, rfl⟩
      rw [TableCall.run, run]
      exact ⟨defined.define member, keepsDefinitions_define⟩
  | addColumn name type =>
    refine addColumn_left (fun u => u.WellDefined ∧ t.KeepsDefinitions u) (fun _ => ⟨defined, .refl t⟩)
      (fun absent => ⟨defined.define absent, keepsDefinitions_define⟩) ?_ ?_
    · intro u chunks _ good
      exact ⟨⟨good.1.typesLength, good.1.flagsLength, good.1.distinct⟩,
        good.2.names, good.2.types, good.2.flags⟩
    · intro u id good
      exact ⟨good.1.setFlag id, good.2.setFlag id⟩
  | append values => exact unchanged (by simp)
  | createNewChunk => exact unchanged (by simp)
  | compressChunk id => exact unchanged (by simp)

/-- A call that adds a column returns only where the column can be looked up, its flag set. -/
theorem addColumn_marks [Build] (run : t.addColumn name type = .returned left) :
    ∃ id : Nat, left.columnNames[id]? = some name ∧ left.isInstantiated[id]? = some true := by
  obtain ⟨t', chunks, id, _, _, found, inside, rfl⟩ := addColumn_eq_returned.mp run
  exact ⟨id, (columnIdByName_eq_ok.mp found).2.1, List.getElem?_set_self inside⟩

/-- A column whose flag is set is not added again. -/
theorem WellDefined.addColumn_refused [Build] (defined : t.WellDefined) {id : Nat}
    (found : t.columnNames[id]? = some name) (set : t.isInstantiated[id]? = some true) :
    t.addColumn name type ≠ .returned left := by
  intro run
  obtain ⟨t', _, _, defines, _⟩ := addColumn_eq_returned.mp run
  obtain ⟨inside, rfl⟩ := List.getElem?_eq_some_iff.mp found
  cases defines with
  | known _ _ free =>
    rw [defined.distinct.idxOf_getElem, set] at free
    cases free
  | new absent => exact absent (List.getElem_mem inside)

/-- With distinct names and fewer of them than column ids, the lookup finds just the place of the name. -/
theorem WellDefined.columnIdByName_iff (defined : t.WellDefined) (few : t.columnNames.length < 2 ^ 16)
    {id : Nat} : t.columnIdByName name = .ok id ↔ t.columnNames[id]? = some name := by
  rw [columnIdByName_eq_ok, colCount_toNat, Nat.mod_eq_of_lt few]
  constructor
  · rintro ⟨_, here, _⟩
    exact here
  · intro here
    obtain ⟨inside, rfl⟩ := List.getElem?_eq_some_iff.mp here
    refine ⟨inside, here, fun j before again => ?_⟩
    obtain ⟨inside', same⟩ := List.getElem?_eq_some_iff.mp again
    have equal : j = id := defined.distinct.getElem_inj_iff.mp same
    omega

/-- Looking up names and looking up ids undo each other, and the names that are not defined are just
those that cannot be looked up. -/
structure LookupConsistent (t : Table) : Prop extends WellDefined t where
  place : ∀ (id : Nat), id < t.colCount.toNat →
    ∃ name, t.columnName id = .ok name ∧ t.columnIdByName name = .ok id
  unknown : ∀ name, (∃ fault, t.columnIdByName name = .error fault) ↔ name ∉ t.columnNames

theorem WellDefined.lookupConsistent (defined : t.WellDefined) (few : t.columnNames.length < 2 ^ 16) :
    t.LookupConsistent := by
  refine ⟨defined, fun id inside => ?_, fun name => ?_⟩
  · rw [colCount_toNat, Nat.mod_eq_of_lt few] at inside
    have here := List.getElem?_eq_getElem inside
    exact ⟨t.columnNames[id], by rw [columnName, here], (defined.columnIdByName_iff few).mpr here⟩
  · constructor
    · rintro ⟨fault, thrown⟩ member
      obtain ⟨id, here⟩ := List.mem_iff_getElem?.mp member
      rw [(defined.columnIdByName_iff few).mpr here] at thrown
      cases thrown
    · intro absent
      cases found : t.columnIdByName name with
      | error fault => exact ⟨fault, rfl⟩
      | ok id =>
        have here := (defined.columnIdByName_iff few).mp found
        exact absurd (List.mem_of_getElem? here) absent

variable [Build]

theorem new_wellDefined {chunkSize : UInt32} (created : Table.new chunkSize = .returned t) :
    t.WellDefined := by
  obtain ⟨_, _, rfl⟩ := createNewChunk_eq_returned.mp created
  exact ⟨rfl, rfl, List.nodup_nil⟩

theorem wellDefined_run {calls : List TableCall} (defined : t.WellDefined)
    (run : Run (Caught Fault.Catchable TableCall.run) t calls left) :
    left.WellDefined ∧ t.KeepsDefinitions left := by
  refine run.invariant (fun u => u.WellDefined ∧ t.KeepsDefinitions u) ?_ ⟨defined, .refl t⟩
  intro u call v _ good step
  rw [← step.left_eq]
  obtain ⟨definedV, keeps⟩ := wellDefined_step call good.1
  exact ⟨definedV, good.2.trans keeps⟩

/-- The schema stays consistent in every run, throwing calls included: names and ids are looked up
consistently, no definition changes its place, and no name is added twice. -/
theorem lookup_run {chunkSize : UInt32} {made : Table} {calls : List TableCall}
    (created : Table.new chunkSize = .returned made)
    (run : Run (Caught Fault.Catchable TableCall.run) made calls t)
    (few : t.columnNames.length < 2 ^ 16) :
    t.LookupConsistent ∧
      (∀ pre u, pre <+: calls → Run (Caught Fault.Catchable TableCall.run) made pre u →
        u.KeepsDefinitions t) ∧
      ∀ pre name type between type' post u v w x,
        calls = pre ++ .addColumn name type :: (between ++ .addColumn name type' :: post) →
        Run (Caught Fault.Catchable TableCall.run) made pre u → u.addColumn name type = .returned v →
        Run (Caught Fault.Catchable TableCall.run) v between w →
          w.addColumn name type' ≠ .returned x := by
  have initial := new_wellDefined created
  refine ⟨(wellDefined_run initial run).1.lookupConsistent few, ?_, ?_⟩
  · rintro pre u ⟨post, rfl⟩ before
    obtain ⟨u', before', after⟩ := Run.append_iff.mp run
    obtain rfl := Run.functional Caught.functional before before'
    exact (wellDefined_run (wellDefined_run initial before).1 after).2
  · intro pre name type between type' post u v w x _ before added later
    have definedU := (wellDefined_run initial before).1
    have step := wellDefined_step (.addColumn name type) definedU
    rw [TableCall.run, added, Outcome.left_returned] at step
    obtain ⟨definedW, keeps⟩ := wellDefined_run step.1 later
    obtain ⟨id, here, set⟩ := addColumn_marks added
    obtain ⟨inside, same⟩ := List.getElem?_eq_some_iff.mp here
    have there : w.columnNames[id]? = some name := by
      rw [List.prefix_iff_getElem?.mp keeps.names id inside, same]
    exact definedW.addColumn_refused there (keeps.flags id set)

omit [Build] in
theorem lookup_run_unsupported_type :
    letI := strictBuild
    let made : Table := ⟨[], [], [], [⟨[]⟩], 2⟩
    let t : Table := ⟨[true, false], ["a", "b"], ["int", "weird"], [⟨[.value .int ⟨[]⟩]⟩], 2⟩
    Run (Caught Fault.Catchable TableCall.run) made [.addColumn "a" "int", .addColumn "b" "weird"] t ∧
      t.LookupConsistent := by
  let _ := strictBuild
  have created : Table.new 2 = .returned ⟨[], [], [], [⟨[]⟩], 2⟩ := rfl
  have run : Run (Caught Fault.Catchable TableCall.run) ⟨[], [], [], [⟨[]⟩], 2⟩
      [.addColumn "a" "int", .addColumn "b" "weird"]
      ⟨[true, false], ["a", "b"], ["int", "weird"], [⟨[.value .int ⟨[]⟩]⟩], 2⟩ :=
    .call (Or.inl rfl) (.single (Or.inr ⟨_, by decide, rfl⟩))
  exact ⟨run, (lookup_run created run (by decide)).1⟩

end Table
end Opossum
