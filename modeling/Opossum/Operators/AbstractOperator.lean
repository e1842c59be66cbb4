import Opossum.Operators.PrintRuns
import Opossum.Storage.SharedTables

/-!
# Operators in a program

A program makes operators, in between its calls on tables, and executes them. The output of an operator is
the table that its pipeline starts from, and an operator that reads its input can only be executed after it.
-/

namespace Opossum

open Decimal OStream

/-- What the class of an operator adds to it. Only these two have a body. -/
inductive OperatorClass
  | tableWrapper (table : TablePtr)
  | print (out : Nat)
  deriving DecidableEq

/-- An `AbstractOperator`. Its input and the stream that it writes to are given by their numbers. -/
structure AbstractOperator where
  inputLeft : Option Nat
  operatorClass : OperatorClass
  output : TablePtr
  deriving DecidableEq

structure Program where
  shared : SharedTables
  operators : List AbstractOperator
  outs : List OStream

inductive ProgramCall
  | shared (call : SharedCall)
  | openStream
  | makeTableWrapper (table : TablePtr)
  | makePrint (input : Option Nat) (out : Nat)
  | execute (op : Nat)

variable [Build]

namespace Program

def start : Program := ⟨SharedTables.start, [], []⟩

/-- `get_output()` of the input. -/
def inputTableLeft (p : Program) (operator : AbstractOperator) : Except Fault TablePtr :=
  match operator.inputLeft.bind fun input => p.operators[input]? with
  | none => .error .undefined
  | some input => .ok input.output

/-- The assignment to `_output`. -/
def setOutput (p : Program) (op : Nat) (operator : AbstractOperator) (table : TablePtr) : Program :=
  { p with operators := p.operators.set op { operator with output := table } }

/-- `execute`, with the `_on_execute` of the class -/
def execute (op : Nat) (p : Program) : Outcome Fault Program :=
  match p.operators[op]? with
  | none => .stopped .undefined p
  | some operator =>
    match operator.operatorClass with
    | .tableWrapper table => .returned (p.setOutput op operator table)
    | .print out =>
      match p.inputTableLeft operator with
      | .error fault => .stopped fault p
      | .ok table =>
        match table.bind fun i => p.shared.tables[i]?, p.outs[out]? with
        | some t, some stream =>
          ((Print.onExecute t stream).within fun stream => { p with outs := p.outs.set out stream }).andThen
            fun p => .returned (p.setOutput op operator table)
        | _, _ => .stopped .undefined p

end Program

def ProgramCall.run : ProgramCall → Program → Outcome Fault Program
  | .shared call, p => (call.run p.shared).within fun shared => { p with shared := shared }
  | .openStream, p => .returned { p with outs := p.outs ++ [⟨[], 0⟩] }
  | .makeTableWrapper table, p =>
    .returned { p with operators := p.operators ++ [⟨none, .tableWrapper table, none⟩] }
  | .makePrint input out, p => .returned { p with operators := p.operators ++ [⟨input, .print out, none⟩] }
  | .execute op, p => p.execute op

/-- `Print::print` -/
def Print.print (table : TablePtr) (out : Nat) (p : Program) : Outcome Fault Program :=
  let tableWrapper := p.operators.length
  Outcome.loop ProgramCall.run
    [.makeTableWrapper table, .execute tableWrapper, .makePrint (some tableWrapper) out,
      .execute (tableWrapper + 1)] p

namespace Program

/-- The calls on the tables and on the manager. -/
def sharedCalls (calls : List ProgramCall) : List SharedCall :=
  calls.filterMap fun
    | .shared call => some call
    | _ => none

/-- The table that the pipeline of an operator starts from. -/
inductive Source (operators : List AbstractOperator) : Nat → TablePtr → Prop
  | tableWrapper {op operator table} : operators[op]? = some operator →
      operator.operatorClass = .tableWrapper table →
      Source operators op table
  | print {op operator out input table} : operators[op]? = some operator →
      operator.operatorClass = .print out →
      operator.inputLeft = some input → Source operators input table → Source operators op table

/-- What an execution that returns has done. -/
inductive Executes (p : Program) (op : Nat) : Program → Prop
  | tableWrapper {operator table} : p.operators[op]? = some operator →
      operator.operatorClass = .tableWrapper table → p.Executes op (p.setOutput op operator table)
  | print {operator out q input i t stream stream'} : p.operators[op]? = some operator →
      operator.operatorClass = .print out → operator.inputLeft = some q → p.operators[q]? = some input →
      input.output = some i → p.shared.tables[i]? = some t → p.outs[out]? = some stream →
      Print.onExecute t stream = .returned stream' →
      p.Executes op (setOutput { p with outs := p.outs.set out stream' } op operator (some i))

variable {p left : Program} {op : Nat} {calls : List ProgramCall}

theorem execute_eq_returned : p.execute op = .returned left ↔ p.Executes op left := by
  constructor
  · intro run
    unfold execute at run
    split at run
    · cases run
    rename_i operator found
    split at run
    · rename_i table wraps
      cases run
      exact .tableWrapper found wraps
    · rename_i out prints
      cases atInput : operator.inputLeft.bind fun input => p.operators[input]? with
      | none => simp [inputTableLeft, atInput] at run
      | some input =>
        obtain ⟨q, inputLeft, atQ⟩ := Option.bind_eq_some_iff.mp atInput
        simp only [inputTableLeft, atInput] at run
        split at run
        · rename_i t stream atTable atStream
          obtain ⟨i, output, atI⟩ := Option.bind_eq_some_iff.mp atTable
          cases printed : Print.onExecute t stream with
          | returned stream' =>
            rw [printed, Outcome.within_returned, Outcome.returned_andThen, output] at run
            cases run
            exact .print found prints inputLeft atQ output atI atStream printed
          | stopped fault stream' =>
            rw [printed] at run
            cases run
        · cases run
  · intro executes
    cases executes with
    | tableWrapper found wraps => simp [execute, found, wraps]
    | print found prints input atInput output atTable atStream run =>
      simp [execute, found, prints, inputTableLeft, input, atInput, output, atTable, atStream, run]

/-- Whether it returns or not, an execution leaves the tables and the manager alone. -/
theorem shared_execute (op : Nat) (p : Program) : (p.execute op).left.shared = p.shared := by
  unfold execute
  split
  · rfl
  split
  · rfl
  split
  · rfl
  split
  · rename_i t stream _ _
    cases Print.onExecute t stream <;> rfl
  · rfl

theorem shared_of_caught {call : ProgramCall} (step : Caught Fault.Catchable ProgramCall.run p call left) :
    Run (Caught Fault.Catchable SharedCall.run) p.shared (sharedCalls [call]) left.shared := by
  have same (other : (call.run p).left.shared = p.shared) : p.shared = left.shared := by
    rw [← other, step.left_eq]
  cases call with
  | shared call =>
    have part : ProgramCall.run (.shared call) p =
        (call.run p.shared).within fun shared => { p with shared := shared } := rfl
    obtain ⟨shared, onShared, rfl⟩ := (caught_within_iff part).mp step
    exact .single onShared
  | openStream => exact Run.nil_iff.mpr (same rfl)
  | makeTableWrapper table => exact Run.nil_iff.mpr (same rfl)
  | makePrint input out => exact Run.nil_iff.mpr (same rfl)
  | execute op => exact Run.nil_iff.mpr (same (shared_execute op p))

/-- The tables and the manager of a program see the calls on them only. -/
theorem shared_of_run (run : Run (Caught Fault.Catchable ProgramCall.run) p calls left) :
    Run (Caught Fault.Catchable SharedCall.run) p.shared (sharedCalls calls) left.shared := by
  induction run with
  | start => exact .start
  | @call p t u call calls step _ ih =>
    rw [show sharedCalls (call :: calls) = sharedCalls [call] ++ sharedCalls calls from
      List.filterMap_append (l := [call])]
    exact Run.append_iff.mpr ⟨_, shared_of_caught step, ih⟩

/-- The operators are still there, with the same inputs, and more may have been made. -/
def Extends (before after : List AbstractOperator) : Prop :=
  ∀ (op : Nat) (operator : AbstractOperator), before[op]? = some operator →
    ∃ table, after[op]? = some { operator with output := table }

omit [Build] in
theorem Extends.refl (operators : List AbstractOperator) : Extends operators operators :=
  fun _ operator found => ⟨operator.output, found⟩

omit [Build] in
theorem Extends.trans {before between after : List AbstractOperator} (first : Extends before between)
    (second : Extends between after) : Extends before after := by
  intro op operator found
  obtain ⟨_, found⟩ := first op operator found
  obtain ⟨table, found⟩ := second op _ found
  exact ⟨table, found⟩

omit [Build] in
theorem Source.mono {before after : List AbstractOperator} (ext : Extends before after) {table : TablePtr}
    (source : Source before op table) : Source after op table := by
  induction source with
  | tableWrapper found wraps =>
    obtain ⟨_, found⟩ := ext _ _ found
    exact .tableWrapper found wraps
  | print found prints input _ ih =>
    obtain ⟨_, found⟩ := ext _ _ found
    exact .print found prints input ih

omit [Build] in
theorem extends_append (operators : List AbstractOperator) (new : AbstractOperator) :
    Extends operators (operators ++ [new]) := by
  intro op operator found
  exact ⟨operator.output, List.getElem?_append_left (List.getElem?_eq_some_iff.mp found).1 ▸ found⟩

omit [Build] in
theorem extends_set {operators : List AbstractOperator} {operator : AbstractOperator} (table : TablePtr)
    (found : operators[op]? = some operator) :
    Extends operators (operators.set op { operator with output := table }) := by
  intro other operator' found'
  by_cases same : op = other
  · subst same
    cases found.symm.trans found'
    exact ⟨table, List.getElem?_set_self (List.getElem?_eq_some_iff.mp found).1⟩
  · exact ⟨operator'.output, by rw [List.getElem?_set_ne same, found']⟩

/-- An executed operator has the table that its pipeline starts from, and no other operator has a table. -/
structure Lifecycle (calls : List ProgramCall) (p : Program) : Prop where
  made : ∀ op, .execute op ∈ calls → op < p.operators.length
  executed : ∀ op operator, p.operators[op]? = some operator → .execute op ∈ calls →
    Source p.operators op operator.output
  waiting : ∀ op operator, p.operators[op]? = some operator → .execute op ∉ calls → operator.output = none

omit [Build] in
theorem Lifecycle.of_operators_eq {call : ProgramCall} (cycle : Lifecycle calls p)
    (same : left.operators = p.operators) (other : ∀ op, call ≠ .execute op) :
    Lifecycle (calls ++ [call]) left := by
  have member (op : Nat) : .execute op ∈ calls ++ [call] ↔ .execute op ∈ calls := by
    simp [(other op).symm]
  refine ⟨?_, ?_, ?_⟩ <;> simp only [member, same]
  · exact cycle.made
  · exact cycle.executed
  · exact cycle.waiting

omit [Build] in
theorem Lifecycle.make {call : ProgramCall} {new : AbstractOperator} (cycle : Lifecycle calls p)
    (operators : left.operators = p.operators ++ [new]) (unused : new.output = none)
    (other : ∀ op, call ≠ .execute op) : Lifecycle (calls ++ [call]) left := by
  have member (op : Nat) : .execute op ∈ calls ++ [call] ↔ .execute op ∈ calls := by
    simp [(other op).symm]
  have old {op : Nat} {operator : AbstractOperator} (found : (p.operators ++ [new])[op]? = some operator)
      (inside : op < p.operators.length) : p.operators[op]? = some operator :=
    List.getElem?_append_left inside ▸ found
  refine ⟨?_, ?_, ?_⟩ <;> simp only [member, operators]
  · intro op executed
    have inside := cycle.made op executed
    rw [List.length_append]
    omega
  · intro op operator found executed
    exact (cycle.executed op operator (old found (cycle.made op executed)) executed).mono (extends_append _ _)
  · intro op operator found waits
    by_cases inside : op < p.operators.length
    · exact cycle.waiting op operator (old found inside) waits
    · have last := (List.getElem?_eq_some_iff.mp found).1
      rw [List.length_append, List.length_singleton] at last
      obtain rfl : op = p.operators.length := by omega
      rw [List.getElem?_concat_length] at found
      exact Option.some.inj found ▸ unused

/-- An execution that returns gives the operator a table that its pipeline starts from. -/
theorem Lifecycle.execute {e : Nat} (cycle : Lifecycle calls p) (executes : p.Executes e left) :
    Lifecycle (calls ++ [.execute e]) left := by
  obtain ⟨operator, table, found, operators, source⟩ : ∃ operator table, p.operators[e]? = some operator ∧
      left.operators = p.operators.set e { operator with output := table } ∧ Source p.operators e table := by
    cases executes with
    | tableWrapper found wraps => exact ⟨_, _, found, rfl, .tableWrapper found wraps⟩
    | @print operator out q input i t stream stream' found prints inputLeft atQ output =>
      refine ⟨operator, some i, found, rfl, .print found prints inputLeft ?_⟩
      rw [← output]
      refine cycle.executed q input atQ ?_
      by_contra waits
      rw [cycle.waiting q input atQ waits] at output
      cases output
  have ext := extends_set table found
  have inside := (List.getElem?_eq_some_iff.mp found).1
  refine ⟨?_, ?_, ?_⟩ <;> simp only [operators, List.mem_append, List.mem_singleton,
    ProgramCall.execute.injEq]
  · rintro op (before | rfl)
    · rw [List.length_set]
      exact cycle.made op before
    · rwa [List.length_set]
  · intro op other found' executed
    by_cases same : e = op
    · subst same
      rw [List.getElem?_set_self inside] at found'
      cases found'
      exact source.mono ext
    · rw [List.getElem?_set_ne same] at found'
      exact (cycle.executed op other found' (executed.resolve_right (Ne.symm same))).mono ext
  · intro op other found' waits
    rw [not_or] at waits
    rw [List.getElem?_set_ne (Ne.symm waits.2)] at found'
    exact cycle.waiting op other found' waits.1

theorem Lifecycle.step {call : ProgramCall} (cycle : Lifecycle calls p)
    (returned : Returning ProgramCall.run p call left) : Lifecycle (calls ++ [call]) left := by
  cases call with
  | shared call =>
    obtain ⟨shared, _, rfl⟩ := Outcome.within_eq_returned.mp returned
    exact cycle.of_operators_eq rfl nofun
  | openStream =>
    cases returned
    exact cycle.of_operators_eq rfl nofun
  | makeTableWrapper table =>
    cases returned
    exact cycle.make rfl rfl nofun
  | makePrint input out =>
    cases returned
    exact cycle.make rfl rfl nofun
  | execute e => exact cycle.execute (execute_eq_returned.mp returned)

theorem lifecycle_of_run (run : Run (Returning ProgramCall.run) start calls left) : Lifecycle calls left := by
  induction calls using List.reverseRecOn generalizing left with
  | nil =>
    obtain rfl := Run.nil_iff.mp run
    exact ⟨by simp, by simp [start], by simp [start]⟩
  | append_singleton calls call ih =>
    obtain ⟨p, front, step⟩ := Run.snoc_iff.mp run
    exact (ih front).step step

theorem extends_of_returned {call : ProgramCall} (returned : Returning ProgramCall.run p call left) :
    Extends p.operators left.operators := by
  cases call with
  | shared call =>
    obtain ⟨shared, _, rfl⟩ := Outcome.within_eq_returned.mp returned
    exact .refl _
  | openStream =>
    cases returned
    exact .refl _
  | makeTableWrapper table =>
    cases returned
    exact extends_append _ _
  | makePrint input out =>
    cases returned
    exact extends_append _ _
  | execute e =>
    cases execute_eq_returned.mp returned with
    | tableWrapper found _ => exact extends_set _ found
    | print found => exact extends_set _ found

theorem extends_of_run (run : Run (Returning ProgramCall.run) p calls left) :
    Extends p.operators left.operators := by
  induction run with
  | start => exact .refl _
  | call step _ ih => exact (extends_of_returned step).trans ih

/-- Operators go through their life cycle: in every run without faults, exactly the executed operators have
an output, which is the table that the pipeline starts from, and a `Print` is only ever executed after its
input. -/
theorem lifecycle_run (run : Run (Returning ProgramCall.run) start calls left) {operator : AbstractOperator}
    (found : left.operators[op]? = some operator) :
    (.execute op ∈ calls → Source left.operators op operator.output) ∧
      (.execute op ∉ calls → operator.output = none) ∧
      ∀ pre post out, calls = pre ++ .execute op :: post → operator.operatorClass = .print out →
        ∃ input, operator.inputLeft = some input ∧ .execute input ∈ pre := by
  have cycle := lifecycle_of_run run
  refine ⟨cycle.executed op operator found, cycle.waiting op operator found,
    fun pre post out split prints => ?_⟩
  rw [split] at run
  obtain ⟨p, front, rest⟩ := Run.append_iff.mp run
  obtain ⟨_, step, back⟩ := Run.cons_iff.mp rest
  have ext := (extends_of_returned step).trans (extends_of_run back)
  cases execute_eq_returned.mp step with
  | tableWrapper atOp wraps =>
    obtain ⟨_, atOp⟩ := ext op _ atOp
    cases found.symm.trans atOp
    cases wraps.symm.trans prints
  | @print _ _ q input i _ _ _ atOp _ inputLeft atQ output =>
    obtain ⟨_, atOp⟩ := ext op _ atOp
    cases found.symm.trans atOp
    refine ⟨q, inputLeft, ?_⟩
    by_contra waits
    rw [(lifecycle_of_run front).waiting q input atQ waits] at output
    cases output

omit [Build] in
theorem lifecycle_run_two_operators :
    letI := streamBuild
    let calls : List ProgramCall := [.shared (.makeTable 2), .makeTableWrapper (some 0), .openStream,
      .makePrint (some 0) 0, .execute 0, .execute 1]
    ∃ left operator, Run (Returning ProgramCall.run) start calls left ∧ left.operators[1]? = some operator ∧
      Source left.operators 1 operator.output ∧ ∃ input, operator.inputLeft = some input ∧
        .execute input ∈ calls.take 5 := by
  let _ := streamBuild
  intro calls
  have run : ∃ left, Run (Returning ProgramCall.run) start calls left ∧
      left.operators[1]? = some ⟨some 0, .print 0, some 0⟩ :=
    ⟨_, .call rfl <| .call rfl <| .call rfl <| .call rfl <| .call rfl <| .call rfl .start, rfl⟩
  obtain ⟨left, run, found⟩ := run
  obtain ⟨executed, _, inputs⟩ := lifecycle_run run found
  exact ⟨left, _, run, found, executed (by simp [calls]), inputs (calls.take 5) [] 0 rfl rfl⟩

section
variable {schema : Schema} {rowCalls : List TableCall}
  {onTables : List (ObjectCall UInt32 TableCall)} {i out : Nat}
  {written : List Char}

/-- Where the table of a program holds the log of its row calls, `Print` writes the log. -/
theorem exists_table_printed (casts : Print.TextCasts)
    (run : Run (Caught Fault.Catchable ProgramCall.run) start calls p)
    (resolved : SharedTables.tableCallsOf (sharedCalls calls) = some onTables)
    (fills : SharedTables.Fills schema rowCalls onTables i) :
    ∃ t, p.shared.tables[i]? = some t ∧
      Writes (Print.onExecute t) (IStream.text '\n' (schema.printed rowCalls) true) := by
  obtain ⟨t, atI, holds⟩ := fills.holds resolved (shared_of_run run)
  exact ⟨t, atI, Schema.printed_of_shows casts holds (holds.shows fills.small.1 fills.small.2)⟩

/-- A pipeline hands the table itself over, not a copy of it: a `Print` whose input was executed before writes
the rows that the table has by now, and changes nothing but its output and its stream. -/
theorem execute_print_run (casts : Print.TextCasts)
    (run : Run (Caught Fault.Catchable ProgramCall.run) start calls p)
    (resolved : SharedTables.tableCallsOf (sharedCalls calls) = some onTables)
    (fills : SharedTables.Fills schema rowCalls onTables i) {operator input : AbstractOperator} {q : Nat}
    (found : p.operators[op]? = some operator) (prints : operator.operatorClass = .print out)
    (inputLeft : operator.inputLeft = some q) (atQ : p.operators[q]? = some input)
    (output : input.output = some i) (atOut : p.outs[out]? = some ⟨written, 0⟩) :
    p.execute op = .returned (setOutput { p with
      outs := p.outs.set out ⟨written ++ IStream.text '\n' (schema.printed rowCalls) true, 0⟩ } op operator
        (some i)) := by
  obtain ⟨t, atI, writes⟩ := exists_table_printed casts run resolved fills
  exact execute_eq_returned.mpr (.print found prints inputLeft atQ output atI atOut (writes written))

/-- A schema of one column, for tables of one row. -/
def oneColumn : Schema := ⟨[("a", .int)], 2, by decide, by decide, by decide⟩

omit [Build] in
theorem fills_oneColumn :
    letI := streamBuild
    SharedTables.Fills oneColumn [.append [⟨.int, (3 : Int32)⟩]]
      [.make 2, .on 0 (.addColumn "a" "int"), .on 0 (.append [⟨.int, (3 : Int32)⟩])] 0 := by
  let _ := streamBuild
  refine ⟨rfl, rfl, ?_, ?_, by decide⟩
  · simp [oneColumn, Schema.Ordered, Schema.types, ColumnType.ordered_iff]
  · simp only [List.forall_mem_cons, List.not_mem_nil]
    exact ⟨⟨[⟨.int, (3 : Int32)⟩], rfl⟩, by simp⟩

omit [Build] in
theorem execute_print_run_late_row :
    letI := streamBuild
    let calls : List ProgramCall :=
      [.shared (.makeTable 2), .shared (.onTable (some 0) (.addColumn "a" "int")),
      .makeTableWrapper (some 0), .execute 0, .openStream, .makePrint (some 0) 0,
      .shared (.onTable (some 0) (.append [⟨.int, (3 : Int32)⟩]))]
    ∃ p left, Run (Caught Fault.Catchable ProgramCall.run) start calls p ∧ p.execute 1 = .returned left ∧
      left.outs = [⟨"=== Columns\n|       a|\n|     int|\n=== Chunk 0 === \n|       3|\n".toList, 0⟩] := by
  let _ := streamBuild
  intro calls
  have run : ∃ p, Run (Caught Fault.Catchable ProgramCall.run) start calls p ∧
      p.operators = [⟨none, .tableWrapper (some 0), some 0⟩, ⟨some 0, .print 0, none⟩] ∧ p.outs = [⟨[], 0⟩] :=
    ⟨_, .call (Or.inl rfl) <| .call (Or.inl rfl) <| .call (Or.inl rfl) <| .call (Or.inl rfl) <|
      .call (Or.inl rfl) <| .call (Or.inl rfl) <| .call (Or.inl rfl) .start, rfl, rfl⟩
  obtain ⟨p, run, operators, outs⟩ := run
  have atOp (op : Nat) : p.operators[op]? =
      [⟨none, .tableWrapper (some 0), some 0⟩, ⟨some 0, .print 0, none⟩][op]? :=
    operators ▸ rfl
  have atOut : p.outs[0]? = some ⟨[], 0⟩ := outs ▸ rfl
  have printed := execute_print_run textCasts_streamBuild run rfl fills_oneColumn (atOp 1) rfl rfl
    (atOp 0) rfl atOut
  refine ⟨p, _, run, printed, ?_⟩
  show p.outs.set 0 _ = _
  rw [outs]
  decide +kernel

/-- `Print::print` of the table behind a name: if the table got its columns and then only rows that can be
cast, it writes the rows that were appended to the table so far, and the tables and the manager stay as they
are. -/
theorem print_named_run (casts : Print.TextCasts)
    (run : Run (Caught Fault.Catchable ProgramCall.run) start calls p)
    (resolved : SharedTables.tableCallsOf (sharedCalls calls) = some onTables)
    (fills : SharedTables.Fills schema rowCalls onTables i) {name : String}
    (added : Registry.Added (SharedTables.managed (sharedCalls calls)) name (some i))
    (atOut : p.outs[out]? = some ⟨written, 0⟩) :
    ∃ table left, p.shared.manager.getTable name = .ok table ∧ Print.print table out p = .returned left ∧
      left.shared = p.shared ∧ Extends p.operators left.operators ∧
      left.outs = p.outs.set out ⟨written ++ IStream.text '\n' (schema.printed rowCalls) true, 0⟩ := by
  obtain ⟨t, atI, writes⟩ := exists_table_printed casts run resolved fills
  have known :=
    (StorageManager.getTable_of_entries (SharedTables.parts_of_run (shared_of_run run)).1).mpr added
  let n := p.operators.length
  let operators := p.operators ++ [⟨none, .tableWrapper (some i), some i⟩]
  have wraps : execute n { p with operators := p.operators ++ [⟨none, .tableWrapper (some i), none⟩] } =
      .returned { p with operators := operators } := by
    refine (execute_eq_returned.mpr (.tableWrapper List.getElem?_concat_length rfl)).trans ?_
    simp [setOutput, n, operators]
  have length : operators.length = n + 1 := by simp [operators, n]
  have atPrint : (operators ++ [⟨some n, .print out, none⟩])[n + 1]? = some ⟨some n, .print out, none⟩ :=
    length ▸ List.getElem?_concat_length
  have atWrapper : (operators ++ [⟨some n, .print out, none⟩])[n]? =
      some ⟨none, .tableWrapper (some i), some i⟩ := by
    rw [List.getElem?_append_left (by omega)]
    exact List.getElem?_concat_length
  let printing : Program := { p with operators := operators ++ [⟨some n, .print out, none⟩] }
  let done := setOutput { printing with
    outs := p.outs.set out ⟨written ++ IStream.text '\n' (schema.printed rowCalls) true, 0⟩ } (n + 1)
    ⟨some n, .print out, none⟩ (some i)
  have prints : execute (n + 1) printing = .returned done :=
    execute_eq_returned.mpr (.print atPrint rfl rfl atWrapper rfl atI atOut (writes written))
  have printed : Print.print (some i) out p = .returned done := by
    simp only [Print.print, Outcome.loop_cons, ProgramCall.run, Outcome.returned_andThen]
    rw [wraps]
    exact congrArg (fun executed => Outcome.andThen executed .returned) prints
  exact ⟨some i, done, known, printed, rfl,
    ((extends_append _ _).trans (extends_append _ _)).trans (extends_set _ atPrint), rfl⟩

omit [Build] in
theorem print_named_run_two_calls :
    letI := streamBuild
    let calls : List ProgramCall := [.openStream, .shared (.makeTable 2),
      .shared (.onTable (some 0) (.addColumn "a" "int")), .shared (.manage (.add "t" (some 0))),
      .shared (.onNamed "t" (.append [⟨.int, (3 : Int32)⟩]))]
    ∃ p left, Run (Caught Fault.Catchable ProgramCall.run) start calls p ∧
      p.shared.manager.getTable "t" = .ok (some 0) ∧ Print.print (some 0) 0 p = .returned left ∧
      left.outs = [⟨"=== Columns\n|       a|\n|     int|\n=== Chunk 0 === \n|       3|\n".toList, 0⟩] := by
  let _ := streamBuild
  intro calls
  have run : ∃ p, Run (Caught Fault.Catchable ProgramCall.run) start calls p ∧ p.outs = [⟨[], 0⟩] :=
    ⟨_, .call (Or.inl rfl) <| .call (Or.inl rfl) <| .call (Or.inl rfl) <| .call (Or.inl rfl) <|
      .call (Or.inl rfl) .start, rfl⟩
  obtain ⟨p, run, outs⟩ := run
  have added : Registry.Added (SharedTables.managed (sharedCalls calls)) "t" (some 0) :=
    Registry.entries_eq_some_iff.mp rfl
  have atOut : p.outs[0]? = some ⟨[], 0⟩ := outs ▸ rfl
  obtain ⟨table, left, known, printed, _, _, text⟩ :=
    print_named_run textCasts_streamBuild run rfl fills_oneColumn added atOut
  have same : p.shared.manager.getTable "t" = .ok (some 0) :=
    (StorageManager.getTable_of_entries (SharedTables.parts_of_run (shared_of_run run)).1).mpr added
  cases known.symm.trans same
  refine ⟨p, left, run, known, printed, ?_⟩
  rw [text, outs]
  decide +kernel

end

end Program

end Opossum
