import Opossum.Operators.AbstractOperator
import Opossum.Storage.SchemaLookup

/-!
# Complete tables

`Print` computes its widths before it writes, and comes to every cell for it. So it prints a table
completely or not at all, and a stream holds complete tables.
-/

namespace Opossum

open OStream

variable [Build]

namespace Print
variable {t : Table} {chunk : Chunk} {widths : List UInt16} {columns : Nat}

/-- Every cell that the loops come to has a width and a text. -/
def CanPrint (t : Table) : Prop :=
  ∀ id < t.chunkCount.toNat, ∀ chunk, t.chunks[id]? = some chunk → ∀ col < chunk.colCount.toNat,
    ∀ row < chunk.size.toNat, col < t.colCount.toNat ∧ ∃ text, Prints chunk col row text

theorem widenByCell_okWhen (minWidth maxWidth : UInt16) (chunk : Chunk) (col row : Nat)
    (length : widths.length = columns) :
    Except.OkWhen (col < columns ∧ ∃ text, Prints chunk col row text) (fun widths => widths.length = columns)
      (widenByCell minWidth maxWidth chunk col widths row) := by
  constructor
  · constructor
    · rintro ⟨widths', run⟩
      obtain ⟨column, found, run⟩ := Except.bind_eq_ok.mp run
      obtain ⟨cell, read, run⟩ := Except.bind_eq_ok.mp run
      obtain ⟨text, prints, run⟩ := Except.bind_eq_ok.mp run
      simp only at run
      split at run
      · rename_i width atCol
        exact ⟨length ▸ (List.getElem?_eq_some_iff.mp atCol).1,
          text, column, cell, Chunk.getColumn_eq_ok.mp found, read, prints⟩
      · cases run
    · rintro ⟨inside, text, column, cell, found, read, prints⟩
      have atCol := List.getElem?_eq_getElem (length ▸ inside)
      rw [widenByCell, Chunk.getColumn_eq_ok.mpr found, Except.ok_bind, read, Except.ok_bind, prints,
        Except.ok_bind]
      simp only [atCol]
      exact ⟨_, rfl⟩
  · intro widths' run
    obtain ⟨_, _, run⟩ := Except.bind_eq_ok.mp run
    obtain ⟨_, _, run⟩ := Except.bind_eq_ok.mp run
    obtain ⟨_, _, run⟩ := Except.bind_eq_ok.mp run
    simp only at run
    split at run
    · cases run
      rw [List.length_set, length]
    · cases run

omit [Build] in
theorem nameWidths_okWhen (minWidth : UInt16) (t : Table) :
    Except.OkWhen True (fun widths => widths.length = t.colCount.toNat)
      ((List.range t.colCount.toNat).mapM (nameWidth minWidth t)) := by
  have count := t.colCount_toNat
  have below := Nat.mod_le t.columnNames.length (2 ^ 16)
  have each (col : Nat) (inRange : col ∈ List.range t.colCount.toNat) :
      ∃ w, nameWidth minWidth t col = .ok w := by
    have counted := List.mem_range.mp inRange
    have here : col < t.columnNames.length := by omega
    exact ⟨_, by rw [nameWidth, Table.columnName, List.getElem?_eq_getElem here]; rfl⟩
  obtain ⟨widths, named⟩ := Pointwise.exists_forall₂ each
  refine ⟨iff_of_true ⟨widths, Except.mapM_eq_ok.mpr named⟩ trivial, fun widths' run => ?_⟩
  rw [← (Except.mapM_eq_ok.mp run).length_eq, List.length_range]

omit [Build] in
theorem getChunk_okWhen {id : Nat} (counted : id < t.chunkCount.toNat) :
    Except.OkWhen True (fun chunk => t.chunks[id]? = some chunk) (t.getChunk (UInt32.ofNat id)) := by
  have count := t.chunkCount_toNat
  have below := Nat.mod_le t.chunks.length (2 ^ 32)
  have small : (UInt32.ofNat id).toNat = id := by rw [UInt32.toNat_ofNat', Nat.mod_eq_of_lt (by omega)]
  have here : id < t.chunks.length := by omega
  refine ⟨iff_of_true ⟨t.chunks[id], ?_⟩ trivial, fun chunk get => ?_⟩
  · rw [Table.getChunk_eq_ok, small, List.getElem?_eq_getElem here]
  · rw [← small]
    exact Table.getChunk_eq_ok.mp get

/-- The widths are computed exactly when all cells can be printed. -/
theorem columnStringWidths_okWhen (t : Table) (minWidth maxWidth : UInt16) :
    Except.OkWhen (CanPrint t) (fun widths => widths.length = t.colCount.toNat)
      (columnStringWidths t minWidth maxWidth t) := by
  have cells (chunk : Chunk) (widths : List UInt16) (length : widths.length = t.colCount.toNat) :=
    Except.OkWhen.foldlM (List.range chunk.colCount.toNat) (fun col _ _ length =>
      Except.OkWhen.foldlM (List.range chunk.size.toNat) (fun row _ _ length =>
        widenByCell_okWhen minWidth maxWidth chunk col row length) length) length
  have chunks (id : Nat) (inRange : id ∈ List.range t.chunkCount.toNat) (widths : List UInt16)
      (length : widths.length = t.colCount.toNat) :
      Except.OkWhen (∀ chunk, t.chunks[id]? = some chunk → ∀ col < chunk.colCount.toNat,
        ∀ row < chunk.size.toNat,
          col < t.colCount.toNat ∧ ∃ text, Prints chunk col row text)
        (fun widths => widths.length = t.colCount.toNat) (widenByChunk minWidth maxWidth t widths id) := by
    refine ((getChunk_okWhen (List.mem_range.mp inRange)).bind fun chunk found =>
      (cells chunk widths length).of_iff ?_).of_iff (iff_of_eq (true_and _))
    simp only [List.mem_range, found, Option.some.injEq, forall_eq']
  refine ((nameWidths_okWhen minWidth t).bind fun widths length =>
    Except.OkWhen.foldlM _ chunks length).of_iff ?_
  simp only [true_and, List.mem_range, CanPrint]

theorem exists_writes_printRow {row : Nat}
    (cells : ∀ col < chunk.colCount.toNat, col < widths.length ∧ ∃ text, Prints chunk col row text) :
    ∃ text, Writes (printRow widths chunk row) text := by
  have each (col : Nat) (inColumns : col ∈ List.range chunk.colCount.toNat) :
      ∃ text, Writes (printCell widths chunk row col) text := by
    obtain ⟨inside, _, column, cell, found, read, _⟩ := cells col (List.mem_range.mp inColumns)
    exact ⟨_, printCell_writes (List.getElem?_eq_getElem inside) found read⟩
  obtain ⟨text, fields⟩ := exists_writes_loop each
  exact ⟨_, printRow_writes_of_loop fields⟩

theorem exists_writes_printChunk {id : Nat} (found : t.getChunk (UInt32.ofNat id) = .ok chunk)
    (cells : ∀ col < chunk.colCount.toNat, ∀ row < chunk.size.toNat,
      col < widths.length ∧ ∃ text, Prints chunk col row text) : ∃ text,
        Writes (printChunk widths t id) text := by
  have body : ∃ text, Writes (fun out => if chunk.size = 0 then .returned (out.put "Empty chunk.".toList).endl
      else Outcome.loop (printRow widths chunk) (List.range chunk.size.toNat) out) text := by
    by_cases empty : chunk.size = 0
    · exact ⟨"Empty chunk.".toList ++ ['\n'], fun written => by simp [empty]⟩
    · simp only [if_neg empty]
      refine exists_writes_loop fun row inRows => ?_
      exact exists_writes_printRow fun col inside => cells col inside row (List.mem_range.mp inRows)
  obtain ⟨text, body⟩ := body
  exact ⟨_, printChunk_writes_of_body found body⟩

omit [Build] in
theorem exists_writes_printHeaders {header : Nat → Except Fault String} {texts : List String}
    (enough : widths.length ≤ texts.length)
    (headers : ∀ (col : Nat) text, texts[col]? = some text → header col = .ok text) :
    ∃ text, Writes (fun out => (Outcome.loop (printHeader widths header)
      (List.range widths.length) out).andThen fun out => .returned (out.put ['|']).endl) text := by
  have length : widths.length = (texts.take widths.length).length := by
    rw [List.length_take, Nat.min_eq_left enough]
  have writes := printHeaders_writes length fun col text found => by
    rw [List.getElem?_take, Option.ite_none_right_eq_some] at found
    exact headers col text found.2
  rw [← length] at writes
  exact ⟨_, writes⟩

/-- What `Print` writes if it returns. -/
def text (t : Table) : List Char :=
  match onExecute t ⟨[], 0⟩ with
  | .returned out => out.written
  | .stopped _ _ => []

/-- Once the widths have been computed, nothing can fail any more. -/
theorem CanPrint.writes (can : CanPrint t) (types : t.columnTypes.length = t.columnNames.length) :
    Writes (onExecute t) (text t) := by
  have computed := columnStringWidths_okWhen t 8 20
  obtain ⟨widths, widthsOf⟩ := computed.iff.mpr can
  have length := computed.good widths widthsOf
  have enough : widths.length ≤ t.columnNames.length := by
    rw [length, t.colCount_toNat]
    exact Nat.mod_le _ _
  obtain ⟨_, names⟩ := exists_writes_printHeaders enough fun col text atCol =>
    show t.columnName col = .ok text by rw [Table.columnName, atCol]
  obtain ⟨_, types⟩ := exists_writes_printHeaders (types ▸ enough) fun col text atCol =>
    (Table.columnType_eq_ok (t := t)).mpr atCol
  have each (id : Nat) (inRange : id ∈ List.range t.chunkCount.toNat) :
      ∃ text, Writes (printChunk widths t id) text := by
    have counted := List.mem_range.mp inRange
    have got := getChunk_okWhen counted
    obtain ⟨chunk, get⟩ := got.iff.mpr trivial
    refine exists_writes_printChunk get fun col inside row before => ?_
    rw [length]
    exact can id counted chunk (got.good chunk get) col inside row before
  obtain ⟨_, chunks⟩ := exists_writes_loop each
  rw [length] at names types
  have complete := onExecute_writes_of_parts widthsOf names types chunks
  have same := complete []
  rw [List.nil_append] at same
  simpa only [text, same] using complete

/-- A table is printed completely or not at all. -/
theorem onExecute_cases (t : Table) (types : t.columnTypes.length = t.columnNames.length) :
    CanPrint t ∧ Writes (onExecute t) (text t) ∨
      ¬CanPrint t ∧ ∃ fault, ∀ out, onExecute t out = .stopped fault out := by
  have computed := columnStringWidths_okWhen t 8 20
  cases widthsOf : columnStringWidths t 8 20 t with
  | error fault =>
    refine Or.inr ⟨fun can => ?_, fault, fun out => by rw [onExecute, widthsOf]⟩
    obtain ⟨widths, widthsOf'⟩ := computed.iff.mpr can
    cases widthsOf.symm.trans widthsOf'
  | ok widths =>
    have can := computed.iff.mp ⟨widths, widthsOf⟩
    exact Or.inl ⟨can, can.writes types⟩

end Print

theorem SharedTables.wellDefined_of_run {calls : List SharedCall} {s : SharedTables}
    (run : Run (Caught Fault.Catchable SharedCall.run) start calls s) {t : Table} (member : t ∈ s.tables) :
    t.WellDefined := by
  obtain ⟨_, onTables, _, _, length, each⟩ := parts_of_run run
  obtain ⟨i, atI⟩ := List.mem_iff_getElem?.mp member
  have inside := (List.getElem?_eq_some_iff.mp atI).1
  obtain ⟨made, created, own⟩ := each i _ t (List.getElem?_eq_getElem (length ▸ inside)) atI
  exact (Table.wellDefined_run (Table.new_wellDefined created) own).1

namespace Program
variable {p left : Program} {op k : Nat} {calls : List ProgramCall}

/-- The stream of this number, which is empty as long as it has not been opened. -/
def stream (p : Program) (k : Nat) : OStream := p.outs[k]?.getD ⟨[], 0⟩

/-- The table that a `Print` would print by now, with the number of its stream. -/
def printJob (p : Program) (op : Nat) : Option (Table × Nat) := do
  let operator ← p.operators[op]?
  match operator.operatorClass with
  | .tableWrapper _ => none
  | .print out =>
    let input ← operator.inputLeft
    let source ← p.operators[input]?
    let i ← source.output
    let t ← p.shared.tables[i]?
    return (t, out)

/-- What a call writes to a stream: its table, if it prints there and returns. -/
def textOf (p : Program) (call : ProgramCall) (k : Nat) : List Char :=
  match call with
  | .execute op =>
    match p.printJob op with
    | some (t, out) => if out = k then Print.text t else []
    | none => []
  | _ => []

/-- All tables are well defined, and no stream is left with a field width. -/
structure Tidy (p : Program) : Prop where
  tables : ∀ t ∈ p.shared.tables, t.WellDefined
  outs : ∀ out ∈ p.outs, out.width = 0

theorem execute_of_printJob {t : Table} {out : Nat} {stream : OStream} (job : p.printJob op = some (t, out))
    (atOut : p.outs[out]? = some stream) : t ∈ p.shared.tables ∧ ∃ operator table,
      p.execute op = ((Print.onExecute t stream).within fun stream =>
        { p with outs := p.outs.set out stream }).andThen
        fun p => .returned (p.setOutput op operator table) := by
  obtain ⟨operator, found, job⟩ := Option.bind_eq_some_iff.mp job
  cases ofClass : operator.operatorClass with
  | tableWrapper table => simp [ofClass] at job
  | print out' =>
    simp only [ofClass] at job
    obtain ⟨input, inputLeft, job⟩ := Option.bind_eq_some_iff.mp job
    obtain ⟨source, atInput, job⟩ := Option.bind_eq_some_iff.mp job
    obtain ⟨i, output, job⟩ := Option.bind_eq_some_iff.mp job
    obtain ⟨t', atI, job⟩ := Option.bind_eq_some_iff.mp job
    cases job
    refine ⟨List.mem_of_getElem? atI, operator, some i, ?_⟩
    simp [execute, found, ofClass, inputTableLeft, inputLeft, atInput, output, atI, atOut]

theorem execute_of_tableWrapper {operator : AbstractOperator} {table : TablePtr}
    (found : p.operators[op]? = some operator) (wraps : operator.operatorClass = .tableWrapper table) :
    p.execute op = .returned (p.setOutput op operator table) ∧ p.printJob op = none := by
  constructor
  · simp [execute, found, wraps]
  · simp [printJob, found, wraps]

/-- Where there is nothing to execute, nothing is said of the program. -/
theorem execute_of_none
    (noWrapper : ∀ operator table, p.operators[op]? = some operator →
      operator.operatorClass ≠ .tableWrapper table)
    (noJob : ∀ t out stream, p.printJob op = some (t, out) → p.outs[out]? ≠ some stream) :
    p.execute op = .stopped .undefined p := by
  unfold execute
  split
  · rfl
  rename_i operator found
  split
  · rename_i table wraps
    exact absurd wraps (noWrapper operator table found)
  rename_i out prints
  cases atInput : operator.inputLeft.bind fun input => p.operators[input]? with
  | none => simp only [inputTableLeft, atInput]
  | some input =>
    obtain ⟨q, inputLeft, atQ⟩ := Option.bind_eq_some_iff.mp atInput
    simp only [inputTableLeft, atInput]
    split
    · rename_i t stream atTable atStream
      obtain ⟨i, output, atI⟩ := Option.bind_eq_some_iff.mp atTable
      have job : p.printJob op = some (t, out) := by
        simp [printJob, found, prints, inputLeft, atQ, output, atI]
      exact absurd atStream (noJob t out stream job)
    · rfl

/-- A `TableWrapper` can be executed, and so can a `Print` if its input has a table that can be printed. -/
def CanExecute (p : Program) (op : Nat) : Prop :=
  (∃ operator table, p.operators[op]? = some operator ∧ operator.operatorClass = .tableWrapper table) ∨
    ∃ t out stream, p.printJob op = some (t, out) ∧ p.outs[out]? = some stream ∧ Print.CanPrint t

omit [Build] in
theorem Tidy.stream_eq (tidy : Tidy p) (k : Nat) : p.stream k = ⟨(p.stream k).written, 0⟩ := by
  unfold stream
  cases atK : p.outs[k]? with
  | none => rfl
  | some out =>
    have width := tidy.outs out (List.mem_of_getElem? atK)
    rw [Option.getD_some, ← width]

omit [Build] in
theorem stream_set {out : Nat} {old : OStream} (atOut : p.outs[out]? = some old) (new : OStream) (k : Nat) :
    (p.outs.set out new)[k]?.getD ⟨[], 0⟩ = if out = k then new else p.stream k := by
  by_cases same : out = k
  · subst same
    rw [List.getElem?_set_self (List.getElem?_eq_some_iff.mp atOut).1, if_pos rfl, Option.getD_some]
  · rw [List.getElem?_set_ne same, if_neg same, stream]

/-- An execution writes what there is to write, or it leaves everything as it was. -/
theorem Tidy.execute_cases (tidy : Tidy p) (op : Nat) :
    (p.CanExecute op ∧ ∃ left, p.execute op = .returned left ∧ left.Tidy ∧
        ∀ k, left.stream k = ⟨(p.stream k).written ++ p.textOf (.execute op) k, 0⟩) ∨
      ¬p.CanExecute op ∧ ∃ fault, p.execute op = .stopped fault p ∧
        (fault.Catchable → ∀ k, p.textOf (.execute op) k = []) := by
  by_cases wrapper : ∃ operator table, p.operators[op]? = some operator ∧
    operator.operatorClass = .tableWrapper table
  · have ⟨operator, table, found, wraps⟩ := wrapper
    obtain ⟨run, noJob⟩ := execute_of_tableWrapper found wraps
    refine Or.inl ⟨Or.inl wrapper, _, run, ⟨tidy.tables, tidy.outs⟩, fun k => ?_⟩
    simp only [textOf, noJob, List.append_nil]
    exact tidy.stream_eq k
  have canPrint {t : Table} {out : Nat} (job : p.printJob op = some (t, out)) :
      p.CanExecute op → Print.CanPrint t := by
    rintro (wraps | ⟨t', out', stream, job', _, can⟩)
    · exact absurd wraps wrapper
    · cases job.symm.trans job'
      exact can
  by_cases job : ∃ t out stream, p.printJob op = some (t, out) ∧ p.outs[out]? = some stream
  · obtain ⟨t, out, stream, job, atOut⟩ := job
    obtain ⟨member, operator, table, run⟩ := execute_of_printJob job atOut
    rcases Print.onExecute_cases t (tidy.tables t member).typesLength with
      ⟨can, writes⟩ | ⟨cannot, fault, stops⟩
    · have width := tidy.outs stream (List.mem_of_getElem? atOut)
      have printed : Print.onExecute t stream = .returned ⟨stream.written ++ Print.text t, 0⟩ := by
        rw [← writes stream.written, ← width]
      rw [printed, Outcome.within_returned, Outcome.returned_andThen] at run
      refine Or.inl ⟨Or.inr ⟨t, out, stream, job, atOut, can⟩, _, run,
        ⟨tidy.tables, fun other member => ?_⟩, fun k => ?_⟩
      · rcases List.mem_or_eq_of_mem_set member with old | rfl
        · exact tidy.outs other old
        · rfl
      · have written : stream = p.stream out := by rw [Program.stream, atOut, Option.getD_some]
        refine (stream_set atOut _ k).trans ?_
        simp only [textOf, job]
        split
        · rename_i same
          rw [written, same]
        · rw [List.append_nil]
          exact tidy.stream_eq k
    · refine Or.inr ⟨fun can => cannot (canPrint job can), fault, ?_, fun _ k => ?_⟩
      · rw [run, stops, Outcome.within_stopped, Outcome.stopped_andThen]
        have same : p.outs.set out stream = p.outs := by
          obtain ⟨inside, rfl⟩ := List.getElem?_eq_some_iff.mp atOut
          exact List.set_getElem_self inside
        rw [same]
      · simp only [textOf, job, Print.text, stops, ite_self]
  · have nothing : p.execute op = .stopped .undefined p :=
      execute_of_none (fun operator table found wraps => wrapper ⟨operator, table, found, wraps⟩)
        fun t out stream found atOut => job ⟨t, out, stream, found, atOut⟩
    refine Or.inr ⟨?_, .undefined, nothing, fun caught => absurd rfl caught⟩
    rintro (wraps | ⟨t, out, stream, found, atOut, _⟩)
    · exact wrapper wraps
    · exact job ⟨t, out, stream, found, atOut⟩

omit [Build] in
theorem stream_append (outs : List OStream) (k : Nat) :
    (outs ++ [⟨[], 0⟩])[k]?.getD ⟨[], 0⟩ = outs[k]?.getD ⟨[], 0⟩ := by
  rw [List.getElem?_append]
  split
  · rfl
  · rw [List.getElem?_eq_none (l := outs) (by omega), List.getElem?_singleton]
    split <;> rfl

theorem Tidy.step {call : ProgramCall} (tidy : Tidy p)
    (step : Caught Fault.Catchable ProgramCall.run p call left)
    (tables : ∀ t ∈ left.shared.tables, t.WellDefined) :
    left.Tidy ∧ ∀ k, left.stream k = ⟨(p.stream k).written ++ p.textOf call k, 0⟩ := by
  have silent (outs : ∀ out ∈ left.outs, out.width = 0) (same : ∀ k, left.stream k = p.stream k) :
      left.Tidy ∧ ∀ k, left.stream k = ⟨(p.stream k).written ++ [], 0⟩ := by
    refine ⟨⟨tables, outs⟩, fun k => ?_⟩
    rw [List.append_nil, ← tidy.stream_eq k, same]
  have unchanged (same : left.outs = p.outs) : left.Tidy ∧
      ∀ k, left.stream k = ⟨(p.stream k).written ++ [], 0⟩ :=
    silent (same ▸ tidy.outs) fun k => by rw [Program.stream, same, Program.stream]
  have left_eq := step.left_eq
  cases call with
  | shared call =>
    refine unchanged ?_
    rw [← left_eq, ProgramCall.run, Outcome.left_within]
  | openStream =>
    have outs : left.outs = p.outs ++ [⟨[], 0⟩] := by rw [← left_eq]; rfl
    refine silent (fun out member => ?_) fun k => by rw [Program.stream, outs, stream_append, Program.stream]
    rw [outs] at member
    rcases List.mem_append.mp member with old | new
    · exact tidy.outs out old
    · rw [List.mem_singleton.mp new]
  | makeTableWrapper table => exact unchanged (by rw [← left_eq]; rfl)
  | makePrint input out => exact unchanged (by rw [← left_eq]; rfl)
  | execute op =>
    rcases tidy.execute_cases op with ⟨_, left', run, tidyL, streams⟩ | ⟨_, fault, run, nothing⟩
    · rw [ProgramCall.run, run] at left_eq
      cases left_eq
      exact ⟨tidyL, streams⟩
    · rw [Caught, ProgramCall.run, run] at step
      rcases step with returned | ⟨fault', caught, stopped⟩
      · cases returned
      · cases stopped
        refine ⟨tidy, fun k => ?_⟩
        rw [nothing caught k, List.append_nil]
        exact tidy.stream_eq k

/-- What the calls write to a stream, each in the state to which the calls before it lead. -/
def texts (p : Program) (calls : List ProgramCall) (k : Nat) : List (List Char) :=
  match calls with
  | [] => []
  | call :: calls => p.textOf call k :: texts (call.run p).left calls k

theorem texts_snoc {call : ProgramCall} {q : Program}
    (run : Run (Caught Fault.Catchable ProgramCall.run) p calls q) (k : Nat) :
    texts p (calls ++ [call]) k = texts p calls k ++ [q.textOf call k] := by
  induction run with
  | start => rfl
  | call step _ ih => rw [List.cons_append, texts, texts, step.left_eq, ih, List.cons_append]

theorem streams_of_run (run : Run (Caught Fault.Catchable ProgramCall.run) start calls p) :
    p.Tidy ∧ ∀ k, p.stream k = ⟨(texts start calls k).flatten, 0⟩ := by
  induction calls using List.reverseRecOn generalizing p with
  | nil =>
    obtain rfl := Run.nil_iff.mp run
    exact ⟨⟨nofun, nofun⟩, fun k => rfl⟩
  | append_singleton calls call ih =>
    have tables (t : Table) (member : t ∈ p.shared.tables) :=
      SharedTables.wellDefined_of_run (shared_of_run run) member
    obtain ⟨q, front, step⟩ := Run.snoc_iff.mp run
    obtain ⟨tidy, streams⟩ := ih front
    obtain ⟨tidyP, written⟩ := tidy.step step tables
    refine ⟨tidyP, fun k => ?_⟩
    rw [written, streams, texts_snoc front, List.flatten_append, List.flatten_singleton]

/-- Whatever was called before, an operator can be executed, or executing it throws and changes nothing. -/
theorem execute_run (run : Run (Caught Fault.Catchable ProgramCall.run) start calls p) (op : Nat) :
    ((∃ left, p.execute op = .returned left) ↔ p.CanExecute op) ∧
    (p.execute op).Atomic Fault.Catchable p := by
  rcases (streams_of_run run).1.execute_cases op with ⟨can, left, returned, _⟩ | ⟨cannot, fault, stopped, _⟩
  · refine ⟨iff_of_true ⟨left, returned⟩ can, ?_⟩
    rw [returned]
    exact Outcome.atomic_returned _ _
  · refine ⟨iff_of_false (fun ⟨left, returned⟩ => ?_) cannot, ?_⟩
    · cases returned.symm.trans stopped
    · rw [stopped]
      exact Outcome.atomic_stopped_iff.mpr fun _ => rfl

/-- A table is printed, then an append to it stops halfway, and then it cannot be printed any more. -/
def brokenRow : List ProgramCall :=
  [.openStream, .shared (.makeTable 2), .shared (.onTable (some 0) (.addColumn "a" "int")),
    .shared (.onTable (some 0) (.addColumn "b" "int")), .makeTableWrapper (some 0), .execute 0,
      .makePrint (some 0) 0,
    .execute 1, .shared (.onTable (some 0) (.append [⟨.int, (3 : Int32)⟩, ⟨.string, "x"⟩])), .execute 1]

omit [Build] in
theorem exists_run_brokenRow :
    letI := streamBuild
    ∃ p, Run (Caught Fault.Catchable ProgramCall.run) start brokenRow p ∧
      p.execute 1 = .stopped .outOfRange p := by
  let _ := streamBuild
  exact ⟨_, .call (Or.inl rfl) <| .call (Or.inl rfl) <| .call (Or.inl rfl) <| .call (Or.inl rfl) <|
    .call (Or.inl rfl) <| .call (Or.inl rfl) <| .call (Or.inl rfl) <| .call (Or.inl rfl) <|
    .call (Or.inr ⟨.badLexicalCast, by decide, rfl⟩) <|
    .call (Or.inr ⟨.outOfRange, by decide, rfl⟩) .start, rfl⟩

omit [Build] in
theorem execute_run_broken_row :
    letI := streamBuild
    ∃ p, Run (Caught Fault.Catchable ProgramCall.run) start brokenRow p ∧ ¬p.CanExecute 1 ∧
      (p.execute 1).Atomic Fault.Catchable p := by
  let _ := streamBuild
  obtain ⟨p, run, stopped⟩ := exists_run_brokenRow
  obtain ⟨returns, atomic⟩ := execute_run run 1
  refine ⟨p, run, ?_, atomic⟩
  rw [← returns, stopped]
  rintro ⟨left, returned⟩
  cases returned

/-- Whatever is called, and whatever is thrown, a stream holds complete tables, one for each execution of a
`Print` that returned, in their order. -/
theorem stream_run (run : Run (Caught Fault.Catchable ProgramCall.run) start calls p) (k : Nat) :
    p.stream k = ⟨(texts start calls k).flatten, 0⟩ :=
  (streams_of_run run).2 k

omit [Build] in
theorem stream_run_broken_row :
    letI := streamBuild
    ∃ p, Run (Caught Fault.Catchable ProgramCall.run) start brokenRow p ∧
      p.stream 0 =
        ⟨"=== Columns\n|       a|       b|\n|     int|     int|\n=== Chunk 0 === \nEmpty chunk.\n".toList,
          0⟩ := by
  let _ := streamBuild
  obtain ⟨p, run, _⟩ := exists_run_brokenRow
  refine ⟨p, run, ?_⟩
  rw [stream_run run 0]
  decide +kernel

end Program

end Opossum
