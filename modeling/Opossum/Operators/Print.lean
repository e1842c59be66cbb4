import Opossum.Storage.Table

/-!
# The widths of printed columns

`column_string_widths` takes a maximum in three nested loops, of lengths that are cut to 16 bits before
they are compared.
-/

namespace Opossum

namespace Print
variable [Build]

/-- `boost::lexical_cast<std::string>` of a cell -/
def printed (cell : AllTypeVariant) : Except Fault String := lexicalCast .string cell

/-- One round of the loop over the column names. -/
def nameWidth (minWidth : UInt16) (t : Table) (col : Nat) : Except Fault UInt16 := do
  let name ← t.columnName col
  return max minWidth (UInt16.ofNat name.length)

/-- One round of the loop over the rows of a chunk. -/
def widenByCell (minWidth maxWidth : UInt16) (chunk : Chunk) (col : Nat) (widths : List UInt16) (row : Nat) :
    Except Fault (List UInt16) := do
  let column ← chunk.getColumn col
  let cell ← column.entry row
  let text ← printed cell
  let cellLength := UInt16.ofNat text.length
  match widths[col]? with
  | some width => return widths.set col (max (max minWidth width) (min maxWidth cellLength))
  | none => .error .undefined

/-- One round of the loop over the columns of a chunk. -/
def widenByColumn (minWidth maxWidth : UInt16) (chunk : Chunk) (widths : List UInt16) (col : Nat) :
    Except Fault (List UInt16) :=
  (List.range chunk.size.toNat).foldlM (widenByCell minWidth maxWidth chunk col) widths

/-- One round of the loop over the chunks of the input table. -/
def widenByChunk (minWidth maxWidth : UInt16) (inputTableLeft : Table) (widths : List UInt16) (id : Nat) :
    Except Fault (List UInt16) := do
  let chunk ← inputTableLeft.getChunk (UInt32.ofNat id)
  (List.range chunk.colCount.toNat).foldlM (widenByColumn minWidth maxWidth chunk) widths

/-- `Print::column_string_widths`. The names are those of `t`, the cells those of the input table of the
operator, which its only caller passes for `t` as well. -/
def columnStringWidths (inputTableLeft : Table) (minWidth maxWidth : UInt16) (t : Table) :
    Except Fault (List UInt16) := do
  let widths ← (List.range t.colCount.toNat).mapM (nameWidth minWidth t)
  (List.range inputTableLeft.chunkCount.toNat).foldlM (widenByChunk minWidth maxWidth inputTableLeft) widths

/-- The widths have grown to fit what has been seen in each column, and no further. -/
structure Widened (seen : Nat → Nat → Prop) (widths widths' : List UInt16) : Prop where
  length : widths'.length = widths.length
  width : ∀ (col : Nat) w, widths[col]? = some w → ∃ w', widths'[col]? = some w' ∧
    ∀ bound, w'.toNat ≤ bound ↔ w.toNat ≤ bound ∧ ∀ n, seen col n → n ≤ bound

omit [Build] in
/-- A loop whose rounds widen the columns widens them by all that its rounds have seen. -/
theorem foldlM_widened {α : Type} {f : List UInt16 → α → Except Fault (List UInt16)} {xs : List α}
    {seen : α → Nat → Nat → Prop} (good : List UInt16 → Prop)
    (rounds : ∀ x, x ∈ xs → ∀ widths, good widths →
      ∃ widths', f widths x = .ok widths' ∧ Widened (seen x) widths widths' ∧ good widths')
    {widths : List UInt16} (start : good widths) : ∃ widths', xs.foldlM f widths = .ok widths' ∧
      Widened (fun col n => ∃ x ∈ xs, seen x col n) widths widths' ∧ good widths' := by
  induction xs generalizing widths with
  | nil =>
    refine ⟨widths, rfl, ⟨rfl, fun col w found => ⟨w, found, fun bound => ?_⟩⟩, start⟩
    simp
  | cons x xs ih =>
    obtain ⟨mid, round, first, goodMid⟩ := rounds x (List.mem_cons_self ..) widths start
    obtain ⟨last, rest, later, goodLast⟩ :=
      ih (fun y member => rounds y (List.mem_cons_of_mem _ member)) goodMid
    refine ⟨last, ?_, ⟨later.length.trans first.length, fun col w found => ?_⟩, goodLast⟩
    · rw [List.foldlM_cons, round, Except.ok_bind, rest]
    · obtain ⟨v, atMid, toMid⟩ := first.width col w found
      obtain ⟨u, atLast, toLast⟩ := later.width col v atMid
      refine ⟨u, atLast, fun bound => ?_⟩
      rw [toLast, toMid, and_assoc]
      simp only [List.exists_mem_cons_iff, or_imp, forall_and]

omit [Build] in
theorem Widened.of_iff {seen seen' : Nat → Nat → Prop} {widths widths' : List UInt16}
    (widened : Widened seen widths widths') (same : ∀ col n, seen col n ↔ seen' col n) :
    Widened seen' widths widths' := by
  refine ⟨widened.length, fun col w found => ?_⟩
  obtain ⟨w', found', bounds⟩ := widened.width col w found
  exact ⟨w', found', fun bound => by simp only [bounds, same]⟩

omit [Build] in
theorem toNat_max (a b : UInt16) : (max a b).toNat = max a.toNat b.toNat := by
  show (if a ≤ b then b else a).toNat = _
  simp only [UInt16.le_iff_toNat_le]
  split <;> omega

omit [Build] in
theorem toNat_min (a b : UInt16) : (min a b).toNat = min a.toNat b.toNat := by
  show (if a ≤ b then a else b).toNat = _
  simp only [UInt16.le_iff_toNat_le]
  split <;> omega

/-- A cell of the chunk and its text. -/
def Prints (chunk : Chunk) (col row : Nat) (text : String) : Prop :=
  ∃ column cell, chunk.columns[col]? = some column ∧ column.entry row = .ok cell ∧ printed cell = .ok text

theorem Prints.functional {chunk : Chunk} {col row : Nat} {text other : String}
    (one : Prints chunk col row text) (another : Prints chunk col row other) : text = other := by
  obtain ⟨column, cell, found, read, prints⟩ := one
  obtain ⟨column', cell', found', read', prints'⟩ := another
  cases found.symm.trans found'
  cases read.symm.trans read'
  exact Except.ok.inj (prints.symm.trans prints')

/-- What a cell of this text asks for. -/
def cellWidth (maxWidth : UInt16) (text : String) : Nat := min maxWidth.toNat (text.length % 2 ^ 16)

/-- The widths inside the loops: one for each column, none below the lower limit. -/
def Started (minWidth : UInt16) (columns : Nat) (widths : List UInt16) : Prop :=
  widths.length = columns ∧ ∀ w ∈ widths, minWidth.toNat ≤ w.toNat

variable {minWidth maxWidth : UInt16} {columns : Nat} {widths : List UInt16} {chunk : Chunk} {t : Table}

theorem widenByCell_widened {col row : Nat} {text : String} (prints : Prints chunk col row text)
    (inside : col < columns) (started : Started minWidth columns widths) :
    ∃ widths', widenByCell minWidth maxWidth chunk col widths row = .ok widths' ∧
      Widened (fun i n => i = col ∧ ∃ text, Prints chunk col row text ∧ n = cellWidth maxWidth text)
        widths widths' ∧ Started minWidth columns widths' := by
  have ⟨column, cell, found, read, printed_eq⟩ := prints
  obtain ⟨length, atLeast⟩ := started
  obtain ⟨width, atCol⟩ : ∃ width, widths[col]? = some width :=
    ⟨_, List.getElem?_eq_getElem (by omega)⟩
  have above := atLeast width (List.mem_of_getElem? atCol)
  have toNat : (max (max minWidth width) (min maxWidth (UInt16.ofNat text.length))).toNat =
      max width.toNat (cellWidth maxWidth text) := by
    rw [toNat_max, toNat_max, toNat_min, UInt16.toNat_ofNat', cellWidth]
    omega
  refine ⟨widths.set col (max (max minWidth width) (min maxWidth (UInt16.ofNat text.length))), ?_,
    ⟨List.length_set, fun i w atI => ?_⟩, by rw [List.length_set, length], fun w member => ?_⟩
  · rw [widenByCell, Chunk.getColumn_eq_ok.mpr found, Except.ok_bind, read, Except.ok_bind, printed_eq,
      Except.ok_bind]
    simp only [atCol]
    rfl
  · by_cases same : col = i
    · subst same
      cases atCol.symm.trans atI
      refine ⟨_, List.getElem?_set_self (List.getElem?_eq_some_iff.mp atI).1, fun bound => ?_⟩
      rw [toNat, Nat.max_le]
      refine and_congr_right fun _ => ⟨?_, fun all => all _ ⟨rfl, text, prints, rfl⟩⟩
      rintro below _ ⟨_, other, again, rfl⟩
      exact prints.functional again ▸ below
    · refine ⟨w, by rwa [List.getElem?_set_ne same], fun bound => ?_⟩
      exact (and_iff_left fun n seen => absurd seen.1.symm same).symm
  · rcases List.mem_or_eq_of_mem_set member with old | rfl
    · exact atLeast w old
    · rw [toNat]
      omega

theorem widenByColumn_widened (maxWidth : UInt16) {col : Nat}
    (prints : ∀ row, row < chunk.size.toNat → ∃ text, Prints chunk col row text)
    (inside : col < columns) (started : Started minWidth columns widths) :
    ∃ widths', widenByColumn minWidth maxWidth chunk widths col = .ok widths' ∧
      Widened (fun i n => ∃ row ∈ List.range chunk.size.toNat, i = col ∧
        ∃ text, Prints chunk col row text ∧ n = cellWidth maxWidth text) widths widths' ∧
      Started minWidth columns widths' := by
  refine foldlM_widened (Started minWidth columns) (fun row member widths started => ?_) started
  obtain ⟨text, printsRow⟩ := prints row (List.mem_range.mp member)
  exact widenByCell_widened printsRow inside started

/-- A table whose chunks all have the columns that it counts, each of one length, and whose cells can be
read and printed. -/
structure Printable (t : Table) : Prop where
  columns : ∀ chunk ∈ t.chunks, chunk.columns.length = t.colCount.toNat
  sizes : ∀ chunk ∈ t.chunks, ∃ n, ∀ column ∈ chunk.columns, column.size = n
  cells : ∀ chunk ∈ t.chunks, ∀ column ∈ chunk.columns, ∀ row, row < column.size →
    ∃ cell text, column.entry row = .ok cell ∧ printed cell = .ok text

/-- The number of rows that a chunk reports is in all of its columns. -/
theorem Printable.row_lt (printable : Printable t) (member : chunk ∈ t.chunks) {row : Nat}
    (before : row < chunk.size.toNat) {column : BaseColumn} (inColumns : column ∈ chunk.columns) :
    row < column.size := by
  obtain ⟨n, sizes⟩ := printable.sizes chunk member
  have size := chunk.size_toNat
  rw [Chunk.firstColumnSize_eq (List.ne_nil_of_mem inColumns) sizes] at size
  have below := Nat.mod_le n (2 ^ 32)
  rw [sizes column inColumns]
  split at size <;> omega

/-- What the loops see of a chunk. -/
theorem Printable.prints (printable : Printable t) (member : chunk ∈ t.chunks) {col row : Nat}
    (inside : col < t.colCount.toNat) (before : row < chunk.size.toNat) :
    ∃ text, Prints chunk col row text := by
  have here : col < chunk.columns.length := printable.columns chunk member ▸ inside
  have inColumns := List.getElem_mem here
  obtain ⟨cell, text, read, prints⟩ :=
    printable.cells chunk member _ inColumns row (printable.row_lt member before inColumns)
  exact ⟨text, _, cell, List.getElem?_eq_getElem here, read, prints⟩

/-- The loops come to a cell of this column with this text. -/
def Visits (t : Table) (col : Nat) (text : String) : Prop :=
  ∃ (id : Nat) (chunk : Chunk) (row : Nat), id < t.chunkCount.toNat ∧ t.chunks[id]? = some chunk ∧
    row < chunk.size.toNat ∧ Prints chunk col row text

theorem Printable.colCount (printable : Printable t) (member : chunk ∈ t.chunks) :
    chunk.colCount.toNat = t.colCount.toNat := by
  have small := t.colCount.toNat_lt
  rw [Chunk.colCount_toNat, printable.columns chunk member, Nat.mod_eq_of_lt small]

theorem widenByChunk_widened (maxWidth : UInt16) (printable : Printable t) {id : Nat}
    (inside : id < t.chunkCount.toNat) (started : Started minWidth t.colCount.toNat widths) :
    ∃ widths', widenByChunk minWidth maxWidth t widths id = .ok widths' ∧
      Widened (fun i n => ∃ chunk row text, t.chunks[id]? = some chunk ∧ row < chunk.size.toNat ∧
        Prints chunk i row text ∧ n = cellWidth maxWidth text) widths widths' ∧
      Started minWidth t.colCount.toNat widths' := by
  have count := t.chunkCount_toNat
  have below := Nat.mod_le t.chunks.length (2 ^ 32)
  have here : id < t.chunks.length := by omega
  have found := List.getElem?_eq_getElem here
  have member := List.getElem_mem here
  have get : t.getChunk (UInt32.ofNat id) = .ok t.chunks[id] := by
    rw [Table.getChunk_eq_ok, UInt32.toNat_ofNat', Nat.mod_eq_of_lt (by omega), found]
  have colCount := printable.colCount member
  have rounds (col : Nat) (inRange : col ∈ List.range t.chunks[id].colCount.toNat) (widths : List UInt16)
      (started : Started minWidth t.colCount.toNat widths) :=
    have counted : col < t.colCount.toNat := colCount ▸ List.mem_range.mp inRange
    widenByColumn_widened maxWidth (fun _ before => printable.prints member counted before) counted started
  obtain ⟨widths', run, widened, started'⟩ :=
    foldlM_widened (Started minWidth t.colCount.toNat) rounds started
  refine ⟨widths', by rw [widenByChunk, get, Except.ok_bind, run], widened.of_iff fun i n => ?_, started'⟩
  constructor
  · rintro ⟨col, _, row, inRows, rfl, text, prints, rfl⟩
    exact ⟨_, row, text, found, List.mem_range.mp inRows, prints, rfl⟩
  · rintro ⟨chunk, row, text, found', before, prints, rfl⟩
    cases found.symm.trans found'
    have ⟨column, _, atI, _⟩ := prints
    have inColumns := (List.getElem?_eq_some_iff.mp atI).1
    rw [printable.columns _ member, ← colCount] at inColumns
    exact ⟨i, List.mem_range.mpr inColumns, row, List.mem_range.mpr before, rfl, text, prints, rfl⟩

/-- The width of a column is the least that the lower limit, the cut length of its name and the cut
lengths of the visited cells allow. -/
theorem columnStringWidths_bounds (printable : Printable t) (minWidth maxWidth : UInt16) :
    ∃ widths, columnStringWidths t minWidth maxWidth t = .ok widths ∧
      widths.length = t.colCount.toNat ∧ ∀ (col : Nat) w name, widths[col]? = some w →
        t.columnNames[col]? = some name → ∀ bound, w.toNat ≤ bound ↔
          max minWidth.toNat (name.length % 2 ^ 16) ≤ bound ∧
          ∀ text, Visits t col text → cellWidth maxWidth text ≤ bound := by
  have count := t.colCount_toNat
  have below := Nat.mod_le t.columnNames.length (2 ^ 16)
  have names (col : Nat) (inRange : col ∈ List.range t.colCount.toNat) :
      ∃ w, nameWidth minWidth t col = .ok w := by
    have here : col < t.columnNames.length := by
      have counted := List.mem_range.mp inRange
      omega
    exact ⟨_, by rw [nameWidth, Table.columnName, List.getElem?_eq_getElem here]; rfl⟩
  obtain ⟨widths, named⟩ := Pointwise.exists_forall₂ names
  have nameOf {col : Nat} {w : UInt16} {name : String} (atCol : widths[col]? = some w)
      (atName : t.columnNames[col]? = some name) :
      w.toNat = max minWidth.toNat (name.length % 2 ^ 16) := by
    obtain ⟨col', atRange, made⟩ := Pointwise.getElem?_right named atCol
    obtain ⟨inside, rfl⟩ := List.getElem?_eq_some_iff.mp atRange
    rw [List.getElem_range, nameWidth, Table.columnName, atName] at made
    obtain rfl := Except.ok.inj made
    rw [toNat_max, UInt16.toNat_ofNat']
  have started : Started minWidth t.colCount.toNat widths := by
    have length := named.length_eq
    rw [List.length_range] at length
    refine ⟨length.symm, fun w member => ?_⟩
    obtain ⟨col, atCol⟩ := List.mem_iff_getElem?.mp member
    obtain ⟨inside, _⟩ := List.getElem?_eq_some_iff.mp atCol
    have atName := List.getElem?_eq_getElem (l := t.columnNames) (i := col) (by omega)
    rw [nameOf atCol atName]
    omega
  have rounds (id : Nat) (inRange : id ∈ List.range t.chunkCount.toNat) (widths : List UInt16)
      (started : Started minWidth t.colCount.toNat widths) :=
    widenByChunk_widened maxWidth printable (List.mem_range.mp inRange) started
  obtain ⟨widths', run, widened, _⟩ := foldlM_widened (Started minWidth t.colCount.toNat) rounds started
  refine ⟨widths', ?_, widened.length.trans started.1, fun col w name atCol atName bound => ?_⟩
  · rw [columnStringWidths, Except.mapM_eq_ok.mpr named, Except.ok_bind, run]
  · obtain ⟨inside, _⟩ := List.getElem?_eq_some_iff.mp atCol
    have atFirst := List.getElem?_eq_getElem (l := widths) (i := col) (by rw [← widened.length]; exact inside)
    obtain ⟨w', atCol', bounds⟩ := widened.width col _ atFirst
    cases atCol.symm.trans atCol'
    rw [bounds, nameOf atFirst atName]
    refine and_congr_right fun _ => ⟨?_, ?_⟩
    · rintro all text ⟨id, chunk, row, counted, found, before, prints⟩
      exact all _ ⟨id, List.mem_range.mpr counted, chunk, row, text, found, before, prints, rfl⟩
    · rintro all _ ⟨id, inRange, chunk, row, text, found, before, prints, rfl⟩
      exact all text ⟨id, chunk, row, List.mem_range.mp inRange, found, before, prints⟩

/-- The entries of a column. -/
def cells (column : BaseColumn) : List AllTypeVariant :=
  (List.range column.size).filterMap fun row => (column.entry row).toOption

/-- The cells of a column of the table, over all chunks. -/
def columnCells (t : Table) (col : Nat) : List AllTypeVariant :=
  t.chunks.flatMap fun chunk => chunk.columns[col]?.toList.flatMap cells

/-- The length of a printed cell. -/
def printedLength (cell : AllTypeVariant) : Nat :=
  match printed cell with
  | .ok text => text.length
  | .error _ => 0

/-- The length of the longest printed cell of a column. -/
def longestCell (t : Table) (col : Nat) : Nat := ((columnCells t col).map printedLength).foldr max 0

omit [Build] in
theorem foldr_max_le_iff {lengths : List Nat} {start bound : Nat} :
    lengths.foldr max start ≤ bound ↔ start ≤ bound ∧ ∀ n ∈ lengths, n ≤ bound := by
  induction lengths with
  | nil => simp
  | cons n lengths ih => rw [List.foldr_cons, Nat.max_le, ih, List.forall_mem_cons, and_left_comm]

/-- A minimum with the longest length is below a bound if the minimum with each length is. -/
theorem min_longestCell_le_iff (t : Table) (limit bound col : Nat) : min limit (longestCell t col) ≤ bound ↔
    ∀ cell ∈ columnCells t col, min limit (printedLength cell) ≤ bound := by
  by_cases low : limit ≤ bound
  · exact iff_of_true (by omega) fun cell _ => by omega
  · have cut (n : Nat) : min limit n ≤ bound ↔ n ≤ bound := by omega
    simp only [cut, longestCell, foldr_max_le_iff, Nat.zero_le, true_and, List.forall_mem_map]

theorem Visits.mem_columnCells (printable : Printable t) {col : Nat} {text : String}
    (visits : Visits t col text) :
    ∃ cell ∈ columnCells t col, printedLength cell = text.length := by
  obtain ⟨id, chunk, row, _, atId, before, column, cell, found, read, prints⟩ := visits
  have member := List.mem_of_getElem? atId
  have inside := printable.row_lt member before (List.mem_of_getElem? found)
  refine ⟨cell, ?_, by rw [printedLength, prints]⟩
  simp only [columnCells, cells, List.mem_flatMap, List.mem_filterMap, Option.mem_toList, List.mem_range]
  exact ⟨chunk, member, column, found, row, inside, by rw [read]; rfl⟩

/-- Names are shorter than `2^16`, and so is what decides the width of a column: each cell, cut to the upper
limit, fits the lower limit or the name, or else the loops come to a cell whose length, cut to 16 bits, is no
shorter. -/
def WidthsFit (t : Table) (minWidth maxWidth : UInt16) : Prop :=
  ∀ (col : Nat) name, col < t.colCount.toNat → t.columnNames[col]? = some name →
    name.length < 2 ^ 16 ∧ ∀ cell ∈ columnCells t col,
      min maxWidth.toNat (printedLength cell) ≤ max minWidth.toNat name.length ∨
        ∃ text, Visits t col text ∧ min maxWidth.toNat (printedLength cell) ≤ text.length % 2 ^ 16

/-- Each column is as wide as the lower limit, its name, and its longest cell up to the upper limit. -/
theorem columnStringWidths_iff (printable : Printable t) (minWidth maxWidth : UInt16) :
    (∃ widths, columnStringWidths t minWidth maxWidth t = .ok widths ∧ widths.length = t.colCount.toNat ∧
      ∀ (col : Nat) w name, widths[col]? = some w → t.columnNames[col]? = some name →
        w.toNat = max minWidth.toNat (max name.length (min maxWidth.toNat (longestCell t col)))) ↔
      WidthsFit t minWidth maxWidth := by
  obtain ⟨widths, run, length, bounds⟩ := columnStringWidths_bounds printable minWidth maxWidth
  constructor
  · rintro ⟨widths', run', _, exactly⟩ col name counted atName
    obtain rfl := Except.ok.inj (run.symm.trans run')
    have atCol := List.getElem?_eq_getElem (l := widths) (i := col) (by omega)
    have small := widths[col].toNat_lt
    have width := exactly col _ name atCol atName
    refine ⟨by omega, fun cell member => ?_⟩
    by_contra neither
    obtain ⟨wide, invisible⟩ := not_or.mp neither
    have fits := (min_longestCell_le_iff t maxWidth.toNat widths[col].toNat col).mp
      (by omega) cell member
    have narrow := (bounds col _ name atCol atName (min maxWidth.toNat (printedLength cell) - 1)).mpr
      ⟨by omega, fun text visits => by
        have shorter : ¬min maxWidth.toNat (printedLength cell) ≤ text.length % 2 ^ 16 :=
          fun long => invisible ⟨text, visits, long⟩
        rw [cellWidth]
        omega⟩
    omega
  · intro fit
    refine ⟨widths, run, length, fun col w name atCol atName => ?_⟩
    obtain ⟨inside, _⟩ := List.getElem?_eq_some_iff.mp atCol
    obtain ⟨short, visible⟩ := fit col name (by omega) atName
    obtain ⟨least, allFit⟩ := (bounds col w name atCol atName w.toNat).mp le_rfl
    refine Nat.le_antisymm ((bounds col w name atCol atName _).mpr ⟨by omega, fun text visits => ?_⟩) ?_
    · obtain ⟨cell, member, same⟩ := visits.mem_columnCells printable
      have below := (min_longestCell_le_iff t maxWidth.toNat _ col).mp le_rfl cell member
      have cut := Nat.mod_le text.length (2 ^ 16)
      rw [cellWidth]
      omega
    · have longest : min maxWidth.toNat (longestCell t col) ≤ w.toNat := by
        refine (min_longestCell_le_iff t _ _ col).mpr fun cell member => ?_
        rcases visible cell member with low | ⟨text, visits, long⟩
        · omega
        · have fits := allFit text visits
          rw [cellWidth] at fits
          omega
      omega

/-- A debug build whose `lexical_cast` gives strings as they are. -/
@[reducible] def textBuild : Build where
  isDebug := true
  lexicalCast
    | .string, ⟨.string, text⟩ => some text
    | _, _ => none
  numericCast _ _ := none

omit [Build] in
/-- A table with one row of one string. -/
theorem textBuild_printable (text : String) :
    letI := textBuild
    Printable ⟨[true], ["a"], ["string"], [⟨[.value .string ⟨[text]⟩]⟩], 0⟩ := by
  let _ := textBuild
  constructor
  · simp [Table.colCount]
  · simp [BaseColumn.size, ValueColumn.size]
  · simp only [List.forall_mem_singleton]
    intro row inside
    obtain rfl : row = 0 := Nat.lt_one_iff.mp inside
    exact ⟨⟨.string, text⟩, text, rfl, rfl⟩

omit [Build] in
theorem columnStringWidths_iff_one_cell :
    letI := textBuild
    let t : Table := ⟨[true], ["a"], ["string"], [⟨[.value .string ⟨["ten digits"]⟩]⟩], 0⟩
    (∃ widths, columnStringWidths t 8 20 t = .ok widths ∧ widths.length = t.colCount.toNat ∧
      ∀ (col : Nat) w name, widths[col]? = some w → t.columnNames[col]? = some name →
        w.toNat = max 8 (max name.length (min 20 (longestCell t col)))) ↔
      WidthsFit t 8 20 :=
  letI := textBuild
  columnStringWidths_iff (textBuild_printable "ten digits") 8 20

omit [Build] in
/-- A cell of `2^16` characters counts as an empty one. -/
theorem columnStringWidths_cuts_length :
    ¬∀ [Build] (t : Table) (minWidth maxWidth : UInt16), (∀ text, printed ⟨.string, text⟩ = .ok text) →
      Printable t → minWidth ≤ maxWidth →
        ∃ widths, columnStringWidths t minWidth maxWidth t = .ok widths ∧
          ∀ (col : Nat) w name, widths[col]? = some w → t.columnNames[col]? = some name →
            w.toNat = max minWidth.toNat (max name.length (min maxWidth.toNat (longestCell t col))) := by
  intro all
  let _ := textBuild
  obtain ⟨text, long⟩ : ∃ text : String, text.length = 2 ^ 16 :=
    ⟨String.ofList (List.replicate (2 ^ 16) 'x'), by rw [String.length_ofList, List.length_replicate]⟩
  let t : Table := ⟨[true], ["a"], ["string"], [⟨[.value .string ⟨[text]⟩]⟩], 0⟩
  have printable : Printable t := textBuild_printable text
  obtain ⟨widths, run, exactly⟩ := all t 8 20 (fun _ => rfl) printable (by decide)
  obtain ⟨widths', run', length, bounds⟩ := columnStringWidths_bounds printable 8 20
  obtain rfl := Except.ok.inj (run.symm.trans run')
  have oneColumn : t.colCount.toNat = 1 := rfl
  have onlyCell : columnCells t 0 = [⟨.string, text⟩] := rfl
  have atCol := List.getElem?_eq_getElem (l := widths) (i := 0) (by omega)
  have unseen (other : String) (visits : Visits t 0 other) : cellWidth 20 other ≤ 8 := by
    obtain ⟨cell, member, same⟩ := visits.mem_columnCells printable
    rw [onlyCell, List.mem_singleton] at member
    have full : printedLength cell = 2 ^ 16 := by
      rw [member]
      exact long
    rw [cellWidth, ← same, full]
    decide
  have narrow := (bounds 0 _ "a" atCol rfl 8).mpr ⟨by decide, unseen⟩
  have width := exactly 0 _ "a" atCol rfl
  have longest := (min_longestCell_le_iff t 20 _ 0).mp le_rfl ⟨.string, text⟩ (by rw [onlyCell]; simp)
  have full : printedLength ⟨.string, text⟩ = 2 ^ 16 := long
  have limit : (20 : UInt16).toNat = 20 := rfl
  omega

end Print

end Opossum
