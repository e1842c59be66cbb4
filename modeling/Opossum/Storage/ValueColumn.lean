import Opossum.TypeCast

namespace Opossum

structure ValueColumn (α : Type) where
  values : List α
  deriving DecidableEq

namespace ValueColumn
variable {α : Type}

def size (c : ValueColumn α) : Nat := c.values.length

/-- `operator[]`, with its `vector::at` -/
def entry (c : ValueColumn α) (i : Nat) : Except Fault α :=
  match c.values[i]? with
  | some x => .ok x
  | none => .error .outOfRange

/-- `type_cast` comes before `push_back`, so a value that cannot be cast leaves the column alone. -/
def append [Build] (T : ColumnType) (c : ValueColumn T.Elem) (value : AllTypeVariant) :
    Outcome Fault (ValueColumn T.Elem) :=
  Outcome.ofExcept c ((typeCast T value).map fun x => ⟨c.values ++ [x]⟩)

end ValueColumn

end Opossum
