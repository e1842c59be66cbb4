import Opossum.Foundation.Ranges
import Opossum.Storage.AttributeVector
import Opossum.Storage.ValueColumn

namespace Opossum
variable {α : Type}

/-- `INVALID_VALUE_ID`, the largest `ValueID` -/
def invalidValueID : ValueID := UInt32.ofNat (2 ^ 32 - 1)

structure DictionaryColumn (α : Type) where
  dictionary : List α
  attributeVector : BaseAttributeVector

namespace DictionaryColumn

/-- The width follows the number of rows. -/
def fittedVector (attrSize : Nat) : Except Fault BaseAttributeVector :=
  if attrSize < 2 ^ 8 - 1 then
    (FittedAttributeVector.new 8 attrSize).map .mk
  else if attrSize < 2 ^ 16 - 1 then
    (FittedAttributeVector.new 16 attrSize).map .mk
  else
    (FittedAttributeVector.new 32 attrSize).map .mk

/-- One round of the constructor's loop: the place of the value in the dictionary is its id. -/
def storeValueID [LT α] [DecidableLT α] (dictionary : List α) (row : α × Nat)
    (vector : BaseAttributeVector) : Outcome Fault BaseAttributeVector :=
  vector.set row.2 (UInt32.ofNat (Ranges.lowerBound dictionary row.1))

/-- The constructor, from what the dynamic cast of its argument to `ValueColumn<T>` gave. -/
def new [LT α] [DecidableLT α] [BEq α] (valColumn : Option (ValueColumn α)) :
    Except Fault (DictionaryColumn α) := do
  match valColumn with
  | none => .error (.logicError "Compression is only supported for value columns!")
  | some valColumn =>
    let values := valColumn.values
    assert (!values.isEmpty) "Cannot compress empty value column!"
    let dictionary := Ranges.unique (Ranges.sort values)
    assert (values.length < 2 ^ 32 - 1) "Unsupported attribute vector width!"
    let attributeVector ← fittedVector values.length
    let attributeVector ←
      (Outcome.loop (storeValueID dictionary) values.zipIdx attributeVector).toExcept
    return ⟨dictionary, attributeVector⟩

def get [Build] (c : DictionaryColumn α) (i : Nat) : Except Fault α := do
  let dictID ← c.attributeVector.get i
  debugAssert "src/lib/storage/dictionary_column.cpp:60" (dictID.toNat < c.dictionary.length)
    "Index out of bounds!"
  match c.dictionary[dictID.toNat]? with
  | some x => .ok x
  | none => .error .undefined

def append (c : DictionaryColumn α) (_value : AllTypeVariant) : Outcome Fault (DictionaryColumn α) :=
  .stopped (.runtimeError "Appending to a compressed column is not supported!") c

def valueByValueID (c : DictionaryColumn α) (valueID : ValueID) : Except Fault α :=
  match c.dictionary[valueID.toNat]? with
  | some x => .ok x
  | none => .error .outOfRange

/-- The id of a position that a binary search in the dictionary has returned. -/
def idOfPosition (c : DictionaryColumn α) (pos : Nat) : ValueID :=
  if pos = c.dictionary.length then invalidValueID else UInt32.ofNat pos

def lowerBound [LT α] [DecidableLT α] (c : DictionaryColumn α) (value : α) : ValueID :=
  c.idOfPosition (Ranges.lowerBound c.dictionary value)

def upperBound [LT α] [DecidableLT α] (c : DictionaryColumn α) (value : α) : ValueID :=
  c.idOfPosition (Ranges.upperBound c.dictionary value)

/-- `lower_bound` of a variant -/
def lowerBoundVariant [Build] {T : ColumnType} (c : DictionaryColumn T.Elem) (value : AllTypeVariant) :
    Except Fault ValueID :=
  (typeCast T value).map c.lowerBound

/-- `upper_bound` of a variant -/
def upperBoundVariant [Build] {T : ColumnType} (c : DictionaryColumn T.Elem) (value : AllTypeVariant) :
    Except Fault ValueID :=
  (typeCast T value).map c.upperBound

def uniqueValuesCount (c : DictionaryColumn α) : Nat := c.dictionary.length

def size (c : DictionaryColumn α) : Nat := c.attributeVector.size

end DictionaryColumn

end Opossum
