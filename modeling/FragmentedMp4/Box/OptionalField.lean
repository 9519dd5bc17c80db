import FragmentedMp4.Description

/-!
# Optional fields

Fields that a box may or may not hold: the bytes that they take and the lines that
describe them.
-/

namespace FragmentedMp4.OptionalField

def bytes (field : Option UInt32) : Bytes :=
  (field.map fun value => bigEndian 4 value.toNat).getD []

def wideBytes (field : Option UInt64) : Bytes :=
  (field.map fun value => bigEndian 8 value.toNat).getD []

def size {α : Type} (field : Option α) (width : Nat) : Nat :=
  if field.isSome then width else 0

@[simp] theorem length_bytes (field : Option UInt32) : (bytes field).length = size field 4 := by
  cases field <;> simp [bytes, size]

@[simp] theorem length_wideBytes (field : Option UInt64) :
    (wideBytes field).length = size field 8 := by
  cases field <;> simp [wideBytes, size]

@[simp] theorem size_map {α β : Type} (f : α → β) (field : Option α) (width : Nat) :
    size (field.map f) width = size field width := by
  cases field <;> rfl

/-- A line for a field that is there. -/
def line {α : Type} (indent key : String) (text : α → String) (field : Option α) : List Line :=
  (field.map fun value => Line.field indent key (text value)).toList

/-- A line for a property that holds. -/
def mark (indent key : String) (holds : Bool) : List Line :=
  if holds then [.field indent key "true"] else []

end FragmentedMp4.OptionalField
