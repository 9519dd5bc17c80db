import FragmentedMp4.Output
import FragmentedMp4.Description

/-!
# Boxes

A box is a header followed by contents. The header holds the size of the whole
box and its type, and for some types a word with a version and flags. Sizes that
do not fit 32 bits are written in a 64-bit field, which makes the header longer.

`IsBox` is what a type has to give to be a box. `Box.size`, `Box.emission`,
`Box.writeStream`, `Box.writeBuffer` and `Box.lines` follow from it.
-/

namespace FragmentedMp4

/-- What makes a type a box. -/
class IsBox (α : Type) where
  /-- The type of the box. -/
  name : α → FourCC
  /-- The version and flags, of a box that has them. -/
  word : α → Option VersionFlags
  /-- The number of bytes that the contents take, without the version and flags. -/
  contentSize : α → Nat
  /-- The contents. -/
  contents : α → Emission
  /-- The lines below the title, at the level of the box type, with the indentation
  of these lines and its step. -/
  details : α → DetailLevels → (level : Nat) → (indent step : String) → List Line

namespace Box

variable {α : Type} [IsBox α] (box : α)

def headerSize : Nat := 8

def largeHeaderSize : Nat := 16

/-- The largest size that the short header holds. -/
def maxShortSize : Nat := 0xFFFFFFFF

def wordSize (word : Option VersionFlags) : Nat :=
  if word.isSome then 4 else 0

/-- The size of a box that has `body` bytes behind its size and type fields. -/
def sizeOfBody (body : Nat) : Nat :=
  if headerSize + body ≤ maxShortSize then headerSize + body else largeHeaderSize + body

def size : Nat :=
  sizeOfBody (wordSize (IsBox.word box) + IsBox.contentSize box)

/-- The size, if it fits 64 bits. -/
def checkedSize : Except Failure Nat :=
  if size box < UInt64.size then .ok (size box) else .error .overflow

/-- The size and type fields of a box of a given size. -/
def header (name : FourCC) (size : Nat) : Bytes :=
  if size ≤ maxShortSize then bigEndian 4 size ++ name.bytes
  else bigEndian 4 1 ++ name.bytes ++ bigEndian 8 size

def front : Bytes :=
  header (IsBox.name box) (size box) ++ ((IsBox.word box).map VersionFlags.bytes).getD []

/-- The whole box. -/
def emission : Emission :=
  .put (front box) ++ IsBox.contents box

/-- Writes a whole box to a stream, or nothing of it when its contents cannot be
written. -/
def writeStream : Writing BoundedStream Unit := fun stream =>
  if UInt64.size ≤ size box then .error .overflow stream
  else
    match (emission box).error with
    | some error => .error (.error error) stream
    | none => BoundedStream.write (emission box).bytes stream

/-- Writes a box at the cursor of a buffer. It must fill exactly the room that it
declares; a failure leaves the cursor where it was. -/
def writeBuffer : Writing FixedBuffer Unit := fun buffer =>
  let need := size box
  let out := emission box
  if UInt64.size ≤ need then .error .overflow buffer
  else if buffer.remaining < need then
    .error (.error (.bufferOverflow need buffer.remaining)) buffer
  else if need < out.bytes.length then
    .error (.pastEnd (need - (front box).length) (out.bytes.length - (front box).length)) buffer
  else
    match out.error with
    | some error => .error (.error error) (buffer.stain out.bytes)
    | none =>
      if out.bytes.length < need then
        .error (.error (.invalidBox (IsBox.name box) (.sizeMismatch out.bytes.length need)))
          (buffer.stain out.bytes)
      else FixedBuffer.write out.bytes buffer

def lines (levels : DetailLevels) (indent step : String) : List Line :=
  .title indent (IsBox.name box) (size box) (IsBox.word box) ::
    IsBox.details box levels (levels.level (IsBox.name box)) (indent ++ step) step

def describe (levels : DetailLevels) (indent step : String) : Writing BoundedStream Unit :=
  fun stream =>
    if UInt64.size ≤ size box then .error .overflow stream
    else BoundedStream.write (Text.utf8 (Line.textOf (lines box levels indent step))) stream

theorem sizeOfBody_pos (body : Nat) : 0 < sizeOfBody body := by
  unfold sizeOfBody headerSize largeHeaderSize
  split <;> omega

theorem length_header (name : FourCC) (size : Nat) :
    (header name size).length = if size ≤ maxShortSize then headerSize else largeHeaderSize := by
  unfold header
  split <;> simp [headerSize, largeHeaderSize]

theorem length_word (word : Option VersionFlags) :
    ((word.map VersionFlags.bytes).getD []).length = wordSize word := by
  cases word <;> simp [wordSize]

/-- The size counts the front of the box and its contents. -/
theorem size_eq : size box = (front box).length + IsBox.contentSize box := by
  have hs : size box = sizeOfBody (wordSize (IsBox.word box) + IsBox.contentSize box) := rfl
  rw [front, List.length_append, length_word, length_header, hs, sizeOfBody]
  by_cases h : headerSize + (wordSize (IsBox.word box) + IsBox.contentSize box) ≤ maxShortSize
  · simp only [h, if_true]
    omega
  · rw [if_neg h, if_neg (by unfold headerSize largeHeaderSize at *; omega)]
    omega

end Box
end FragmentedMp4
