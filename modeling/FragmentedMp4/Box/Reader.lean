import FragmentedMp4.Box.Basic

/-!
# Reading the contents of a box

A `Reader` takes numbers from the front of the contents of one box. Its errors
name the box, and say how many bytes of the contents would have been needed.
-/

namespace FragmentedMp4

/-- Contents of a box that are being read. -/
structure Cursor where
  box : FourCC
  /-- The number of bytes that have been read. -/
  position : Nat
  rest : Bytes

/-- Takes something from the front of the contents. -/
def Reader (α : Type) : Type :=
  Cursor → Except Error (α × Cursor)

namespace Reader

variable {α β : Type}

instance : Monad Reader where
  pure value := fun cursor => .ok (value, cursor)
  bind read next := fun cursor =>
    match read cursor with
    | .error error => .error error
    | .ok (value, cursor) => next value cursor

theorem pure_apply (value : α) (cursor : Cursor) :
    (pure value : Reader α) cursor = .ok (value, cursor) := rfl

theorem bind_apply (read : Reader α) (next : α → Reader β) (cursor : Cursor) :
    (read >>= next) cursor =
      match read cursor with
      | .error error => .error error
      | .ok (value, cursor) => next value cursor := rfl

theorem bind_of_ok {read : Reader α} {next : α → Reader β} {cursor cursor' : Cursor} {value : α}
    (h : read cursor = .ok (value, cursor')) : (read >>= next) cursor = next value cursor' := by
  rw [bind_apply, h]

def fail (error : Error) : Reader α := fun _ => .error error

def bytes (count : Nat) : Reader Bytes := fun cursor =>
  match takeExactly count cursor.rest with
  | some (front, rest) => .ok (front, { cursor with position := cursor.position + count, rest })
  | none =>
    .error (.truncated cursor.box (cursor.position + count)
      (cursor.position + cursor.rest.length))

def number (width : Nat) : Reader Nat := do
  return bigEndianValue (← bytes width)

def uint32 : Reader UInt32 := do
  return UInt32.ofNat (← number 4)

def int32 : Reader Int32 := do
  return (← uint32).toInt32

def uint64 : Reader UInt64 := do
  return UInt64.ofNat (← number 8)

def fourCC : Reader FourCC := fun cursor =>
  match bytes 4 cursor with
  | .error error => .error error
  | .ok (front, cursor) =>
    match FourCC.ofBytes? front with
    | some code => .ok (code, cursor)
    | none => .error (.truncated cursor.box 4 front.length)

/-- The version byte and the flag bits. -/
def word : Reader VersionFlags := do
  let value ← uint32
  return .of (value >>> 24).toUInt8 value

/-- A field that is there only if a flag says so. -/
def optional (present : Bool) (read : Reader α) : Reader (Option α) :=
  if present then do return some (← read) else pure none

def remaining : Reader Nat := fun cursor => .ok (cursor.rest.length, cursor)

def finish : Reader Unit := fun cursor =>
  if cursor.rest.isEmpty then .ok ((), cursor)
  else .error (.invalidBox cursor.box (.trailingBytes cursor.rest.length))

/-- Reads a number of items behind those that were read before, which are given
in reverse. -/
def timesOnto (read : Reader α) (done : List α) : (count : Nat) → Reader (List α)
  | 0 => fun cursor => .ok (done.reverse, cursor)
  | count + 1 => fun cursor =>
    match read cursor with
    | .error error => .error error
    | .ok (value, cursor) => timesOnto read (value :: done) count cursor

def times (count : Nat) (read : Reader α) : Reader (List α) :=
  timesOnto read [] count

def run (box : FourCC) (read : Reader α) (contents : Bytes) : Except Error α :=
  match read ⟨box, 0, contents⟩ with
  | .error error => .error error
  | .ok (value, _) => .ok value

theorem bytes_append (front rest : Bytes) (box : FourCC) (position : Nat) :
    bytes front.length ⟨box, position, front ++ rest⟩ =
      .ok (front, ⟨box, position + front.length, rest⟩) := by
  simp [bytes]

theorem number_append (width value : Nat) (rest : Bytes) (box : FourCC) (position : Nat)
    (h : value < widthLimit width) :
    number width ⟨box, position, bigEndian width value ++ rest⟩ =
      .ok (value, ⟨box, position + width, rest⟩) := by
  have hb := bytes_append (bigEndian width value) rest box position
  rw [length_bigEndian] at hb
  rw [number, bind_of_ok hb, pure_apply, bigEndianValue_bigEndian_of_lt h]

theorem uint32_append (value : UInt32) (rest : Bytes) (box : FourCC) (position : Nat) :
    uint32 ⟨box, position, bigEndian 4 value.toNat ++ rest⟩ =
      .ok (value, ⟨box, position + 4, rest⟩) := by
  have h := number_append 4 value.toNat rest box position value.toNat_lt
  rw [uint32, bind_of_ok h, pure_apply, UInt32.ofNat_toNat]

theorem int32_append (value : Int32) (rest : Bytes) (box : FourCC) (position : Nat) :
    int32 ⟨box, position, bigEndian 4 value.toUInt32.toNat ++ rest⟩ =
      .ok (value, ⟨box, position + 4, rest⟩) := by
  have h := uint32_append value.toUInt32 rest box position
  rw [int32, bind_of_ok h, pure_apply]
  rfl

theorem uint64_append (value : UInt64) (rest : Bytes) (box : FourCC) (position : Nat) :
    uint64 ⟨box, position, bigEndian 8 value.toNat ++ rest⟩ =
      .ok (value, ⟨box, position + 8, rest⟩) := by
  have h := number_append 8 value.toNat rest box position value.toNat_lt
  rw [uint64, bind_of_ok h, pure_apply, UInt64.ofNat_toNat]

theorem fourCC_append (code : FourCC) (rest : Bytes) (box : FourCC) (position : Nat) :
    fourCC ⟨box, position, code.bytes ++ rest⟩ =
      .ok (code, ⟨box, position + 4, rest⟩) := by
  have h := bytes_append code.bytes rest box position
  rw [FourCC.length_bytes] at h
  rw [fourCC, h]
  rfl

end Reader
end FragmentedMp4
