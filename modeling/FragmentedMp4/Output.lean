import FragmentedMp4.Emission

/-!
# Places to write to

A `BoundedStream` takes bytes until its limit: a write that does not fit stores
what fits and fails. A `FixedBuffer` has a size of its own and a cursor; bytes
behind the cursor are not part of what it holds, even if a failed write has
changed them.
-/

namespace FragmentedMp4

/-- An action on a place to write to, which keeps what it wrote when it fails. -/
abbrev Writing (σ α : Type) := EStateM Failure σ α

namespace Writing

variable {σ α : Type}

/-- Adds context to the error that an action ends with. -/
def wrapping (wrap : Error → Error) (action : Writing σ α) : Writing σ α := fun place =>
  match action place with
  | .ok value place => .ok value place
  | .error failure place => .error (failure.mapError wrap) place

/-- A result that writes nothing. -/
def ofExcept (result : Except Error α) : Writing σ α := fun place =>
  match result with
  | .ok value => .ok value place
  | .error error => .error (.error error) place

end Writing

/-- A stream that takes at most `limit` bytes, or any number without a limit. -/
structure BoundedStream where
  limit : Option Nat
  bytes : Bytes

namespace BoundedStream

def empty (limit : Option Nat) : BoundedStream :=
  ⟨limit, []⟩

/-- Stores what fits and fails if that is not all. -/
def write (bytes : Bytes) : Writing BoundedStream Unit := fun stream =>
  match stream.limit with
  | none => .ok () { stream with bytes := stream.bytes ++ bytes }
  | some limit =>
    let room := limit - stream.bytes.length
    if bytes.length ≤ room then .ok () { stream with bytes := stream.bytes ++ bytes }
    else .error (.error .outputFull) { stream with bytes := stream.bytes ++ bytes.take room }

end BoundedStream

/-- Memory of a fixed size, and a cursor into it. -/
structure FixedBuffer where
  memory : Bytes
  offset : Nat
  offset_le : offset ≤ memory.length

namespace FixedBuffer

def ofCapacity (capacity : Nat) : FixedBuffer :=
  ⟨List.replicate capacity 0, 0, Nat.zero_le _⟩

def capacity (buffer : FixedBuffer) : Nat :=
  buffer.memory.length

def remaining (buffer : FixedBuffer) : Nat :=
  buffer.capacity - buffer.offset

/-- What the buffer holds: everything before the cursor. -/
def bytes (buffer : FixedBuffer) : Bytes :=
  buffer.memory.take buffer.offset

/-- The memory that is left when the buffer is given up: it is cut off at the cursor. -/
def release (buffer : FixedBuffer) : Bytes :=
  buffer.memory.take buffer.offset

/-- The memory with some bytes put at the cursor, as far as there is room. -/
def overlay (buffer : FixedBuffer) (bytes : Bytes) : Bytes :=
  let fitting := bytes.take buffer.remaining
  buffer.memory.take buffer.offset ++ fitting ++
    buffer.memory.drop (buffer.offset + fitting.length)

@[simp] theorem length_overlay (buffer : FixedBuffer) (bytes : Bytes) :
    (buffer.overlay bytes).length = buffer.memory.length := by
  have h := buffer.offset_le
  simp only [overlay, remaining, capacity, List.length_append, List.length_take,
    List.length_drop]
  omega

def stain (buffer : FixedBuffer) (bytes : Bytes) : FixedBuffer :=
  ⟨buffer.overlay bytes, buffer.offset, by simp [buffer.offset_le]⟩

def advance (buffer : FixedBuffer) (bytes : Bytes) (fits : bytes.length ≤ buffer.remaining) :
    FixedBuffer :=
  ⟨buffer.overlay bytes, buffer.offset + bytes.length, by
    have h := buffer.offset_le
    simp only [remaining, capacity] at fits
    simp only [length_overlay]
    omega⟩

/-- Takes all of the bytes, or none of them when there is no room. -/
def write (bytes : Bytes) : Writing FixedBuffer Unit := fun buffer =>
  if fits : bytes.length ≤ buffer.remaining then .ok () (buffer.advance bytes fits)
  else .error (.error (.bufferOverflow bytes.length buffer.remaining)) buffer

@[simp] theorem bytes_stain (buffer : FixedBuffer) (bytes : Bytes) :
    (buffer.stain bytes).bytes = buffer.bytes := by
  have h := buffer.offset_le
  simp only [FixedBuffer.bytes, stain, overlay, List.append_assoc]
  rw [List.take_append_of_le_length (by simp; omega), List.take_take, Nat.min_self]

@[simp] theorem bytes_advance (buffer : FixedBuffer) (bytes : Bytes)
    (fits : bytes.length ≤ buffer.remaining) :
    (buffer.advance bytes fits).bytes = buffer.bytes ++ bytes := by
  have h := buffer.offset_le
  simp only [FixedBuffer.bytes, advance, overlay, List.take_of_length_le fits]
  have hl : (buffer.memory.take buffer.offset ++ bytes).length = buffer.offset + bytes.length := by
    simp [h]
  rw [← hl, List.take_left']
  rfl

@[simp] theorem capacity_stain (buffer : FixedBuffer) (bytes : Bytes) :
    (buffer.stain bytes).capacity = buffer.capacity := by
  simp [capacity, stain]

@[simp] theorem capacity_advance (buffer : FixedBuffer) (bytes : Bytes)
    (fits : bytes.length ≤ buffer.remaining) :
    (buffer.advance bytes fits).capacity = buffer.capacity := by
  simp [capacity, advance]

end FixedBuffer
end FragmentedMp4
