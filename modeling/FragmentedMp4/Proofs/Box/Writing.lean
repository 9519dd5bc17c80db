import FragmentedMp4.Proofs.Box.Framing

/-!
# One box on a stream and in a buffer

A box either can be written anywhere where there is room for it, or nowhere, and then the
failure is the same everywhere and nothing of the box is kept: a stream without a limit
takes its bytes, and a buffer with room for its size ends up holding the same bytes.
-/
namespace FragmentedMp4

/-- An action that ended, with a failure or without, at some place. -/
def Writing.ending {σ : Type} (failure : Option Failure) (place : σ) :
    EStateM.Result Failure σ Unit :=
  match failure with
  | none => .ok () place
  | some failure => .error failure place

namespace FixedBuffer

theorem length_bytes (buffer : FixedBuffer) : buffer.bytes.length = buffer.offset := by
  have h := buffer.offset_le
  simp [bytes, h]

theorem remaining_of_bytes {before after : FixedBuffer} {bytes : Bytes}
    (hbytes : after.bytes = before.bytes ++ bytes) (hcapacity : after.capacity = before.capacity) :
    after.remaining = before.remaining - bytes.length := by
  have hoffset : after.offset = before.offset + bytes.length := by
    rw [← length_bytes, ← length_bytes before, hbytes, List.length_append]
  unfold remaining
  omega

end FixedBuffer

namespace Box

variable {α : Type} [IsBox α]

/-- Why a box cannot be written, wherever that is tried. -/
def failure? (box : α) : Option Failure :=
  if UInt64.size ≤ size box then some .overflow else (IsBox.contents box).error.map .error

theorem failure?_eq_none {box : α} : failure? box = none ↔ Writable box := by
  unfold failure?
  constructor
  · intro h
    split_ifs at h with hsize
    exact ⟨Nat.lt_of_not_le hsize, Option.map_eq_none_iff.1 h⟩
  · rintro ⟨hsize, hcomplete⟩
    rw [if_neg (Nat.not_le_of_lt hsize), hcomplete]
    rfl

theorem writeStream_of_writable {box : α} (h : Writable box) (bytes : Bytes) :
    writeStream box ⟨none, bytes⟩ = .ok () ⟨none, bytes ++ (emission box).bytes⟩ := by
  unfold writeStream
  rw [if_neg (Nat.not_le_of_lt h.size_lt), emission_error, h.complete]
  rfl

theorem writeStream_of_failure {box : α} {failure : Failure} (h : failure? box = some failure)
    (stream : BoundedStream) : writeStream box stream = .error failure stream := by
  unfold failure? at h
  unfold writeStream
  rw [emission_error]
  split_ifs at h ⊢
  · cases h
    rfl
  · obtain ⟨error, herror, rfl⟩ := Option.map_eq_some_iff.1 h
    rw [herror]

variable [ExactBox α]

theorem writeBuffer_of_writable {box : α} (h : Writable box) {buffer : FixedBuffer}
    (room : size box ≤ buffer.remaining) :
    ∃ after : FixedBuffer, writeBuffer box buffer = .ok () after ∧
      after.bytes = buffer.bytes ++ (emission box).bytes ∧ after.capacity = buffer.capacity := by
  have hlen := length_emission h
  have hfits : (emission box).bytes.length ≤ buffer.remaining := by omega
  refine ⟨buffer.advance _ hfits, ?_, buffer.bytes_advance _ hfits, buffer.capacity_advance _ hfits⟩
  unfold writeBuffer
  dsimp only
  rw [if_neg (Nat.not_le_of_lt h.size_lt), if_neg (by omega), if_neg (by omega), emission_error,
    h.complete]
  dsimp only
  rw [if_neg (by omega), FixedBuffer.write, dif_pos hfits]

theorem writeBuffer_of_failure {box : α} {failure : Failure} (h : failure? box = some failure)
    {buffer : FixedBuffer} (room : size box ≤ buffer.remaining) :
    ∃ after : FixedBuffer, writeBuffer box buffer = .error failure after ∧
      after.bytes = buffer.bytes ∧ after.capacity = buffer.capacity := by
  have hle := (within_emission box).le
  unfold failure? at h
  unfold writeBuffer
  dsimp only
  split_ifs at h with hsize
  · cases h
    exact ⟨buffer, if_pos hsize, rfl, rfl⟩
  · obtain ⟨error, herror, rfl⟩ := Option.map_eq_some_iff.1 h
    rw [if_neg hsize, if_neg (by omega), if_neg (by omega), emission_error, herror]
    exact ⟨buffer.stain _, rfl, buffer.bytes_stain _, buffer.capacity_stain _⟩

end Box
end FragmentedMp4
