import FragmentedMp4.Proofs.Box.Framing
import FragmentedMp4.Proofs.Fragment.Words

/-!
# Sizes on both sides of the 32-bit limit

The size of a box counts its header, and the header is longer when the size does not fit 32 bits.
Three places have to agree on this: the size that is added up in advance, the choice of the form
when the header is written, and what a reader makes of the 32-bit field. They do for contents of
any length, as long as the size fits 64 bits: the header of a written box is found again with the
exact size, and behind it everything else that was written.
-/
namespace FragmentedMp4

theorem VersionFlags.bytes_of (version : UInt8) (flags : UInt32) :
    (VersionFlags.of version flags).bytes = version :: bigEndian 3 (flags.toNat % 2 ^ 24) := by
  have hmask : (flags &&& 0xFFFFFF).toNat = flags.toNat % 2 ^ 24 := by
    rw [UInt32.toNat_and]
    exact Nat.and_two_pow_sub_one_eq_mod _ 24
  rw [VersionFlags.bytes, VersionFlags.of, hmask]

namespace Box

/-- The size of a box with the short header, with a version and flags or without. -/
def shortTotal (hasWord : Bool) (content : Nat) : Nat :=
  8 + (if hasWord then 4 else 0) + content

def total (hasWord : Bool) (content : Nat) : Nat :=
  if 2 ^ 32 - 1 < shortTotal hasWord content then 8 + shortTotal hasWord content
  else shortTotal hasWord content

variable {α : Type} [IsBox α]

theorem size_eq_total (box : α) :
    size box = total (IsBox.word box).isSome (IsBox.contentSize box) := by
  unfold size sizeOfBody total shortTotal wordSize headerSize largeHeaderSize maxShortSize
  split_ifs <;> omega

def shortTotalInWords (hasWord : Bool) (content : Nat) : Except Failure Nat := do
  let plain ← Words.add content headerSize
  if hasWord then Words.add plain 4 else return plain

def sizeInWords (box : α) : Except Failure Nat := do
  let short ← shortTotalInWords (IsBox.word box).isSome (IsBox.contentSize box)
  if maxShortSize < short then Words.add short (largeHeaderSize - headerSize) else return short

theorem shortTotalInWords_eq (hasWord : Bool) (content : Nat) :
    shortTotalInWords hasWord content =
      if shortTotal hasWord content < UInt64.size then .ok (shortTotal hasWord content)
      else .error .overflow := by
  have hplain : content + headerSize = 8 + content := Nat.add_comm _ _
  unfold shortTotalInWords Words.add
  rw [hplain]
  cases hasWord with
  | false =>
    have hshort : shortTotal false content = 8 + content := rfl
    rw [hshort]
    by_cases hfits : 8 + content < UInt64.size
    · rw [if_pos hfits]
      rfl
    · rw [if_neg hfits]
      rfl
  | true =>
    have hshort : shortTotal true content = 8 + content + 4 := Nat.add_right_comm _ _ _
    rw [hshort]
    by_cases hfits : 8 + content < UInt64.size
    · rw [if_pos hfits]
      rfl
    · rw [if_neg hfits, if_neg (by omega)]
      rfl

/-- Adding up overflows exactly if the size does not fit. -/
theorem sizeInWords_eq (box : α) : sizeInWords box = checkedSize box := by
  unfold sizeInWords checkedSize
  rw [shortTotalInWords_eq, size_eq_total, total]
  generalize shortTotal (IsBox.word box).isSome (IsBox.contentSize box) = short
  by_cases hlarge : maxShortSize < short
  · rw [if_pos (show 2 ^ 32 - 1 < short from hlarge), Nat.add_comm 8]
    by_cases hfits : short < UInt64.size
    · rw [if_pos hfits]
      exact if_pos hlarge
    · rw [if_neg hfits, if_neg (by omega)]
      rfl
  · rw [if_neg (show ¬ 2 ^ 32 - 1 < short from hlarge)]
    by_cases hfits : short < UInt64.size
    · rw [if_pos hfits]
      exact if_neg hlarge
    · rw [if_neg hfits]
      rfl

theorem size_le_iff (box : α) :
    size box ≤ maxShortSize ↔
      shortTotal (IsBox.word box).isSome (IsBox.contentSize box) ≤ 2 ^ 32 - 1 := by
  rw [size_eq_total, total, maxShortSize]
  split_ifs <;> omega

/-- A box of any type, with any contents that are as long as it says, is written with exactly its
size, as long as that fits 64 bits. Whatever bytes come behind, the header is found with the type
and this size, and it is the long one exactly if the size does not fit 32 bits. Behind the header
are the version and flags and then the contents. The 32-bit field of the size is never zero, which
would stand for all bytes, and it is one only in the long header. -/
theorem parse_written {box : α} {given : Option (UInt8 × UInt32)} {content : Bytes}
    (hword : IsBox.word box = given.map fun word => .of word.1 word.2)
    (hcontents : IsBox.contents box = .put content)
    (hsize : IsBox.contentSize box = content.length)
    (hmax : total given.isSome content.length < 2 ^ 64) (rest : Bytes) :
    ∃ written header, emission box = .put written ∧
      BoxHeader.parse (written ++ rest) = .ok header ∧
      header.name = IsBox.name box ∧
      header.size = total given.isSome content.length ∧
      header.size = written.length ∧ header.size = size box ∧
      sizeInWords box = .ok header.size ∧
      header.headerSize =
        (if 2 ^ 32 - 1 < shortTotal given.isSome content.length then 16 else 8) ∧
      header.contents (written ++ rest) =
        (given.elim [] fun word => word.1 :: bigEndian 3 (word.2.toNat % 2 ^ 24)) ++ content ∧
      bigEndianValue (written.take 4) ≠ 0 ∧
      (bigEndianValue (written.take 4) = 1 ↔ header.headerSize = 16) := by
  have hgiven : (IsBox.word box).isSome = given.isSome := by rw [hword, Option.isSome_map]
  have htotal : size box = total given.isSome content.length := by
    rw [size_eq_total, hgiven, hsize]
  have hshort : size box ≤ maxShortSize ↔ shortTotal given.isSome content.length ≤ 2 ^ 32 - 1 := by
    rw [size_le_iff, hgiven, hsize]
  have hlimit : size box < UInt64.size := htotal ▸ hmax
  have hemission : emission box = .put (emission box).bytes := by
    rw [emission, hcontents]
    rfl
  have hlen : (emission box).bytes.length = size box := by
    rw [emission_bytes, hcontents, size_eq, hsize, List.length_append]
    rfl
  have hfield : bigEndianValue ((emission box).bytes.take 4) =
      if size box ≤ maxShortSize then size box else 1 := by
    rw [emission_bytes_eq]
    exact BoxHeader.value_sizeField _ _ _
  have hform : (writtenHeader box).headerSize =
      if size box ≤ maxShortSize then headerSize else largeHeaderSize := length_header _ _
  have hbytes : ((IsBox.word box).map VersionFlags.bytes).getD [] =
      given.elim [] fun word => word.1 :: bigEndian 3 (word.2.toNat % 2 ^ 24) := by
    rw [hword]
    cases given with
    | none => rfl
    | some word => exact VersionFlags.bytes_of word.1 word.2
  refine ⟨(emission box).bytes, writtenHeader box, hemission, parse_of_length hlen hlimit rest, rfl,
    htotal, hlen.symm, rfl, ?_, ?_, ?_, ?_⟩
  · rw [sizeInWords_eq]
    exact if_pos hlimit
  · rw [hform]
    simp only [hshort, ← not_lt, ite_not]
    rfl
  · rw [contents_of_length hlen, body, hbytes, hcontents]
    rfl
  · -- The short header counts itself, so its size is neither zero nor one.
    have height : 8 ≤ size box := by
      rw [htotal, total, shortTotal]
      split_ifs <;> omega
    rw [hfield, hform, headerSize, largeHeaderSize]
    split_ifs <;> omega

/-- Media data with the last size that the short header holds and with one byte more, and a box
with a version and flags. -/
theorem parse_written_at_limit :
    let last : MediaData := ⟨List.replicate (2 ^ 32 - 9) 0⟩
    let next : MediaData := ⟨List.replicate (2 ^ 32 - 8) 0⟩
    let numbered : MovieFragmentHeader := ⟨7⟩
    (∃ written header, emission last = .put written ∧
      BoxHeader.parse (written ++ [1, 2]) = .ok header ∧
      header.size = 2 ^ 32 - 1 ∧ header.headerSize = 8) ∧
    (∃ written header, emission next = .put written ∧
      BoxHeader.parse (written ++ [1, 2]) = .ok header ∧
      header.size = 2 ^ 32 + 8 ∧ header.headerSize = 16 ∧ bigEndianValue (written.take 4) = 1) ∧
    ∃ written header, emission numbered = .put written ∧
      BoxHeader.parse (written ++ [1, 2]) = .ok header ∧
      header.size = 16 ∧ header.contents (written ++ [1, 2]) = [0, 0, 0, 0, 0, 0, 0, 7] := by
  intro last next numbered
  have hlast : last.payload.length = 2 ^ 32 - 9 := List.length_replicate
  have hnext : next.payload.length = 2 ^ 32 - 8 := List.length_replicate
  have hnone (box : MediaData) :
      IsBox.word box = (none : Option (UInt8 × UInt32)).map fun word => .of word.1 word.2 := rfl
  have hsome : IsBox.word numbered = (some ((0 : UInt8), (0 : UInt32))).map fun word =>
    .of word.1 word.2 := rfl
  have hnumber : IsBox.contents numbered = .put [0, 0, 0, 7] := by decide
  refine ⟨?_, ?_, ?_⟩
  · obtain ⟨written, header, hput, hparse, -, hsize, -, -, -, hform, -⟩ :=
      parse_written (hnone last) rfl rfl (by rw [hlast]; decide) [1, 2]
    rw [hlast] at hsize hform
    exact ⟨written, header, hput, hparse, hsize, hform⟩
  · obtain ⟨written, header, hput, hparse, -, hsize, -, -, -, hform, -, -, hone⟩ :=
      parse_written (hnone next) rfl rfl (by rw [hnext]; decide) [1, 2]
    rw [hnext] at hsize hform
    exact ⟨written, header, hput, hparse, hsize, hform, hone.2 hform⟩
  · obtain ⟨written, header, hput, hparse, -, hsize, -, -, -, -, hcontents, -⟩ :=
      parse_written hsome hnumber rfl (by decide) [1, 2]
    exact ⟨written, header, hput, hparse, hsize, hcontents⟩

end Box
end FragmentedMp4
