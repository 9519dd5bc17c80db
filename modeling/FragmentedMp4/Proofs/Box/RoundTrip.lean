import FragmentedMp4.Proofs.Box.Fields

/-!
# Boxes without children are read back

Each box type is read back from the body it was written with. The version of a time is
read as the version that was written, so what comes back is the box as it was written:
`asWritten` says how that differs from the box that was stored. Entries of an index come
back if their fields fit the widths they are stored in, and runs whose samples carry no
fields if a reader accepts that many of them.
-/
namespace FragmentedMp4

open Reader

@[simp] theorem VersionFlags.has_of (version : UInt8) (bits flag : UInt32) :
    (of version bits).has flag = (bits &&& 0xFFFFFF &&& flag != 0) := rfl

namespace OptionalField

theorem reads {field : Option UInt32} {present : Bool} (h : present = field.isSome) :
    Reads (Reader.optional present Reader.uint32) (bytes field) field :=
  Reads.optional h Reads.uint32

theorem reads_wide {field : Option UInt64} {present : Bool} (h : present = field.isSome) :
    Reads (Reader.optional present Reader.uint64) (wideBytes field) field :=
  Reads.optional h Reads.uint64

theorem reads_signed {field : Option Int32} {present : Bool} (h : present = field.isSome) :
    Reads (Reader.optional present Reader.int32) (bytes (field.map Int32.toUInt32)) field := by
  have hread := Reads.optional h Reads.int32
  rwa [show (field.map fun value => bigEndian 4 value.toUInt32.toNat).getD [] =
    bytes (field.map Int32.toUInt32) by cases field <;> rfl] at hread

end OptionalField

namespace SegmentType

theorem reads_brands (box : SegmentType) :
    ReadsAll (do
      let left ← Reader.remaining
      if left % 4 ≠ 0 then Reader.fail (.invalidBox .styp .partialBrand)
      else
        let brands ← Reader.times (left / 4) Reader.fourCC
        return ⟨box.majorBrand, box.minorVersion, brands⟩)
      (box.brands.flatMap FourCC.bytes) box := by
  intro name position
  have hlen : (box.brands.flatMap FourCC.bytes).length = 4 * box.brands.length := by
    simp only [List.length_flatMap, FourCC.length_bytes, List.map_const', List.sum_replicate,
      smul_eq_mul, Nat.mul_comm]
  have hbrands := ((Reads.times fun code (_ : code ∈ box.brands) => Reads.fourCC code).bind_pure
    fun brands => (⟨box.majorBrand, box.minorVersion, brands⟩ : SegmentType)).all name position
  rw [bind_of_ok (show Reader.remaining ⟨name, position, box.brands.flatMap FourCC.bytes⟩ =
    .ok (4 * box.brands.length, _) by rw [Reader.remaining, hlen])]
  rw [if_neg (by omega), Nat.mul_div_cancel_left _ (by decide)]
  exact hbrands

theorem decodeContents_body (box : SegmentType) : decodeContents (Box.body box) = .ok box := by
  have hbody : Box.body box = box.majorBrand.bytes ++ bigEndian 4 box.minorVersion.toNat ++
      box.brands.flatMap FourCC.bytes := rfl
  rw [hbody, List.append_assoc]
  apply run_of_readsAll
  exact (Reads.fourCC box.majorBrand).bind_all
    ((Reads.uint32 box.minorVersion).bind_all (reads_brands box))

theorem decode_emission {box : SegmentType} (h : Box.Writable box) (rest : Bytes) :
    decode ((Box.emission box).bytes ++ rest) = .ok (box, Box.size box) :=
  Box.decodeAs_emission h rfl box.decodeContents_body rest

end SegmentType

namespace IndexReference

/-- The fields fit the widths in which they are stored. -/
structure FitsWidths (reference : IndexReference) : Prop where
  size : reference.size.toNat < 2 ^ 31
  sapType : reference.sapType.toNat < 2 ^ 3
  sapDelta : reference.sapDelta.toNat < 2 ^ 28

theorem toNat_topBit (bit : Bool) : (topBit bit).toNat = 2 ^ 31 * bit.toNat := by
  cases bit <;> rfl

variable {reference : IndexReference}

theorem toNat_sizeWord (h : reference.FitsWidths) :
    reference.sizeWord.toNat = 2 ^ 31 * reference.toIndex.toNat + reference.size.toNat := by
  have hsize := h.size
  rw [Nat.two_pow_add_eq_or_of_lt hsize, sizeWord, UInt32.toNat_or, toNat_topBit, UInt32.toNat_and,
    show (0x7FFFFFFF : UInt32).toNat = 2 ^ 31 - 1 by rfl, Nat.and_two_pow_sub_one_eq_mod,
    Nat.mod_eq_of_lt hsize]

theorem toNat_sapWord (h : reference.FitsWidths) :
    reference.sapWord.toNat = 2 ^ 31 * reference.startsWithSap.toNat +
      (2 ^ 28 * reference.sapType.toNat + reference.sapDelta.toNat) := by
  have htype := h.sapType
  have hdelta := h.sapDelta
  have hlow : 2 ^ 28 * reference.sapType.toNat + reference.sapDelta.toNat < 2 ^ 31 := by omega
  have hmask : ((reference.sapType.toUInt32 &&& 7) <<< 28).toNat =
      2 ^ 28 * reference.sapType.toNat := by
    rw [UInt32.toNat_shiftLeft, UInt32.toNat_and, UInt8.toNat_toUInt32,
      show (7 : UInt32).toNat = 2 ^ 3 - 1 by rfl, Nat.and_two_pow_sub_one_eq_mod,
      Nat.mod_eq_of_lt htype, show (28 : UInt32).toNat % 32 = 28 by rfl, Nat.shiftLeft_eq,
      Nat.mul_comm]
    omega
  rw [Nat.two_pow_add_eq_or_of_lt hlow, Nat.two_pow_add_eq_or_of_lt hdelta, ← Nat.or_assoc,
    sapWord, UInt32.toNat_or, UInt32.toNat_or, toNat_topBit, hmask, UInt32.toNat_and,
    show (0x0FFFFFFF : UInt32).toNat = 2 ^ 28 - 1 by rfl, Nat.and_two_pow_sub_one_eq_mod,
    Nat.mod_eq_of_lt hdelta]

theorem shiftRight_top {word : UInt32} {bit : Bool} {low : Nat}
    (h : word.toNat = 2 ^ 31 * bit.toNat + low) (hlow : low < 2 ^ 31) :
    (word >>> 31 != 0) = bit := by
  have hshift : (word >>> 31).toNat = bit.toNat := by
    rw [UInt32.toNat_shiftRight, show (31 : UInt32).toNat % 32 = 31 by rfl,
      Nat.shiftRight_eq_div_pow, h]
    omega
  cases bit with
  | false =>
    have hzero : word >>> 31 = 0 := UInt32.toNat_inj.1 hshift
    simp [hzero]
  | true =>
    have hone : word >>> 31 = 1 := UInt32.toNat_inj.1 hshift
    simp [hone]

theorem ofWords_words (h : reference.FitsWidths) :
    ofWords reference.sizeWord reference.duration reference.sapWord = reference := by
  have hsizeWord := toNat_sizeWord h
  have hsapWord := toNat_sapWord h
  obtain ⟨hsize, htype, hdelta⟩ := h
  have hindex := shiftRight_top hsizeWord hsize
  have hsap := shiftRight_top hsapWord (by omega)
  have hlow : reference.sizeWord &&& 0x7FFFFFFF = reference.size := by
    apply UInt32.toNat_inj.1
    rw [UInt32.toNat_and, hsizeWord, show (0x7FFFFFFF : UInt32).toNat = 2 ^ 31 - 1 by rfl,
      Nat.and_two_pow_sub_one_eq_mod]
    omega
  have hkind : ((reference.sapWord >>> 28) &&& 7).toUInt8 = reference.sapType := by
    apply UInt8.toNat_inj.1
    rw [UInt32.toNat_toUInt8, UInt32.toNat_and, UInt32.toNat_shiftRight, hsapWord,
      show (7 : UInt32).toNat = 2 ^ 3 - 1 by rfl, Nat.and_two_pow_sub_one_eq_mod,
      show (28 : UInt32).toNat % 32 = 28 by rfl, Nat.shiftRight_eq_div_pow]
    omega
  have htime : reference.sapWord &&& 0x0FFFFFFF = reference.sapDelta := by
    apply UInt32.toNat_inj.1
    rw [UInt32.toNat_and, hsapWord, show (0x0FFFFFFF : UInt32).toNat = 2 ^ 28 - 1 by rfl,
      Nat.and_two_pow_sub_one_eq_mod]
    omega
  unfold ofWords
  rw [hindex, hsap, hlow, hkind, htime]

theorem reads (h : reference.FitsWidths) : Reads read reference.bytes reference := by
  have hread : Reads read reference.bytes
      (ofWords reference.sizeWord reference.duration reference.sapWord) := by
    rw [bytes, List.append_assoc]
    exact (Reads.uint32 reference.sizeWord).bind ((Reads.uint32 reference.duration).bind
      ((Reads.uint32 reference.sapWord).bind_pure _))
  rwa [ofWords_words h] at hread

end IndexReference

namespace SegmentIndex

/-- The index can be read back: its entries can be counted in 16 bits, and their fields
fit their widths. -/
structure FitsWidths (box : SegmentIndex) : Prop where
  count : box.references.length ≤ 65535
  references : ∀ reference ∈ box.references, reference.FitsWidths

/-- The index with the version that is written. -/
def asWritten (box : SegmentIndex) : SegmentIndex :=
  { box with version := box.writtenVersion }

theorem version_fits (box : SegmentIndex) :
    (box.writtenVersion = 1 ∨ VersionedTime.isWide box.earliestTime = false) ∧
      (box.writtenVersion = 1 ∨ VersionedTime.isWide box.firstOffset = false) := by
  unfold writtenVersion
  cases VersionedTime.isWide box.earliestTime <;> cases VersionedTime.isWide box.firstOffset <;>
    simp

theorem decodeContents_body {box : SegmentIndex} (h : box.FitsWidths) :
    decodeContents (Box.body box) = .ok box.asWritten := by
  have hbody : Box.body box =
      (VersionFlags.of box.writtenVersion 0).bytes ++ box.contentBytes := rfl
  have hcount : box.references.length < widthLimit 2 := Nat.lt_succ_of_le h.count
  have hversion := version_fits box
  rw [hbody, contentBytes]
  simp only [List.append_assoc]
  apply run_of_readsAll
  exact (Reads.word (.of box.writtenVersion 0)).bind_all
    ((Reads.uint32 box.referenceId).bind_all
      ((Reads.uint32 box.timescale).bind_all
        ((VersionedTime.reads hversion.1).bind_all
          ((VersionedTime.reads hversion.2).bind_all
            ((Reads.number (by decide)).bind_all
              ((Reads.number hcount).bind_all
                (Reads.finish_with _ (Reads.times fun reference hmem =>
                  IndexReference.reads (h.references reference hmem)))))))))

theorem decode_emission {box : SegmentIndex} (h : Box.Writable box) (hfits : box.FitsWidths)
    (rest : Bytes) :
    decode ((Box.emission box).bytes ++ rest) = .ok (box.asWritten, Box.size box) :=
  Box.decodeAs_emission h rfl (decodeContents_body hfits) rest

end SegmentIndex

namespace MovieFragmentHeader

theorem decodeContents_body (box : MovieFragmentHeader) :
    decodeContents (Box.body box) = .ok box := by
  have hbody : Box.body box =
      (VersionFlags.of 0 0).bytes ++ bigEndian 4 box.sequenceNumber.toNat := rfl
  rw [hbody]
  apply run_of_readsAll
  exact (Reads.word (.of 0 0)).bind_all
    (Reads.finish_with MovieFragmentHeader.mk (Reads.uint32 box.sequenceNumber))

theorem decode_emission {box : MovieFragmentHeader} (h : Box.Writable box) (rest : Bytes) :
    decode ((Box.emission box).bytes ++ rest) = .ok (box, Box.size box) :=
  Box.decodeAs_emission h rfl box.decodeContents_body rest

end MovieFragmentHeader

namespace MediaData

theorem decodeContents_body (box : MediaData) : decodeContents (Box.body box) = .ok box := rfl

theorem decode_emission {box : MediaData} (h : Box.Writable box) (rest : Bytes) :
    decode ((Box.emission box).bytes ++ rest) = .ok (box, Box.size box) :=
  Box.decodeAs_emission h rfl box.decodeContents_body rest

end MediaData

namespace TrackDecodeTime

def asWritten (box : TrackDecodeTime) : TrackDecodeTime :=
  { box with version := box.writtenVersion }

@[simp] theorem writtenVersion_asWritten (box : TrackDecodeTime) :
    box.asWritten.writtenVersion = box.writtenVersion := by
  unfold asWritten writtenVersion
  split_ifs <;> rfl

@[simp] theorem size_asWritten (box : TrackDecodeTime) :
    Box.size box.asWritten = Box.size box := by
  simp only [Box.size, IsBox.word, IsBox.contentSize, writtenVersion_asWritten]

theorem decodeContents_body (box : TrackDecodeTime) :
    decodeContents (Box.body box) = .ok box.asWritten := by
  have hbody : Box.body box = (VersionFlags.of box.writtenVersion 0).bytes ++
      bigEndian (VersionedTime.width box.writtenVersion) box.time.toNat := rfl
  have hversion : box.writtenVersion = 1 ∨ VersionedTime.isWide box.time = false := by
    unfold writtenVersion
    cases VersionedTime.isWide box.time <;> simp
  rw [hbody]
  apply run_of_readsAll
  exact (Reads.word (.of box.writtenVersion 0)).bind_all
    (Reads.finish_with _ (VersionedTime.reads hversion))

theorem decode_emission {box : TrackDecodeTime} (h : Box.Writable box) (rest : Bytes) :
    decode ((Box.emission box).bytes ++ rest) = .ok (box.asWritten, Box.size box) :=
  Box.decodeAs_emission h rfl box.decodeContents_body rest

end TrackDecodeTime

namespace TrackFragmentHeader

/-- Every flag of the header says whether its field is there. -/
theorem flags_tell (box : TrackFragmentHeader) :
    let word := VersionFlags.of 0 box.flagBits
    word.has baseDataOffsetFlag = box.baseDataOffset.isSome ∧
      word.has descriptionIndexFlag = box.descriptionIndex.isSome ∧
      word.has durationFlag = box.duration.isSome ∧
      word.has sizeFlag = box.size.isSome ∧
      word.has flagsFlag = box.flags.isSome ∧
      word.has durationIsEmptyFlag = box.durationIsEmpty ∧
      word.has baseIsMoofFlag = box.baseIsMoof := by
  simp only [VersionFlags.has_of, flagBits]
  generalize box.baseDataOffset.isSome = a
  generalize box.descriptionIndex.isSome = b
  generalize box.duration.isSome = c
  generalize box.size.isSome = d
  generalize box.flags.isSome = e
  generalize box.durationIsEmpty = f
  generalize box.baseIsMoof = g
  revert a b c d e f g
  decide

theorem decodeContents_body (box : TrackFragmentHeader) :
    decodeContents (Box.body box) = .ok box := by
  have hbody : Box.body box = (VersionFlags.of 0 box.flagBits).bytes ++ box.contentBytes := rfl
  obtain ⟨hbase, hindex, hduration, hsize, hflags, hempty, hmoof⟩ := flags_tell box
  have hread : ReadsAll read (Box.body box) { box with
      durationIsEmpty := (VersionFlags.of 0 box.flagBits).has durationIsEmptyFlag
      baseIsMoof := (VersionFlags.of 0 box.flagBits).has baseIsMoofFlag } := by
    rw [hbody, contentBytes]
    simp only [List.append_assoc]
    exact (Reads.word (.of 0 box.flagBits)).bind_all
      ((Reads.uint32 box.trackId).bind_all
        ((OptionalField.reads_wide hbase).bind_all
          ((OptionalField.reads hindex).bind_all
            ((OptionalField.reads hduration).bind_all
              ((OptionalField.reads hsize).bind_all
                (Reads.finish_with _ (OptionalField.reads hflags)))))))
  rw [hempty, hmoof] at hread
  exact run_of_readsAll hread .tfhd

theorem decode_emission {box : TrackFragmentHeader} (h : Box.Writable box) (rest : Bytes) :
    decode ((Box.emission box).bytes ++ rest) = .ok (box, Box.size box) :=
  Box.decodeAs_emission h rfl box.decodeContents_body rest

end TrackFragmentHeader
end FragmentedMp4
