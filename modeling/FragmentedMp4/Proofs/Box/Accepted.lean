import FragmentedMp4.Proofs.Box.Room
import FragmentedMp4.Proofs.Box.Run
import FragmentedMp4.Proofs.Box.Taken

/-!
# Boxes that were accepted

A box that was read from some bytes can be written again, into the room that there was for it. It
may take eight bytes more than it did if it extended to the end of the bytes and is too large for
a 32-bit size.
-/
namespace FragmentedMp4

namespace Box

theorem decodeAs_eq_ok {α : Type} {name : FourCC} {decodeContents : Bytes → Except Error α}
    {data : Bytes} {value : α} {used : Nat}
    (h : decodeAs name decodeContents data = .ok (value, used)) :
    ∃ header, BoxHeader.parse data = .ok header ∧ header.name = name ∧ header.size = used ∧
      decodeContents (header.contents data) = .ok value := by
  unfold decodeAs at h
  obtain ⟨header, hparse, h⟩ := bind_eq_ok.1 h
  split_ifs at h with hname
  obtain ⟨decoded, hdecoded, h⟩ := bind_eq_ok.1 h
  cases h
  exact ⟨header, hparse, not_not.1 hname, rfl, mapError_eq_ok.1 hdecoded⟩

theorem decodeContents_of_decodeAs {α : Type} {name : FourCC}
    {decodeContents : Bytes → Except Error α} {data : Bytes} {header : BoxHeader} {value : α}
    {used : Nat} (hparse : BoxHeader.parse data = .ok header)
    (h : decodeAs name decodeContents data = .ok (value, used)) :
    header.size = used ∧ decodeContents (header.contents data) = .ok value := by
  obtain ⟨found, hfound, -, hused, hcontents⟩ := decodeAs_eq_ok h
  rw [hparse] at hfound
  cases hfound
  exact ⟨hused, hcontents⟩

theorem length_contents {data : Bytes} {header : BoxHeader}
    (h : BoxHeader.parse data = .ok header) : 8 + (header.contents data).length ≤ header.size := by
  have hlength := headerSize_add_length h
  have hmin := (BoxHeader.parse_bounds h).1
  omega

/-- A measure of bytes that adds up over the boxes that they consist of. -/
structure AddsUp (measure : Bytes → Nat) : Prop where
  nil : measure [] = 0
  cut : ∀ {data header}, BoxHeader.parse data = .ok header →
    measure data = measure (data.take header.size) + measure (data.drop header.size)

theorem addsUp_length : AddsUp List.length where
  nil := rfl
  cut {data header} _ := by rw [← List.length_append, List.take_append_drop]

theorem addsUp_room (containers : List FourCC) : AddsUp (room containers) where
  nil := room_nil containers
  cut := room_cut

/-- What every step of a walk keeps holds at its end, when all bytes have been gone over. -/
theorem walk_induction {σ : Type} {step : σ → BoxHeader → Bytes → Except Error σ}
    {measure : Bytes → Nat} (hmeasure : AddsUp measure) {holds : σ → Nat → Prop}
    (hstep : ∀ {state header child next count}, step state header child = .ok next →
      holds state count → holds next (count + measure child))
    {data : Bytes} {state final : σ} {count : Nat} (h : walk step state data = .ok final)
    (hstart : holds state count) : holds final (count + measure data) := by
  fun_induction walk step state data generalizing count with
  | case1 state data hempty =>
    cases h
    rw [List.isEmpty_iff.1 hempty, hmeasure.nil]
    exact hstart
  | case2 state data hne error hparse => cases h
  | case3 state data hne header hparse error hfailed => cases h
  | case4 state data hne header hparse next hnext ih =>
    have hend := ih h (hstep hnext hstart)
    rwa [Nat.add_assoc, ← hmeasure.cut hparse] at hend

/-- The body of the box is no larger than the contents that it was read from. -/
def FitsIn {α : Type} [IsBox α] (box : α) (contents : Bytes) : Prop :=
  wordSize (IsBox.word box) + IsBox.contentSize box ≤ contents.length

namespace FitsIn

variable {α : Type} [IsBox α] {box : α} {data : Bytes} {header : BoxHeader}

theorem add_room_le (h : FitsIn box (header.contents data))
    (hparse : BoxHeader.parse data = .ok header) (containers : List FourCC) :
    size box + room containers (data.drop header.size) ≤ room containers data :=
  sizeOfBody_add_room_le hparse (Nat.le_add_right_of_le h)

theorem size_le_room (h : FitsIn box (header.contents data))
    (hparse : BoxHeader.parse data = .ok header) (containers : List FourCC) :
    size box ≤ room containers data :=
  Nat.le_of_add_right_le (h.add_room_le hparse containers)

end FitsIn
end Box

open Reader

namespace SegmentType

theorem accepted {contents : Bytes} {box : SegmentType} (h : decodeContents contents = .ok box) :
    Box.FitsIn box contents := by
  obtain ⟨after, h⟩ := run_eq_ok h
  obtain ⟨majorBrand, c1, h1, h⟩ := Reader.bind_eq_ok.1 h
  obtain ⟨minorVersion, c2, h2, h⟩ := Reader.bind_eq_ok.1 h
  obtain ⟨left, c3, h3, h⟩ := Reader.bind_eq_ok.1 h
  cases h3
  split_ifs at h with hwhole
  · cases h
  · obtain ⟨brands, c4, h4, h⟩ := Reader.bind_eq_ok.1 h
    cases h
    have t1 := (Takes.fourCC.of_ok h1).2
    have t2 := (Takes.uint32.of_ok h2).2
    obtain ⟨⟨hcount, -⟩, t4⟩ := (Takes.fourCC.times _).of_ok h4
    change 0 + (8 + 4 * brands.length) ≤ contents.length
    simp only at t1
    omega

end SegmentType

namespace IndexReference

theorem fitsWidths_ofWords (sizeWord duration sapWord : UInt32) :
    (ofWords sizeWord duration sapWord).FitsWidths := by
  refine ⟨?_, ?_, ?_⟩
  · have hle : (sizeWord &&& 0x7FFFFFFF).toNat ≤ 0x7FFFFFFF := by
      rw [UInt32.toNat_and]
      exact Nat.and_le_right
    exact Nat.lt_succ_of_le hle
  · have hle : ((sapWord >>> 28) &&& 7).toNat ≤ 7 := by
      rw [UInt32.toNat_and]
      exact Nat.and_le_right
    change ((sapWord >>> 28) &&& 7).toUInt8.toNat < 2 ^ 3
    rw [UInt32.toNat_toUInt8]
    omega
  · have hle : (sapWord &&& 0x0FFFFFFF).toNat ≤ 0x0FFFFFFF := by
      rw [UInt32.toNat_and]
      exact Nat.and_le_right
    exact Nat.lt_succ_of_le hle

theorem takes : Takes read 12 FitsWidths := by
  constructor
  intro cursor next reference h
  obtain ⟨sizeWord, c1, h1, h⟩ := Reader.bind_eq_ok.1 h
  obtain ⟨duration, c2, h2, h⟩ := Reader.bind_eq_ok.1 h
  obtain ⟨sapWord, c3, h3, h⟩ := Reader.bind_eq_ok.1 h
  cases h
  have t1 := (Takes.uint32.of_ok h1).2
  have t2 := (Takes.uint32.of_ok h2).2
  have t3 := (Takes.uint32.of_ok h3).2
  exact ⟨fitsWidths_ofWords sizeWord duration sapWord, by omega⟩

end IndexReference

namespace SegmentIndex

/-- The index comes back as it is. -/
structure Steady (box : SegmentIndex) : Prop where
  fitsWidths : box.FitsWidths
  asWritten_eq : box.asWritten = box

theorem accepted {contents : Bytes} {box : SegmentIndex} (h : decodeContents contents = .ok box) :
    Box.FitsIn box contents ∧ box.Steady := by
  obtain ⟨after, h⟩ := run_eq_ok h
  obtain ⟨word, c1, h1, h⟩ := Reader.bind_eq_ok.1 h
  obtain ⟨referenceId, c2, h2, h⟩ := Reader.bind_eq_ok.1 h
  obtain ⟨timescale, c3, h3, h⟩ := Reader.bind_eq_ok.1 h
  obtain ⟨earliestTime, c4, h4, h⟩ := Reader.bind_eq_ok.1 h
  obtain ⟨firstOffset, c5, h5, h⟩ := Reader.bind_eq_ok.1 h
  obtain ⟨reserved, c6, h6, h⟩ := Reader.bind_eq_ok.1 h
  obtain ⟨count, c7, h7, h⟩ := Reader.bind_eq_ok.1 h
  obtain ⟨references, c8, h8, h⟩ := Reader.bind_eq_ok.1 h
  obtain ⟨-, c9, -, h⟩ := Reader.bind_eq_ok.1 h
  cases h
  have t1 := (Takes.word.of_ok h1).2
  have t2 := (Takes.uint32.of_ok h2).2
  have t3 := (Takes.uint32.of_ok h3).2
  obtain ⟨hearliest, t4⟩ := (VersionedTime.takes word.version).of_ok h4
  obtain ⟨hoffset, t5⟩ := (VersionedTime.takes word.version).of_ok h5
  have t6 := ((Takes.number 2).of_ok h6).2
  obtain ⟨hcount, t7⟩ := (Takes.number 2).of_ok h7
  obtain ⟨⟨hlength, hfits⟩, t8⟩ := (IndexReference.takes.times count).of_ok h8
  have hversion : writtenVersion ⟨word.version, referenceId, timescale, earliestTime, firstOffset,
      references⟩ = word.version := by
    unfold writtenVersion
    rcases hearliest with hone | hearliest
    · rw [hone, ite_self]
    · rcases hoffset with hone | hoffset
      · rw [hone, ite_self]
      · simp [hearliest, hoffset]
  refine ⟨?_, ⟨?_, hfits⟩, ?_⟩
  · change 4 + (12 + 2 * VersionedTime.width (writtenVersion _) + 12 * references.length) ≤
      contents.length
    rw [hversion]
    simp only at t1
    omega
  · rw [hlength]
    exact Nat.le_of_lt_succ hcount
  · unfold asWritten
    rw [hversion]

end SegmentIndex

namespace MovieFragmentHeader

theorem accepted {contents : Bytes} {box : MovieFragmentHeader}
    (h : decodeContents contents = .ok box) : Box.FitsIn box contents := by
  obtain ⟨after, h⟩ := run_eq_ok h
  obtain ⟨word, c1, h1, h⟩ := Reader.bind_eq_ok.1 h
  obtain ⟨sequenceNumber, c2, h2, h⟩ := Reader.bind_eq_ok.1 h
  have t1 := (Takes.word.of_ok h1).2
  have t2 := (Takes.uint32.of_ok h2).2
  change 4 + 4 ≤ contents.length
  simp only at t1
  omega

end MovieFragmentHeader

namespace MediaData

theorem accepted {contents : Bytes} {box : MediaData} (h : decodeContents contents = .ok box) :
    Box.FitsIn box contents := by
  cases h
  change 0 + contents.length ≤ contents.length
  omega

end MediaData

namespace TrackDecodeTime

theorem accepted {contents : Bytes} {box : TrackDecodeTime}
    (h : decodeContents contents = .ok box) : Box.FitsIn box contents ∧ box.asWritten = box := by
  obtain ⟨after, h⟩ := run_eq_ok h
  obtain ⟨word, c1, h1, h⟩ := Reader.bind_eq_ok.1 h
  obtain ⟨time, c2, h2, h⟩ := Reader.bind_eq_ok.1 h
  obtain ⟨-, c3, -, h⟩ := Reader.bind_eq_ok.1 h
  cases h
  have t1 := (Takes.word.of_ok h1).2
  obtain ⟨htime, t2⟩ := (VersionedTime.takes word.version).of_ok h2
  have hversion : writtenVersion ⟨word.version, time⟩ = word.version := by
    unfold writtenVersion
    rcases htime with hone | hnarrow
    · rw [hone, ite_self]
    · simp [hnarrow]
  refine ⟨?_, ?_⟩
  · change 4 + VersionedTime.width (writtenVersion _) ≤ contents.length
    rw [hversion]
    simp only at t1
    omega
  · unfold asWritten
    rw [hversion]

end TrackDecodeTime

namespace TrackFragmentHeader

theorem accepted {contents : Bytes} {box : TrackFragmentHeader}
    (h : decodeContents contents = .ok box) : Box.FitsIn box contents := by
  obtain ⟨after, h⟩ := run_eq_ok h
  obtain ⟨word, c1, h1, h⟩ := Reader.bind_eq_ok.1 h
  obtain ⟨trackId, c2, h2, h⟩ := Reader.bind_eq_ok.1 h
  obtain ⟨baseDataOffset, c3, h3, h⟩ := Reader.bind_eq_ok.1 h
  obtain ⟨descriptionIndex, c4, h4, h⟩ := Reader.bind_eq_ok.1 h
  obtain ⟨duration, c5, h5, h⟩ := Reader.bind_eq_ok.1 h
  obtain ⟨size, c6, h6, h⟩ := Reader.bind_eq_ok.1 h
  obtain ⟨flags, c7, h7, h⟩ := Reader.bind_eq_ok.1 h
  obtain ⟨-, c8, -, h⟩ := Reader.bind_eq_ok.1 h
  cases h
  have t1 := (Takes.word.of_ok h1).2
  have t2 := (Takes.uint32.of_ok h2).2
  have t3 := (optional_eq_ok Takes.uint64 h3).2
  have t4 := (optional_eq_ok Takes.uint32 h4).2
  have t5 := (optional_eq_ok Takes.uint32 h5).2
  have t6 := (optional_eq_ok Takes.uint32 h6).2
  have t7 := (optional_eq_ok Takes.uint32 h7).2
  change 4 + (4 + OptionalField.size baseDataOffset 8 + OptionalField.size descriptionIndex 4 +
    OptionalField.size duration 4 + OptionalField.size size 4 + OptionalField.size flags 4) ≤
      contents.length
  simp only at t1
  omega

end TrackFragmentHeader

theorem OptionalField.size_eq {α : Type} (field : Option α) (width : Nat) :
    size field width = width * field.isSome.toNat := by
  cases field <;> simp [size]

theorem RunSample.takes (fields : SampleFields) :
    Takes (read fields) fields.sampleSize fun sample => sample.fields = fields := by
  constructor
  intro cursor next sample h
  obtain ⟨duration, c1, h1, h⟩ := Reader.bind_eq_ok.1 h
  obtain ⟨size, c2, h2, h⟩ := Reader.bind_eq_ok.1 h
  obtain ⟨flags, c3, h3, h⟩ := Reader.bind_eq_ok.1 h
  obtain ⟨compositionOffset, c4, h4, h⟩ := Reader.bind_eq_ok.1 h
  cases h
  obtain ⟨p1, t1⟩ := optional_eq_ok Takes.uint32 h1
  obtain ⟨p2, t2⟩ := optional_eq_ok Takes.uint32 h2
  obtain ⟨p3, t3⟩ := optional_eq_ok Takes.uint32 h3
  obtain ⟨p4, t4⟩ := optional_eq_ok Takes.int32 h4
  have hfields : RunSample.fields ⟨duration, size, flags, compositionOffset⟩ = fields := by
    unfold RunSample.fields
    rw [p1, p2, p3, p4]
  refine ⟨hfields, ?_⟩
  rw [← hfields]
  simp only [RunSample.fields, SampleFields.sampleSize]
  simp only [OptionalField.size_eq] at t1 t2 t3 t4
  omega

namespace TrackRun

theorem fields_of_all {run : TrackRun} {fields : SampleFields}
    (h : ∀ sample ∈ run.samples, sample.fields = fields) :
    run.samples = [] ∨ run.fields = fields := by
  unfold TrackRun.fields
  cases hsamples : run.samples with
  | nil => exact .inl rfl
  | cons sample samples => exact .inr (h sample (by simp [hsamples]))

/-- Only the samples can stop a run from being written. -/
theorem error_contents (run : TrackRun) :
    (IsBox.contents run).error =
      if UInt32.size ≤ run.samples.length then some (.invalidBox .trun .tooManySamples)
      else (Emission.concat (run.samples.mapIdx (sampleEmission run.fields))).error := by
  change run.contentEmission.error = _
  unfold contentEmission
  split_ifs
  · rfl
  · rw [Emission.append_error]
    rfl

theorem complete_of_fields {run : TrackRun} (hcount : run.samples.length < 2 ^ 32)
    (hfields : ∀ sample ∈ run.samples, sample.fields = run.fields) :
    (IsBox.contents run).error = none := by
  have hfew : ¬ UInt32.size ≤ run.samples.length := Nat.not_le_of_lt hcount
  rw [error_contents, if_neg hfew]
  apply Emission.concat_error_eq_none.2
  intro emission hmem
  obtain ⟨i, hi, rfl⟩ := List.mem_mapIdx.1 hmem
  unfold sampleEmission
  rw [if_pos (hfields _ (List.getElem_mem hi))]
  rfl

/-- The run can be written, and comes back as it is. -/
structure Steady (run : TrackRun) : Prop where
  complete : (IsBox.contents run).error = none
  countable : run.Countable

/-- The samples of a run that was read carry the same fields, and are not too many if they
carry none. -/
theorem accepted {contents : Bytes} {run : TrackRun} (h : decodeContents contents = .ok run) :
    Box.FitsIn run contents ∧ run.Steady := by
  obtain ⟨after, h⟩ := run_eq_ok h
  obtain ⟨word, c1, h1, h⟩ := Reader.bind_eq_ok.1 h
  obtain ⟨count, c2, h2, h⟩ := Reader.bind_eq_ok.1 h
  obtain ⟨dataOffset, c3, h3, h⟩ := Reader.bind_eq_ok.1 h
  obtain ⟨firstSampleFlags, c4, h4, h⟩ := Reader.bind_eq_ok.1 h
  obtain ⟨samples, c5, h5, h⟩ := Reader.bind_eq_ok.1 h
  cases h
  obtain ⟨available, c6, havailable, h5⟩ := Reader.bind_eq_ok.1 h5
  cases havailable
  split_ifs at h5 with hmany hfill
  · cases h5
  · cases h5
  have t1 := (Takes.word.of_ok h1).2
  obtain ⟨hcount, t2⟩ := (Takes.number 4).of_ok h2
  have t3 := (optional_eq_ok Takes.int32 h3).2
  have t4 := (optional_eq_ok Takes.uint32 h4).2
  obtain ⟨⟨hlength, hfields⟩, t5⟩ := ((RunSample.takes _).times count).of_ok h5
  let run : TrackRun := ⟨dataOffset, firstSampleFlags, samples⟩
  have hsame : run.samples = [] ∨ run.fields = .ofWord word := fields_of_all hfields
  have hall : ∀ sample ∈ run.samples, sample.fields = run.fields := by
    intro sample hmem
    rcases hsame with hnil | hsame
    · rw [hnil] at hmem
      cases hmem
    · rw [hsame]
      exact hfields sample hmem
  have hbytes : run.fields.sampleSize * samples.length =
      (SampleFields.ofWord word).sampleSize * count := by
    rw [← hlength]
    rcases hsame with hnil | hsame
    · rw [show samples = [] from hnil, List.length_nil, Nat.mul_zero, Nat.mul_zero]
    · rw [hsame]
  rw [← hlength] at hcount
  refine ⟨?_, complete_of_fields hcount hall, ?_⟩
  · change 4 + (4 + OptionalField.size dataOffset 4 + OptionalField.size firstSampleFlags 4 +
      run.fields.sampleSize * samples.length) ≤ contents.length
    simp only at t1
    omega
  · intro hnone
    rcases hsame with hnil | hsame
    · rw [hnil]
      exact Nat.zero_le _
    · by_contra hlt
      rw [hsame] at hnone
      exact hmany ⟨sampleSize_eq_zero.2 hnone, hlength ▸ not_le.1 hlt⟩

end TrackRun
end FragmentedMp4
