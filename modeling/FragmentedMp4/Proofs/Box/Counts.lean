import FragmentedMp4.Proofs.Box.Accepted
import FragmentedMp4.Proofs.Box.Writing

/-!
# Items that are too many to be counted

An index counts its entries in 16 bits and writes all of them, however many there are. A run counts
its samples in 32 bits, and a reader takes only so many that carry no fields. So not all that is
written is read back. Of each index and each run it is said here which of two things becomes of it:
it comes back as it was written, or it is refused for the number of its items.
-/
namespace FragmentedMp4

theorem bigEndian_mod (width value : Nat) :
    bigEndian width (value % widthLimit width) = bigEndian width value := by
  have hadd := bigEndian_add_mul width (value % widthLimit width) (value / widthLimit width)
  rw [Nat.mul_comm, Nat.mod_add_div] at hadd
  exact hadd.symm

namespace Reader

variable {α β : Type}

/-- The reader refuses contents that are exactly these bytes. -/
def Refuses (read : Reader α) (bytes : Bytes) (error : FourCC → Error) : Prop :=
  ∀ box position, read ⟨box, position, bytes⟩ = .error (error box)

variable {error : FourCC → Error} {front rest : Bytes}

theorem Reads.bind_refuses {read : Reader α} {next : α → Reader β} {value : α}
    (hread : Reads read front value) (hnext : Refuses (next value) rest error) :
    Refuses (read >>= next) (front ++ rest) error := by
  intro box position
  rw [bind_of_ok (hread box position rest), hnext]

theorem Reads.finish_refuses {read : Reader α} {value : α} (f : α → β)
    (h : Reads read front value) (hrest : rest ≠ []) :
    Refuses (read >>= fun x => Reader.finish >>= fun _ => Pure.pure (f x)) (front ++ rest)
      fun box => .invalidBox box (.trailingBytes rest.length) := by
  intro box position
  have hleft : ¬ rest.isEmpty = true := by simpa using hrest
  rw [bind_of_ok (h box position rest), bind_apply, finish, if_neg hleft]

theorem run_of_refuses {read : Reader α} (h : Refuses read front error) (box : FourCC) :
    run box read front = .error (error box) := by
  unfold run
  rw [h box 0]

end Reader

namespace Box

variable {α : Type} [IsBox α] {box : α}

theorem of_writeStream {stream : BoundedStream}
    (h : writeStream box (.empty none) = .ok () stream) :
    Writable box ∧ stream.bytes = (emission box).bytes := by
  cases hcase : failure? box with
  | some failure =>
    rw [writeStream_of_failure hcase] at h
    cases h
  | none =>
    have hwritable := failure?_eq_none.1 hcase
    have hwritten := writeStream_of_writable hwritable []
    rw [show writeStream box ⟨none, []⟩ = .ok () stream from h] at hwritten
    cases hwritten
    exact ⟨hwritable, rfl⟩

/-- A written box whose body is refused is refused, and the error says which box it is. -/
theorem decodeAs_of_refused [ExactBox α] {β : Type} {decodeContents : Bytes → Except Error β}
    {error : Error} {name : FourCC} (h : Writable box) (hname : IsBox.name box = name)
    (hbody : decodeContents (body box) = .error error) (rest : Bytes) :
    decodeAs name decodeContents ((emission box).bytes ++ rest) = .error (.inBox name error) := by
  have hwritten : (writtenHeader box).name = name := hname
  unfold decodeAs
  simp only [parse_emission h, bind, Except.bind, hwritten, ne_eq, not_true_eq_false, if_false,
    contents_emission h, hbody, mapError_error]

end Box

namespace IndexReference

theorem length_flatMap_bytes (references : List IndexReference) :
    (references.flatMap bytes).length = 12 * references.length := by
  simp only [List.length_flatMap, length_bytes, List.map_const', List.sum_replicate, smul_eq_mul,
    Nat.mul_comm]

end IndexReference

namespace SegmentIndex

open Reader

variable {box : SegmentIndex}

theorem writable_of_length (hlength : box.references.length < 2 ^ 32) : Box.Writable box := by
  refine ⟨?_, rfl⟩
  have hword : Box.wordSize (IsBox.word box) = 4 := rfl
  have hcontents : IsBox.contentSize box =
      12 + 2 * VersionedTime.width box.writtenVersion + 12 * box.references.length := rfl
  have hwidth : VersionedTime.width box.writtenVersion ≤ 8 := by
    unfold VersionedTime.width
    split_ifs <;> omega
  unfold Box.size Box.sizeOfBody Box.headerSize Box.largeHeaderSize Box.maxShortSize
  rw [hword, hcontents, UInt64.size]
  split_ifs <;> omega

/-- The number that is stored is smaller than that of the entries by a multiple of `2 ^ 16`. As many
entries are read, and the others are left. -/
theorem decodeContents_of_many (hfits : ∀ reference ∈ box.references, reference.FitsWidths)
    (hmany : 65535 < box.references.length) :
    decodeContents (Box.body box) = .error (.invalidBox .sidx
      (.trailingBytes (12 * (box.references.length - box.references.length % 65536)))) := by
  set counted := box.references.length % 65536
  have hsmall : counted < widthLimit 2 := Nat.mod_lt _ (by decide)
  have hcount : bigEndian 2 box.references.length = bigEndian 2 counted :=
    (bigEndian_mod 2 box.references.length).symm
  have hentries : box.references.flatMap IndexReference.bytes =
      (box.references.take counted).flatMap IndexReference.bytes ++
        (box.references.drop counted).flatMap IndexReference.bytes := by
    rw [← List.flatMap_append, List.take_append_drop]
  have hentriesRead : Reads (Reader.times counted IndexReference.read)
      ((box.references.take counted).flatMap IndexReference.bytes)
      (box.references.take counted) := by
    have htimes := Reads.times fun reference (hmem : reference ∈ box.references.take counted) =>
      IndexReference.reads (hfits reference (List.mem_of_mem_take hmem))
    rwa [List.length_take_of_le (by omega)] at htimes
  have hleft : ((box.references.drop counted).flatMap IndexReference.bytes).length =
      12 * (box.references.length - counted) := by
    rw [IndexReference.length_flatMap_bytes, List.length_drop]
  have hne : (box.references.drop counted).flatMap IndexReference.bytes ≠ [] := by
    apply List.ne_nil_of_length_pos
    omega
  have hbody : Box.body box =
      (VersionFlags.of box.writtenVersion 0).bytes ++ box.contentBytes := rfl
  have hversion := version_fits box
  have hrefused : Refuses read (Box.body box) fun name => .invalidBox name
      (.trailingBytes (12 * (box.references.length - counted))) := by
    rw [hbody, contentBytes, hcount, hentries, ← hleft]
    simp only [List.append_assoc]
    exact (Reads.word (.of box.writtenVersion 0)).bind_refuses
      ((Reads.uint32 box.referenceId).bind_refuses
        ((Reads.uint32 box.timescale).bind_refuses
          ((VersionedTime.reads hversion.1).bind_refuses
            ((VersionedTime.reads hversion.2).bind_refuses
              ((Reads.number (by decide)).bind_refuses
                ((Reads.number hsmall).bind_refuses
                  (hentriesRead.finish_refuses _ hne)))))))
  exact run_of_refuses hrefused .sidx

/-- An index that could be written is read back, whatever follows it, with the version that it was
written in, if its entries can be counted in 16 bits. If they cannot, all of them have been written,
and a reader is left with those that it does not know of. -/
theorem decode_written_index (hfits : ∀ reference ∈ box.references, reference.FitsWidths)
    {stream : BoundedStream} (h : Box.writeStream box (.empty none) = .ok () stream)
    (rest : Bytes) :
    (box.references.length ≤ 65535 →
      decode (stream.bytes ++ rest) = .ok (box.asWritten, stream.bytes.length)) ∧
    (65535 < box.references.length →
      decode (stream.bytes ++ rest) = .error (.inBox .sidx (.invalidBox .sidx
        (.trailingBytes (12 * (box.references.length - box.references.length % 65536)))))) := by
  obtain ⟨hwritable, hbytes⟩ := Box.of_writeStream h
  rw [hbytes, Box.length_emission hwritable]
  constructor
  · exact fun hcount => decode_emission hwritable ⟨hcount, hfits⟩ rest
  · exact fun hmany => Box.decodeAs_of_refused hwritable rfl
      (decodeContents_of_many hfits hmany) rest

/-- An index of two entries whose time takes the wide form, although version 0 was asked for. -/
theorem decode_written_index_wide :
    let box : SegmentIndex := ⟨0, 1, 90000, 0x100000000, 7,
      [⟨true, 0x7FFFFFFF, 9, true, 7, 0xFFFFFFF⟩, ⟨false, 0, 1, false, 0, 1⟩]⟩
    ∃ stream, Box.writeStream box (.empty none) = .ok () stream ∧
      (∀ reference ∈ box.references, reference.FitsWidths) ∧
      decode (stream.bytes ++ [1, 2]) = .ok ({ box with version := 1 }, 64) := by
  intro box
  have h := Box.writeStream_of_writable (writable_of_length (show box.references.length < _ by
    decide)) []
  have hfits : ∀ reference ∈ box.references, reference.FitsWidths := by
    intro reference hmem
    rcases List.mem_cons.1 hmem with rfl | hmem
    · exact ⟨by decide, by decide, by decide⟩
    · rw [List.mem_singleton.1 hmem]
      exact ⟨by decide, by decide, by decide⟩
  have hlength : ([] ++ (Box.emission box).bytes).length = 64 := by decide +kernel
  have hread := (decode_written_index hfits h [1, 2]).1 (by decide)
  rw [hlength] at hread
  exact ⟨_, h, hfits, hread⟩

/-- One entry more than can be counted: the index says that it has none, and a reader is left with
all of them. -/
theorem many_references_refused :
    let box : SegmentIndex :=
      ⟨0, 1, 1000, 0, 0, List.replicate 65536 ⟨false, 0, 0, false, 0, 0⟩⟩
    (∀ reference ∈ box.references, reference.FitsWidths) ∧
      ∃ stream, Box.writeStream box (.empty none) = .ok () stream ∧
        decode stream.bytes =
          .error (.inBox .sidx (.invalidBox .sidx (.trailingBytes 786432))) := by
  intro box
  have hfits : ∀ reference ∈ box.references, reference.FitsWidths := by
    intro reference hmem
    rw [List.eq_of_mem_replicate hmem]
    exact ⟨by decide, by decide, by decide⟩
  have hlength : box.references.length = 65536 := List.length_replicate
  -- what follows needs no more of the entries than their number
  clear_value box
  have hwritable : Box.Writable box := writable_of_length (by omega)
  have hrefused := Box.decodeAs_of_refused hwritable rfl
    (decodeContents_of_many hfits (by omega)) []
  rw [hlength, List.append_nil] at hrefused
  refine ⟨hfits, _, Box.writeStream_of_writable hwritable [], ?_⟩
  rw [List.nil_append]
  exact hrefused

end SegmentIndex

namespace TrackRun

open Reader

variable {run : TrackRun}

/-- More samples without fields than a reader takes are refused before any of them is read. -/
theorem decodeContents_of_fieldless (hcomplete : (IsBox.contents run).error = none)
    (hmany : ¬ run.Countable) :
    decodeContents (Box.body run) =
      .error (.invalidBox .trun (.samplesWithoutFields run.samples.length)) := by
  obtain ⟨hlength, -, hbytes⟩ := contents_of_complete hcomplete
  obtain ⟨hoffset, hfirst, hword⟩ := flags_tell run
  have hbody : Box.body run = (VersionFlags.of run.version run.flagBits).bytes ++
      (run.headBytes ++ run.samples.flatMap RunSample.bytes) := by
    rw [← hbytes]
    rfl
  obtain ⟨hnone, hmore⟩ := Classical.not_imp.1 hmany
  have hsamples : Refuses (readSamples (.ofWord (.of run.version run.flagBits)) run.samples.length
      >>= fun samples => pure (⟨run.dataOffset, run.firstSampleFlags, samples⟩ : TrackRun))
      (run.samples.flatMap RunSample.bytes)
      fun _ => .invalidBox .trun (.samplesWithoutFields run.samples.length) := by
    intro box position
    rw [hword, bind_apply, readSamples, bind_apply, Reader.remaining]
    simp only
    rw [if_pos ⟨sampleSize_eq_zero.2 hnone, Nat.lt_of_not_le hmore⟩]
    rfl
  have hrefused : Refuses read (Box.body run)
      fun _ => .invalidBox .trun (.samplesWithoutFields run.samples.length) := by
    rw [hbody, headBytes]
    simp only [List.append_assoc]
    exact (Reads.word (.of run.version run.flagBits)).bind_refuses
      ((Reads.number hlength).bind_refuses
        ((OptionalField.reads_signed hoffset).bind_refuses
          ((OptionalField.reads hfirst).bind_refuses hsamples)))
  exact run_of_refuses hrefused .trun

/-- A run that could be written is read back as it is, whatever follows it. The exception are
samples that carry no fields at all: they take no room, and a reader takes only so many of them. -/
theorem decode_written_run {stream : BoundedStream}
    (h : Box.writeStream run (.empty none) = .ok () stream) (rest : Bytes) :
    (run.Countable → decode (stream.bytes ++ rest) = .ok (run, stream.bytes.length)) ∧
    (¬ run.Countable → decode (stream.bytes ++ rest) =
      .error (.inBox .trun (.invalidBox .trun (.samplesWithoutFields run.samples.length)))) := by
  obtain ⟨hwritable, hbytes⟩ := Box.of_writeStream h
  rw [hbytes, Box.length_emission hwritable]
  constructor
  · exact fun hcount => decode_emission hwritable hcount rest
  · exact fun hmany => Box.decodeAs_of_refused hwritable rfl
      (decodeContents_of_fieldless hwritable.complete hmany) rest

/-- Two samples with sizes and composition offsets, one of them before its decode time. -/
theorem decode_written_run_signed :
    let run : TrackRun := ⟨some (-8), some 0x02000000,
      [⟨none, some 3, none, some (-512)⟩, ⟨none, some 0, none, some 512⟩]⟩
    ∃ stream, Box.writeStream run (.empty none) = .ok () stream ∧
      decode (stream.bytes ++ [9]) = .ok (run, 40) := by
  intro run
  have hwritable : Box.Writable run := ⟨by decide +kernel, by decide +kernel⟩
  have h := Box.writeStream_of_writable hwritable []
  have hcount : run.Countable := fun _ => by decide
  have hlength : ([] ++ (Box.emission run).bytes).length = 40 := by decide +kernel
  have hread := (decode_written_run h [9]).1 hcount
  rw [hlength] at hread
  exact ⟨_, h, hread⟩

/-- Samples without fields leave nothing but their number, however many they are. -/
theorem emission_of_fieldless {count : Nat} (hcount : count < 2 ^ 32) :
    let run : TrackRun := ⟨none, none, List.replicate count ⟨none, none, none, none⟩⟩
    Box.Writable run ∧ (Box.emission run).bytes =
      bigEndian 4 16 ++ FourCC.trun.bytes ++ bigEndian 4 0 ++ bigEndian 4 count := by
  intro run
  have hfields : run.fields = .none := by
    cases count <;> rfl
  have hversion : run.version = 0 := by
    unfold version
    rw [List.any_replicate]
    cases count <;> rfl
  have hcomplete : (IsBox.contents run).error = none := by
    refine complete_of_fields (by rwa [List.length_replicate]) fun sample hmem => ?_
    rw [List.eq_of_mem_replicate hmem, hfields]
    rfl
  have hbytes : run.samples.flatMap RunSample.bytes = [] := by
    rw [List.flatMap_replicate]
    exact List.flatten_replicate_nil
  have hsize : Box.size run = 16 := by
    have hcontents : IsBox.contentSize run = 4 := by
      change 4 + 0 + 0 + run.fields.sampleSize * run.samples.length = 4
      rw [hfields]
      change 4 + 0 * run.samples.length = 4
      omega
    unfold Box.size
    rw [hcontents]
    rfl
  have hwritable : Box.Writable run := ⟨by rw [hsize]; decide, hcomplete⟩
  refine ⟨hwritable, ?_⟩
  have hbody : Box.body run = (VersionFlags.of run.version run.flagBits).bytes ++
      (IsBox.contents run).bytes := rfl
  have hflags : run.flagBits = 0 := by
    unfold flagBits
    rw [hfields]
    change flagIf false _ ||| flagIf false _ ||| SampleFields.none.flagBits = 0
    decide
  rw [Box.emission_bytes_eq, hbody, (contents_of_complete hcomplete).2.2, hbytes, hsize, hversion,
    hflags, headBytes, List.length_replicate, List.append_nil]
  rfl

/-- Sixteen bytes announce one sample without fields more than a reader takes. -/
theorem fieldless_samples_refused :
    let run : TrackRun := ⟨none, none, List.replicate 0x100001 ⟨none, none, none, none⟩⟩
    ∃ stream, Box.writeStream run (.empty none) = .ok () stream ∧
      stream.bytes = [0, 0, 0, 16, 0x74, 0x72, 0x75, 0x6E, 0, 0, 0, 0, 0, 0x10, 0, 1] ∧
      decode stream.bytes =
        .error (.inBox .trun (.invalidBox .trun (.samplesWithoutFields 0x100001))) := by
  intro run
  obtain ⟨hwritable, hbytes⟩ := emission_of_fieldless (show 0x100001 < 2 ^ 32 by decide)
  refine ⟨_, Box.writeStream_of_writable hwritable [], ?_, ?_⟩
  · rw [List.nil_append, hbytes]
    decide
  · rw [List.nil_append, hbytes]
    decide +kernel

end TrackRun
end FragmentedMp4
