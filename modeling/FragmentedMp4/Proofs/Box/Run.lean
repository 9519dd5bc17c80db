import FragmentedMp4.Proofs.Box.RoundTrip

/-!
# Runs are read back

A run can be written exactly when its samples can be counted in 32 bits and all carry
the same fields, and then it is read back as it is. The one limit is on the reader's
side: it accepts only so many samples that carry no fields at all.
-/
namespace FragmentedMp4

open Reader

namespace RunSample

theorem reads (sample : RunSample) : Reads (read sample.fields) sample.bytes sample := by
  have h : Reads (read sample.fields) sample.bytes
      ⟨sample.duration, sample.size, sample.flags, sample.compositionOffset⟩ := by
    rw [bytes]
    simp only [List.append_assoc]
    exact (OptionalField.reads rfl).bind ((OptionalField.reads rfl).bind
      ((OptionalField.reads rfl).bind ((OptionalField.reads_signed rfl).bind_pure _)))
  exact h

end RunSample

namespace TrackRun

/-- A reader accepts the run: if its samples carry no fields, they are not too many. -/
def Countable (run : TrackRun) : Prop :=
  run.fields = .none → run.samples.length ≤ maxFieldlessSamples

theorem samples_of_complete {fields : SampleFields} {samples : List RunSample} (start : Nat)
    (h : (Emission.concat
      (samples.mapIdx fun i => sampleEmission fields (start + i))).error = none) :
    (∀ sample ∈ samples, sample.fields = fields) ∧
      (Emission.concat (samples.mapIdx fun i => sampleEmission fields (start + i))).bytes =
        samples.flatMap RunSample.bytes := by
  induction samples generalizing start with
  | nil => exact ⟨by simp, rfl⟩
  | cons sample samples ih =>
    rw [List.mapIdx_cons, Emission.concat_cons] at h ⊢
    obtain ⟨hfirst, hrest⟩ := Emission.append_error_eq_none.1 h
    have hshift : (fun i => sampleEmission fields (start + (i + 1))) =
        fun i => sampleEmission fields (start + 1 + i) := by
      funext i
      rw [Nat.add_assoc start 1 i, Nat.add_comm 1 i]
    rw [hshift] at hrest ⊢
    obtain ⟨hfields, hbytes⟩ := ih (start + 1) hrest
    rw [Emission.append_bytes_of_none hfirst, hbytes]
    unfold sampleEmission at hfirst ⊢
    split_ifs at hfirst ⊢ with hsample
    · refine ⟨?_, rfl⟩
      intro other hmem
      rcases List.mem_cons.mp hmem with rfl | hmem
      · exact hsample
      · exact hfields other hmem
    · cases hfirst

/-- What can be written are runs whose samples can be counted and are all alike. -/
theorem contents_of_complete {run : TrackRun} (h : (IsBox.contents run).error = none) :
    run.samples.length < 2 ^ 32 ∧ (∀ sample ∈ run.samples, sample.fields = run.fields) ∧
      (IsBox.contents run).bytes = run.headBytes ++ run.samples.flatMap RunSample.bytes := by
  change run.contentEmission.error = none at h
  change _ ∧ _ ∧ run.contentEmission.bytes = _
  unfold contentEmission at h ⊢
  split_ifs at h ⊢ with hcount
  · cases h
  · have hshift : sampleEmission run.fields =
        fun i => sampleEmission run.fields (0 + i) := by
      funext i
      rw [Nat.zero_add]
    rw [hshift] at h ⊢
    obtain ⟨hfields, hbytes⟩ := samples_of_complete 0 h
    refine ⟨Nat.lt_of_not_le hcount, hfields, ?_⟩
    rw [Emission.put_append_bytes, hbytes]

theorem flags_tell (run : TrackRun) :
    let word := VersionFlags.of run.version run.flagBits
    word.has dataOffsetFlag = run.dataOffset.isSome ∧
      word.has firstSampleFlagsFlag = run.firstSampleFlags.isSome ∧
      SampleFields.ofWord word = run.fields := by
  simp only [SampleFields.ofWord, VersionFlags.has_of, flagBits, SampleFields.flagBits]
  generalize run.fields = fields
  obtain ⟨a, b, c, d⟩ := fields
  generalize run.dataOffset.isSome = e
  generalize run.firstSampleFlags.isSome = f
  simp only [SampleFields.mk.injEq]
  revert a b c d e f
  decide

theorem length_samples {fields : SampleFields} {samples : List RunSample}
    (h : ∀ sample ∈ samples, sample.fields = fields) :
    (samples.flatMap RunSample.bytes).length = fields.sampleSize * samples.length := by
  induction samples with
  | nil => rfl
  | cons sample samples ih =>
    have hsample := h sample (by simp)
    have hrest := ih fun other hmem => h other (by simp [hmem])
    rw [List.flatMap_cons, List.length_append, RunSample.length_bytes, hsample, hrest,
      List.length_cons]
    ring

theorem sampleSize_eq_zero {fields : SampleFields} : fields.sampleSize = 0 ↔ fields = .none := by
  obtain ⟨a, b, c, d⟩ := fields
  revert a b c d
  decide

theorem readsAll_samples {fields : SampleFields} {samples : List RunSample}
    (hfields : ∀ sample ∈ samples, sample.fields = fields)
    (hcount : fields = .none → samples.length ≤ maxFieldlessSamples) :
    ReadsAll (readSamples fields samples.length) (samples.flatMap RunSample.bytes) samples := by
  have hlen := length_samples hfields
  have hread : Reads (Reader.times samples.length (RunSample.read fields))
      (samples.flatMap RunSample.bytes) samples := by
    apply Reads.times
    intro sample hmem
    rw [← hfields sample hmem]
    exact RunSample.reads sample
  have hmany : ¬(fields.sampleSize = 0 ∧ maxFieldlessSamples < samples.length) := by
    rintro ⟨hzero, hlt⟩
    have hle := hcount (sampleSize_eq_zero.1 hzero)
    omega
  intro box position
  unfold readSamples
  rw [bind_of_ok (show Reader.remaining ⟨box, position, samples.flatMap RunSample.bytes⟩ =
    .ok (fields.sampleSize * samples.length, _) by rw [Reader.remaining, hlen])]
  rw [if_neg hmany, if_neg (by simp)]
  exact hread.all box position

theorem decodeContents_body {run : TrackRun} (hcomplete : (IsBox.contents run).error = none)
    (hcount : run.Countable) : decodeContents (Box.body run) = .ok run := by
  obtain ⟨hlength, hfields, hbytes⟩ := contents_of_complete hcomplete
  obtain ⟨hoffset, hfirst, hword⟩ := flags_tell run
  have hbody : Box.body run = (VersionFlags.of run.version run.flagBits).bytes ++
      (run.headBytes ++ run.samples.flatMap RunSample.bytes) := by
    rw [← hbytes]
    rfl
  have hsamples := readsAll_samples hfields hcount
  have hread : ReadsAll read (Box.body run) run := by
    rw [hbody, headBytes]
    simp only [List.append_assoc]
    have hend : ReadsAll (readSamples (.ofWord (.of run.version run.flagBits)) run.samples.length
        >>= fun samples => pure ⟨run.dataOffset, run.firstSampleFlags, samples⟩)
        (run.samples.flatMap RunSample.bytes) run := by
      intro box position
      rw [hword, bind_of_ok (hsamples box position)]
      rfl
    exact (Reads.word (.of run.version run.flagBits)).bind_all
      ((Reads.number hlength).bind_all
        ((OptionalField.reads_signed hoffset).bind_all
          ((OptionalField.reads hfirst).bind_all hend)))
  exact run_of_readsAll hread .trun

theorem decode_emission {run : TrackRun} (h : Box.Writable run) (hcount : run.Countable)
    (rest : Bytes) : decode ((Box.emission run).bytes ++ rest) = .ok (run, Box.size run) :=
  Box.decodeAs_emission h rfl (decodeContents_body h.complete hcount) rest

end TrackRun
end FragmentedMp4
