import FragmentedMp4.Proofs.Fragment.Accepted
import FragmentedMp4.Proofs.Fragment.Compaction

/-!
# Compact runs take no more room

A value that is moved takes four bytes less with each sample of the run and four bytes more in the
header. Flags of the first sample take four more, but then there are two samples at least. So no
change makes a movie fragment larger. The samples of a run still carry the same fields as each
other, so what could be written before can be written in compact form.
-/
namespace FragmentedMp4

theorem Box.sizeOfBody_le_sizeOfBody {body old : Nat} (h : body ≤ old) :
    sizeOfBody body ≤ sizeOfBody old := by
  unfold sizeOfBody headerSize largeHeaderSize
  split_ifs <;> omega

theorem Box.sizeOfBody_add_le {body saved old : Nat} (h : body + saved ≤ old) :
    sizeOfBody body + saved ≤ sizeOfBody old := by
  unfold sizeOfBody headerSize largeHeaderSize
  split_ifs <;> omega

theorem OptionalField.size_le {α : Type} (field : Option α) (width : Nat) :
    size field width ≤ width := by
  unfold size
  split_ifs
  · exact le_rfl
  · exact Nat.zero_le _

namespace TrackFragmentHeader

theorem size_eq (header : TrackFragmentHeader) :
    Box.size header = 12 + IsBox.contentSize header := by
  have hbase := OptionalField.size_le header.baseDataOffset 8
  have hindex := OptionalField.size_le header.descriptionIndex 4
  have hduration := OptionalField.size_le header.duration 4
  have hsize := OptionalField.size_le header.size 4
  have hflags := OptionalField.size_le header.flags 4
  have hcontent : IsBox.contentSize header = 4 + OptionalField.size header.baseDataOffset 8 +
      OptionalField.size header.descriptionIndex 4 + OptionalField.size header.duration 4 +
      OptionalField.size header.size 4 + OptionalField.size header.flags 4 := rfl
  change Box.sizeOfBody (4 + IsBox.contentSize header) = _
  unfold Box.sizeOfBody Box.headerSize Box.maxShortSize
  rw [if_pos (by omega)]
  omega

theorem size_le_add_four {header changed : TrackFragmentHeader}
    (h : IsBox.contentSize changed ≤ IsBox.contentSize header + 4) :
    Box.size changed ≤ Box.size header + 4 := by
  rw [size_eq, size_eq]
  omega

end TrackFragmentHeader

namespace RunSample

variable (sample : RunSample)

theorem sampleSize_withoutDuration (h : sample.duration.isSome = true) :
    sample.withoutDuration.fields.sampleSize + 4 = sample.fields.sampleSize := by
  simp only [fields, withoutDuration, SampleFields.sampleSize, h, Option.isSome_none,
    Bool.toNat_true, Bool.toNat_false]
  omega

theorem sampleSize_withoutSize (h : sample.size.isSome = true) :
    sample.withoutSize.fields.sampleSize + 4 = sample.fields.sampleSize := by
  simp only [fields, withoutSize, SampleFields.sampleSize, h, Option.isSome_none,
    Bool.toNat_true, Bool.toNat_false]
  omega

theorem sampleSize_withoutFlags (h : sample.flags.isSome = true) :
    sample.withoutFlags.fields.sampleSize + 4 = sample.fields.sampleSize := by
  simp only [fields, withoutFlags, SampleFields.sampleSize, h, Option.isSome_none,
    Bool.toNat_true, Bool.toNat_false]
  omega

theorem sampleSize_withoutCompositionOffset (h : sample.compositionOffset.isSome = true) :
    sample.withoutCompositionOffset.fields.sampleSize + 4 = sample.fields.sampleSize := by
  simp only [fields, withoutCompositionOffset, SampleFields.sampleSize, h, Option.isSome_none,
    Bool.toNat_true, Bool.toNat_false]

end RunSample

namespace TrackRun

variable {run changed : TrackRun} {change : RunSample → RunSample}

theorem complete_iff : (IsBox.contents run).error = none ↔
    run.samples.length < 2 ^ 32 ∧ ∀ sample ∈ run.samples, sample.fields = run.fields := by
  constructor
  · intro h
    obtain ⟨hcount, hfields, -⟩ := contents_of_complete h
    exact ⟨hcount, hfields⟩
  · exact fun h => complete_of_fields h.1 h.2

theorem fields_map (hsome : run.samples ≠ [])
    (hsamples : changed.samples = run.samples.map change) :
    ∃ first ∈ run.samples, run.fields = first.fields ∧ changed.fields = (change first).fields := by
  unfold fields
  rw [hsamples]
  cases hcase : run.samples with
  | nil => exact absurd hcase hsome
  | cons first rest => exact ⟨first, List.mem_cons_self .., rfl, rfl⟩

theorem complete_map (hsamples : changed.samples = run.samples.map change)
    (heven : ∀ first second : RunSample, first.fields = second.fields →
      (change first).fields = (change second).fields)
    (h : (IsBox.contents run).error = none) : (IsBox.contents changed).error = none := by
  rw [complete_iff] at h ⊢
  obtain ⟨hcount, hfields⟩ := h
  refine ⟨by rwa [hsamples, List.length_map], ?_⟩
  intro sample hmem
  rw [hsamples] at hmem
  obtain ⟨source, hsource, rfl⟩ := List.mem_map.1 hmem
  have hsome : run.samples ≠ [] := List.ne_nil_of_mem hsource
  obtain ⟨first, -, hrun, hchanged⟩ := fields_map hsome hsamples
  rw [hchanged]
  apply heven
  rw [← hrun]
  exact hfields source hsource

theorem size_map_le (hsome : run.samples ≠ [])
    (hsamples : changed.samples = run.samples.map change)
    (hoffset : changed.dataOffset = run.dataOffset)
    (hfields : ∀ sample ∈ run.samples,
      (change sample).fields.sampleSize + 4 = sample.fields.sampleSize) {saved : Nat}
    (hsaved : OptionalField.size changed.firstSampleFlags 4 + saved ≤
      OptionalField.size run.firstSampleFlags 4 + 4 * run.samples.length) :
    Box.size changed + saved ≤ Box.size run := by
  obtain ⟨first, hmem, hrun, hchanged⟩ := fields_map hsome hsamples
  have hfirst := hfields first hmem
  have hproduct : first.fields.sampleSize * run.samples.length =
      (change first).fields.sampleSize * run.samples.length + 4 * run.samples.length := by
    rw [← hfirst]
    ring
  apply Box.sizeOfBody_add_le
  simp only [IsBox.word, IsBox.contentSize, hsamples, hoffset, hrun, hchanged, List.length_map,
    hproduct, Box.wordSize, Option.isSome_some]
  omega

end TrackRun

namespace SingleRun

/-- The bytes that the header and the run take. -/
def size (pair : SingleRun) : Nat :=
  Box.size pair.header + Box.size pair.run

/-- A change makes nothing larger and leaves a run that can be written if it could before. -/
structure Shrinks (pair changed : SingleRun) : Prop where
  size_le : changed.size ≤ pair.size
  some : changed.run.samples ≠ []
  complete : (IsBox.contents pair.run).error = none → (IsBox.contents changed.run).error = none

theorem Shrinks.refl {pair : SingleRun} (h : pair.run.samples ≠ []) : Shrinks pair pair :=
  ⟨le_rfl, h, id⟩

theorem Shrinks.trans {first second third : SingleRun} (h : Shrinks first second)
    (h' : Shrinks second third) : Shrinks first third :=
  ⟨h'.size_le.trans h.size_le, h'.some, fun hcomplete => h'.complete (h.complete hcomplete)⟩

variable {pair : SingleRun}

/-- A field is taken out of all samples, for a default and perhaps flags of the first one. -/
theorem shrinks_map {header : TrackFragmentHeader} {flags : Option UInt32}
    {change : RunSample → RunSample} {added : Nat} (hsome : pair.run.samples ≠ [])
    (hheader : Box.size header ≤ Box.size pair.header + added)
    (hfields : ∀ sample ∈ pair.run.samples,
      (change sample).fields.sampleSize + 4 = sample.fields.sampleSize)
    (heven : ∀ first second : RunSample, first.fields = second.fields →
      (change first).fields = (change second).fields)
    (hroom : OptionalField.size flags 4 + added ≤
      OptionalField.size pair.run.firstSampleFlags 4 + 4 * pair.run.samples.length) :
    Shrinks pair ⟨header, ⟨pair.run.dataOffset, flags, pair.run.samples.map change⟩⟩ := by
  have hsamples : (⟨pair.run.dataOffset, flags, pair.run.samples.map change⟩ : TrackRun).samples =
      pair.run.samples.map change := rfl
  have hrun := TrackRun.size_map_le hsome hsamples rfl hfields hroom
  refine ⟨?_, ?_, TrackRun.complete_map hsamples heven⟩
  · refine (Nat.add_le_add_right hheader _).trans ?_
    rw [Nat.add_assoc, Nat.add_comm added]
    exact Nat.add_le_add_left hrun _
  · simpa using hsome

theorem four_le (hsome : pair.run.samples ≠ []) : 4 ≤ 4 * pair.run.samples.length := by
  have hpos := List.length_pos_iff.2 hsome
  omega

theorem shrinks_moveDuration (hsome : pair.run.samples ≠ []) :
    Shrinks pair pair.moveDuration := by
  unfold moveDuration
  split
  · exact .refl hsome
  · rename_i duration hshared
    have hheader : Box.size { pair.header with duration := some duration } ≤
        Box.size pair.header + 4 := by
      apply TrackFragmentHeader.size_le_add_four
      simp only [IsBox.contentSize, OptionalField.size, Option.isSome_some, if_true]
      omega
    apply shrinks_map hsome hheader
    · intro sample hmem
      have hsample : sample.duration = some duration :=
        shared?_eq_some hshared _ (List.mem_map_of_mem hmem)
      exact sample.sampleSize_withoutDuration (Option.isSome_of_eq_some hsample)
    · exact fun first second hsame =>
        congrArg (fun fields => { fields with duration := false }) hsame
    · exact Nat.add_le_add_left (four_le hsome) _

theorem shrinks_moveSize (hsome : pair.run.samples ≠ []) : Shrinks pair pair.moveSize := by
  unfold moveSize
  split
  · exact .refl hsome
  · rename_i size hshared
    have hheader : Box.size { pair.header with size := some size } ≤
        Box.size pair.header + 4 := by
      apply TrackFragmentHeader.size_le_add_four
      simp only [IsBox.contentSize, OptionalField.size, Option.isSome_some, if_true]
      omega
    apply shrinks_map hsome hheader
    · intro sample hmem
      have hsample : sample.size = some size :=
        shared?_eq_some hshared _ (List.mem_map_of_mem hmem)
      exact sample.sampleSize_withoutSize (Option.isSome_of_eq_some hsample)
    · exact fun first second hsame => congrArg (fun fields => { fields with size := false }) hsame
    · exact Nat.add_le_add_left (four_le hsome) _

theorem shrinks_setFlags {first : Option UInt32} {flags : UInt32} (hsome : pair.run.samples ≠ [])
    (hflags : ∀ sample ∈ pair.run.samples, sample.flags.isSome = true)
    (hroom : OptionalField.size first 4 + 4 ≤
      OptionalField.size pair.run.firstSampleFlags 4 + 4 * pair.run.samples.length) :
    Shrinks pair (pair.setFlags first flags) := by
  have hheader : Box.size { pair.header with flags := some flags } ≤
      Box.size pair.header + 4 := by
    apply TrackFragmentHeader.size_le_add_four
    simp only [IsBox.contentSize, OptionalField.size, Option.isSome_some, if_true]
    omega
  apply shrinks_map hsome hheader
  · exact fun sample hmem => sample.sampleSize_withoutFlags (hflags sample hmem)
  · exact fun first second hsame => congrArg (fun fields => { fields with flags := false }) hsame
  · exact hroom

theorem shrinks_moveFlags (hsome : pair.run.samples ≠ []) : Shrinks pair pair.moveFlags := by
  unfold moveFlags
  split_ifs
  · exact .refl hsome
  · simp only
    split
    · rename_i flags hshared
      apply shrinks_setFlags hsome
      · intro sample hmem
        exact Option.isSome_of_eq_some (shared?_eq_some hshared _ (List.mem_map_of_mem hmem))
      · exact Nat.add_le_add (Nat.zero_le _) (four_le hsome)
    · split
      · rename_i first rest hflags
        split
        · rename_i flags hshared
          obtain ⟨entry, entries, hsamples, hhead, rfl⟩ := List.map_eq_cons_iff.1 hflags
          -- the others share their flags, so there is another one
          have hothers : entries ≠ [] := by
            rintro rfl
            cases hshared
          apply shrinks_setFlags hsome
          · intro sample hmem
            rw [hsamples] at hmem
            rcases List.mem_cons.1 hmem with rfl | hmem
            · exact Option.isSome_of_eq_some hhead
            · exact Option.isSome_of_eq_some (shared?_eq_some hshared _ (List.mem_map_of_mem hmem))
          · have hpos := List.length_pos_iff.2 hothers
            simp only [hsamples, List.length_cons, OptionalField.size, Option.isSome_some, if_true]
            omega
        · exact .refl hsome
      · exact .refl hsome

theorem shrinks_dropCompositionOffsets (hsome : pair.run.samples ≠ []) :
    Shrinks pair pair.dropCompositionOffsets := by
  unfold dropCompositionOffsets
  split_ifs with hall
  · apply shrinks_map hsome (Nat.le_add_right _ 0)
    · intro sample hmem
      have hsample : sample.compositionOffset = some 0 :=
        eq_of_beq (List.all_eq_true.1 hall sample hmem)
      exact sample.sampleSize_withoutCompositionOffset (Option.isSome_of_eq_some hsample)
    · exact fun first second hsame =>
        congrArg (fun fields => { fields with compositionOffset := false }) hsame
    · exact Nat.add_le_add_left (Nat.zero_le _) _
  · exact .refl hsome

/-- Making a run compact takes no more room and leaves it writable. -/
theorem shrinks_compacted (hsome : pair.run.samples ≠ []) : Shrinks pair pair.compacted := by
  have hduration := shrinks_moveDuration hsome
  have hsize := shrinks_moveSize hduration.some
  have hflags := shrinks_moveFlags hsize.some
  exact ((hduration.trans hsize).trans hflags).trans (shrinks_dropCompositionOffsets hflags.some)

end SingleRun

namespace TrackFragment

theorem size_compacted_le (track : TrackFragment) :
    Box.size track.compacted ≤ Box.size track := by
  rcases track.compacted_cases with hsame | ⟨run, hruns, hsome, hcompacted⟩
  · rw [hsame]
  · have hpair : Box.size (SingleRun.compacted ⟨track.header, run⟩).header +
        Box.size (SingleRun.compacted ⟨track.header, run⟩).run ≤
          Box.size track.header + Box.size run :=
      (SingleRun.shrinks_compacted hsome).size_le
    rw [hcompacted, size_of_children, size_of_children, hruns]
    apply Box.sizeOfBody_le_sizeOfBody
    simp only [List.map_singleton, List.sum_singleton]
    omega

theorem complete_compacted {track : TrackFragment} (h : (IsBox.contents track).error = none) :
    (IsBox.contents track.compacted).error = none := by
  rcases track.compacted_cases with hsame | ⟨run, hruns, hsome, hcompacted⟩
  · rwa [hsame]
  · have hrun := (contents_of_complete h).1 run (by simp [hruns])
    apply complete_of_runs
    intro other hmem
    rw [hcompacted] at hmem
    rw [List.mem_singleton.1 hmem]
    exact (SingleRun.shrinks_compacted hsome).complete hrun

/-- Data offsets have no part in whether a track fragment can be written. -/
theorem complete_shift {track : TrackFragment} (h : (IsBox.contents track).error = none)
    (delta : Int) (isFirst : Bool) :
    (IsBox.contents (track.shift delta isFirst).1).error = none := by
  apply complete_of_runs
  intro run hmem
  have hsamples : run.samples ∈ (track.shift delta isFirst).1.runs.map (·.samples) :=
    List.mem_map_of_mem hmem
  rw [samples_shift] at hsamples
  obtain ⟨source, hsource, hsame⟩ := List.mem_map.1 hsamples
  have hcomplete := (contents_of_complete h).1 source hsource
  rw [TrackRun.error_contents] at hcomplete ⊢
  unfold TrackRun.fields at hcomplete ⊢
  rwa [hsame] at hcomplete

end TrackFragment

namespace MovieFragment

theorem size_compacted_le (moof : MovieFragment) : Box.size moof.compacted ≤ Box.size moof := by
  rw [size_of_children, size_of_children]
  apply Box.sizeOfBody_le_sizeOfBody
  apply Nat.add_le_add_left
  rw [compacted, List.map_map]
  apply List.sum_le_sum
  exact fun track _ => track.size_compacted_le

theorem size_inLayout_le (moof : MovieFragment) (layout : RunLayout) :
    Box.size (moof.inLayout layout) ≤ Box.size moof := by
  cases layout with
  | stored => exact le_rfl
  | compact => exact moof.size_compacted_le

/-- What can be written at all can be written in any layout. -/
theorem complete_inLayout {moof : MovieFragment} (h : (IsBox.contents moof).error = none)
    (layout : RunLayout) : (IsBox.contents (moof.inLayout layout)).error = none := by
  cases layout with
  | stored => exact h
  | compact =>
    apply complete_of_tracks
    intro track hmem
    obtain ⟨source, hsource, rfl⟩ := List.mem_map.1 hmem
    exact TrackFragment.complete_compacted ((contents_of_complete h).1 source hsource)

theorem complete_of_shifted {moof moved : MovieFragment} {delta : Int}
    (hmoved : moof.shifted delta = .ok moved) (h : (IsBox.contents moof).error = none) :
    (IsBox.contents moved).error = none := by
  apply complete_of_tracks
  intro track hmem
  rw [(shifted_eq_ok hmoved).1] at hmem
  obtain ⟨isFirst, source, hsource, rfl⟩ : ∃ isFirst, ∃ source ∈ moof.tracks,
      track = (source.shift delta isFirst).1 := TrackFragment.mem_changeAll hmem
  exact TrackFragment.complete_shift ((contents_of_complete h).1 source hsource) delta isFirst

end MovieFragment
end FragmentedMp4
