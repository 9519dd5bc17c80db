import FragmentedMp4.Proofs.Fragment.CompactSize
import FragmentedMp4.Proofs.Segment.WrittenBoxes

/-!
# The compact form settles

Making a run compact leaves nothing in it that could be moved once more, and where data offsets
or versions change afterwards this stays so. So a fragment that is written in compact form and
read back is its own compact form: it is written with the same bytes again.
-/
namespace FragmentedMp4

theorem shared?_of_none {α : Type} [DecidableEq α] {items : List (Option α)}
    (h : ∀ item ∈ items, item = none) : shared? items = none := by
  cases items with
  | nil => rfl
  | cons item items =>
    rw [h item (List.mem_cons_self ..)]
    rfl

/-- Nothing that samples share is stored with each of them. -/
structure TrackRun.IsCompact (run : TrackRun) : Prop where
  duration : shared? (run.samples.map (·.duration)) = none
  size : shared? (run.samples.map (·.size)) = none
  flags : run.firstSampleFlags = none → shared? (run.samples.map (·.flags)) = none ∧
    ∀ first rest, run.samples.map (·.flags) = some first :: rest → shared? rest = none
  compositionOffset : (run.samples.all fun sample => sample.compositionOffset == some 0) = false

namespace SingleRun

variable {pair : SingleRun}

/-- A run that is compact stays as it is. -/
theorem compacted_of_isCompact (h : pair.run.IsCompact) : pair.compacted = pair := by
  have hduration : pair.moveDuration = pair := by
    unfold moveDuration
    rw [h.duration]
  have hsize : pair.moveSize = pair := by
    unfold moveSize
    rw [h.size]
  have hflags : pair.moveFlags = pair := by
    unfold moveFlags
    split_ifs with hsome
    · rfl
    · obtain ⟨hall, hothers⟩ := h.flags (by simpa using hsome)
      simp only [hall]
      split
      · rename_i first rest hsplit
        rw [hothers first rest hsplit]
      · rfl
  have hoffsets : pair.dropCompositionOffsets = pair := by
    unfold dropCompositionOffsets
    rw [h.compositionOffset, if_neg Bool.false_ne_true]
  rw [compacted, hduration, hsize, hflags, hoffsets]

/-- The samples are as before, or all changed in one way. -/
def Changes (change : RunSample → RunSample) (before after : SingleRun) : Prop :=
  after.run.samples = before.run.samples ∨ after.run.samples = before.run.samples.map change

theorem Changes.map_eq {change : RunSample → RunSample} {before after : SingleRun} {β : Type}
    {view : RunSample → β} (h : Changes change before after)
    (hview : ∀ sample, view (change sample) = view sample) :
    after.run.samples.map view = before.run.samples.map view := by
  rcases h with h | h
  · rw [h]
  · rw [h, List.map_map]
    exact List.map_congr_left fun sample _ => hview sample

theorem Changes.ne_nil {change : RunSample → RunSample} {before after : SingleRun}
    (h : Changes change before after) (hsome : before.run.samples ≠ []) :
    after.run.samples ≠ [] := by
  rcases h with h | h
  · rwa [h]
  · rw [h]
    simpa using hsome

variable (pair)

theorem changes_moveDuration : Changes RunSample.withoutDuration pair pair.moveDuration := by
  unfold moveDuration
  split
  · exact .inl rfl
  · exact .inr rfl

theorem changes_moveSize : Changes RunSample.withoutSize pair pair.moveSize := by
  unfold moveSize
  split
  · exact .inl rfl
  · exact .inr rfl

theorem changes_moveFlags : Changes RunSample.withoutFlags pair pair.moveFlags := by
  unfold moveFlags
  split_ifs
  · exact .inl rfl
  · simp only
    split
    · exact .inr rfl
    · split
      · split
        · exact .inr rfl
        · exact .inl rfl
      · exact .inl rfl

theorem changes_dropCompositionOffsets :
    Changes RunSample.withoutCompositionOffset pair pair.dropCompositionOffsets := by
  unfold dropCompositionOffsets
  split_ifs
  · exact .inr rfl
  · exact .inl rfl

theorem firstSampleFlags_dropCompositionOffsets :
    pair.dropCompositionOffsets.run.firstSampleFlags = pair.run.firstSampleFlags := by
  unfold dropCompositionOffsets
  split_ifs <;> rfl

theorem shared?_moveDuration :
    shared? (pair.moveDuration.run.samples.map (·.duration)) = none := by
  unfold moveDuration
  split
  · assumption
  · apply shared?_of_none
    simp [mapSamples, RunSample.withoutDuration]

theorem shared?_moveSize : shared? (pair.moveSize.run.samples.map (·.size)) = none := by
  unfold moveSize
  split
  · assumption
  · apply shared?_of_none
    simp [mapSamples, RunSample.withoutSize]

theorem map_flags_setFlags (first : Option UInt32) (flags : UInt32) :
    ∀ item ∈ (pair.setFlags first flags).run.samples.map (·.flags), item = none := by
  simp [setFlags, RunSample.withoutFlags]

/-- Unless the run has flags for its first sample in the end, neither all samples share theirs
nor all but the first. -/
theorem shared?_moveFlags (hnone : pair.moveFlags.run.firstSampleFlags = none) :
    shared? (pair.moveFlags.run.samples.map (·.flags)) = none ∧
      ∀ first rest, pair.moveFlags.run.samples.map (·.flags) = some first :: rest →
        shared? rest = none := by
  unfold moveFlags at hnone ⊢
  split_ifs at hnone ⊢ with hsome
  · rw [hnone] at hsome
    cases hsome
  · simp only at hnone ⊢
    split at hnone
    · rename_i flags hall
      have hmoved := pair.map_flags_setFlags none flags
      refine ⟨shared?_of_none hmoved, ?_⟩
      intro first rest hsplit
      cases hmoved (some first) (by rw [hsplit]; exact List.mem_cons_self ..)
    · rename_i hdifferent
      split at hnone
      · rename_i first rest hflags
        split at hnone
        · cases hnone
        · rename_i hothers
          refine ⟨hdifferent, ?_⟩
          intro first' rest' hsplit
          rw [hflags] at hsplit
          cases hsplit
          exact hothers
      · rename_i hother
        refine ⟨hdifferent, fun first rest hsplit => ?_⟩
        exact absurd hsplit (hother first rest)

theorem all_dropCompositionOffsets (hsome : pair.run.samples ≠ []) :
    (pair.dropCompositionOffsets.run.samples.all fun sample =>
      sample.compositionOffset == some 0) = false := by
  unfold dropCompositionOffsets
  split_ifs with hall
  · obtain ⟨sample, samples, hsamples⟩ := List.exists_cons_of_ne_nil hsome
    simp [mapSamples, hsamples, RunSample.withoutCompositionOffset]
  · simpa using hall

/-- No later change undoes what an earlier one has settled. -/
theorem isCompact_compacted (hsome : pair.run.samples ≠ []) : pair.compacted.run.IsCompact := by
  have hsize := changes_moveSize pair.moveDuration
  have hflags := changes_moveFlags pair.moveDuration.moveSize
  have hoffsets := changes_dropCompositionOffsets pair.moveDuration.moveSize.moveFlags
  constructor
  · rw [compacted, hoffsets.map_eq fun _ => rfl, hflags.map_eq fun _ => rfl,
      hsize.map_eq fun _ => rfl]
    exact pair.shared?_moveDuration
  · rw [compacted, hoffsets.map_eq fun _ => rfl, hflags.map_eq fun _ => rfl]
    exact shared?_moveSize _
  · rw [compacted, firstSampleFlags_dropCompositionOffsets, hoffsets.map_eq fun _ => rfl]
    exact shared?_moveFlags _
  · apply all_dropCompositionOffsets
    exact hflags.ne_nil (hsize.ne_nil ((changes_moveDuration pair).ne_nil hsome))

end SingleRun

namespace TrackRun

/-- What decides whether a run is compact. -/
def stored (run : TrackRun) : Option UInt32 × List RunSample :=
  (run.firstSampleFlags, run.samples)

theorem stored_shift (delta : Int) (run : TrackRun) : (run.shift delta).1.stored = run.stored := by
  obtain ⟨hflags, hsamples⟩ := run.shift_keeps delta
  rw [stored, hflags, hsamples]
  rfl

theorem IsCompact.of_stored {run other : TrackRun} (h : run.IsCompact)
    (hsame : other.stored = run.stored) : other.IsCompact := by
  obtain ⟨hflags, hsamples⟩ := Prod.ext_iff.1 hsame
  change other.firstSampleFlags = run.firstSampleFlags at hflags
  change other.samples = run.samples at hsamples
  constructor
  · rw [hsamples]
    exact h.duration
  · rw [hsamples]
    exact h.size
  · rw [hflags, hsamples]
    exact h.flags
  · rw [hsamples]
    exact h.compositionOffset

end TrackRun

namespace TrackFragment

def IsCompact (track : TrackFragment) : Prop :=
  ∀ run, track.runs = [run] → run.samples ≠ [] → run.IsCompact

variable {track other : TrackFragment}

theorem compacted_of_isCompact (h : track.IsCompact) : track.compacted = track := by
  rcases track.compacted_cases with hsame | ⟨run, hruns, hsome, hcompacted⟩
  · exact hsame
  · have hpair : SingleRun.compacted ⟨track.header, run⟩ = ⟨track.header, run⟩ :=
      SingleRun.compacted_of_isCompact (h run hruns hsome)
    rw [hcompacted, hpair, ← hruns]

theorem isCompact_compacted (track : TrackFragment) : track.compacted.IsCompact := by
  intro other hother hsamples
  unfold compacted at hother
  split at hother
  · rename_i run hruns
    split_ifs at hother with hempty
    · rw [hruns] at hother
      cases hother
      exact absurd (List.isEmpty_iff.1 hempty) hsamples
    · cases hother
      exact SingleRun.isCompact_compacted ⟨track.header, run⟩ (by simpa using hempty)
  · rename_i hseveral
    exact absurd hother (hseveral other)

theorem IsCompact.of_stored (h : track.IsCompact)
    (hsame : other.runs.map TrackRun.stored = track.runs.map TrackRun.stored) :
    other.IsCompact := by
  intro run hrun hsamples
  rw [hrun, List.map_singleton] at hsame
  obtain ⟨source, hsource, hstored⟩ := List.map_eq_singleton_iff.1 hsame.symm
  have hsome : source.samples ≠ [] := by
    rw [show source.samples = run.samples from congrArg Prod.snd hstored]
    exact hsamples
  exact (h source hsource hsome).of_stored hstored.symm

theorem IsCompact.shift (h : track.IsCompact) (delta : Int) (isFirst : Bool) :
    (track.shift delta isFirst).1.IsCompact := by
  apply h.of_stored
  unfold TrackFragment.shift
  split_ifs
  · exact map_changeInOrder (TrackRun.stored_shift delta) track.runs
  · rfl

end TrackFragment

theorem TrackDecodeTime.emission_asWritten (time : TrackDecodeTime) :
    Box.emission time.asWritten = Box.emission time := by
  unfold Box.emission Box.front
  rw [time.size_asWritten]
  simp only [IsBox.name, IsBox.word, IsBox.contents, writtenVersion_asWritten]
  rfl

namespace TrackFragment

theorem contents_asWritten (track : TrackFragment) :
    IsBox.contents track.asWritten = IsBox.contents track := by
  change track.asWritten.contentEmission = track.contentEmission
  unfold contentEmission asWritten
  cases track.decodeTime with
  | none => rfl
  | some time =>
    simp only [Option.map_some, Option.getD_some, time.emission_asWritten]

theorem emission_asWritten (track : TrackFragment) :
    Box.emission track.asWritten = Box.emission track := by
  unfold Box.emission Box.front
  rw [track.size_asWritten, track.contents_asWritten]
  rfl

end TrackFragment

namespace MovieFragment

theorem compacted_of_isCompact {moof : MovieFragment}
    (h : ∀ track ∈ moof.tracks, track.IsCompact) : moof.compacted = moof := by
  unfold compacted
  rw [List.map_congr_left fun track hmem => TrackFragment.compacted_of_isCompact (h track hmem),
    List.map_id']

theorem isCompact_compacted (moof : MovieFragment) :
    ∀ track ∈ moof.compacted.tracks, track.IsCompact := by
  intro track hmem
  obtain ⟨source, -, rfl⟩ := List.mem_map.1 hmem
  exact source.isCompact_compacted

theorem compacted_compacted (moof : MovieFragment) :
    moof.compacted.compacted = moof.compacted :=
  compacted_of_isCompact moof.isCompact_compacted

/-- A compact movie fragment whose data offsets were moved and that was written and read back is
still compact. -/
theorem compacted_asWritten {moof moved : MovieFragment} {delta : Int}
    (h : moof.compacted.shifted delta = .ok moved) :
    moved.asWritten.compacted = moved.asWritten := by
  apply compacted_of_isCompact
  intro track hmem
  obtain ⟨shifted, hshifted, rfl⟩ := List.mem_map.1 hmem
  rw [(shifted_eq_ok h).1] at hshifted
  obtain ⟨isFirst, source, hsource, rfl⟩ : ∃ isFirst, ∃ source ∈ moof.compacted.tracks,
      shifted = (source.shift delta isFirst).1 := TrackFragment.mem_changeAll hshifted
  exact (moof.isCompact_compacted source hsource).shift delta isFirst

theorem contents_asWritten (moof : MovieFragment) :
    IsBox.contents moof.asWritten = IsBox.contents moof := by
  change moof.asWritten.contentEmission = moof.contentEmission
  unfold contentEmission asWritten
  simp only [List.map_map, Function.comp_def, TrackFragment.emission_asWritten]

theorem emission_asWritten (moof : MovieFragment) :
    Box.emission moof.asWritten = Box.emission moof := by
  unfold Box.emission Box.front
  rw [moof.size_asWritten, moof.contents_asWritten]
  rfl

theorem writable_asWritten {moof : MovieFragment} (h : Box.Writable moof) :
    Box.Writable moof.asWritten :=
  ⟨by rw [moof.size_asWritten]; exact h.size_lt, by rw [moof.contents_asWritten]; exact h.complete⟩

end MovieFragment

namespace Fragment

theorem writeStream_of_written {fragment : Fragment} {moof : MovieFragment}
    (h : fragment.writtenMoof = .ok moof) (hmoof : Box.Writable moof)
    (hmdat : Box.Writable fragment.mdat) (held : Bytes) :
    fragment.writeStream ⟨none, held⟩ =
      .ok () ⟨none, held ++ ((Box.emission moof).bytes ++ (Box.emission fragment.mdat).bytes)⟩ := by
  have hsteps := writeSteps_of_written h
  have hnone : WriteStep.firstFailure? fragment.writeSteps = none := by
    apply WriteStep.no_failure_of_puts
    · rw [hsteps]
      simp [WriteStep.box?]
    · rw [hsteps]
      intro box hmem
      rcases List.mem_cons.1 hmem with rfl | hmem
      · exact ⟨hmoof.size_lt, hmoof.complete⟩
      · rw [List.mem_singleton.1 hmem]
        exact ⟨hmdat.size_lt, hmdat.complete⟩
  rw [writeStream_eq, hnone, (WriteStep.complete_of_no_failure hnone).1, hsteps]
  change EStateM.Result.ok () (BoundedStream.mk none (held ++ ((Box.emission moof).bytes ++
    ((Box.emission fragment.mdat).bytes ++ [])))) = _
  rw [List.append_nil]

/-- A fragment is never larger in compact form, nothing is left in that form that could be moved,
and it stays as it is when it is made compact again. If the fragment could be written in compact
form, the bytes are read back, with nothing left over, as a fragment that is written in compact
form with the same bytes. -/
theorem compact_settles (fragment : Fragment) :
    fragment.sizeIn .compact ≤ fragment.sizeIn .stored ∧
    (∀ track ∈ fragment.moof.compacted.tracks, track.IsCompact) ∧
    fragment.moof.compacted.compacted = fragment.moof.compacted ∧
    ∀ stream, fragment.layout = .compact →
      (∀ track ∈ fragment.moof.tracks, ∀ run ∈ track.runs,
        run.samples.length ≤ TrackRun.maxFieldlessSamples) →
      fragment.writeStream (.empty none) = .ok () stream →
      ∃ decoded, decode stream.bytes = .ok (decoded, stream.bytes.length) ∧
        Fragment.writeStream { decoded with layout := .compact } (.empty none) =
          .ok () ⟨none, stream.bytes⟩ := by
  refine ⟨Nat.add_le_add_right (MovieFragment.size_compacted_le _) _,
    fragment.moof.isCompact_compacted, fragment.moof.compacted_compacted, ?_⟩
  intro stream hlayout hcount hwritten
  obtain ⟨moved, hmoved, hmoof, hmdat, hbytes⟩ := of_writeStream hwritten
  have hshifted : fragment.moof.compacted.shifted
      (Box.size fragment.moof.compacted - Box.size fragment.moof) = .ok moved := by
    unfold writtenMoof at hmoved
    rwa [hlayout] at hmoved
  have hcompact : ∀ track ∈ fragment.moof.compacted.tracks, ∀ run ∈ track.runs,
      run.samples.length ≤ TrackRun.maxFieldlessSamples := by
    intro track hmem
    obtain ⟨source, hsource, rfl⟩ := List.mem_map.1 hmem
    exact TrackFragment.length_compacted (hcount source hsource)
  have hdecode := decode_boxes hmoof hmdat (countable_of_shifted hcompact hshifted) []
  have hlength : stream.bytes.length = Box.size moved + Box.size fragment.mdat := by
    rw [hbytes, List.length_append, Box.length_emission hmoof, Box.length_emission hmdat]
  rw [List.append_nil, ← hbytes, ← hlength] at hdecode
  refine ⟨_, hdecode, ?_⟩
  have hagain : writtenMoof { ofBoxes moved.asWritten fragment.mdat with layout := .compact } =
      .ok moved.asWritten := by
    unfold writtenMoof
    simp only [MovieFragment.inLayout, ofBoxes, MovieFragment.compacted_asWritten hshifted,
      sub_self, MovieFragment.shifted_zero]
  have hwrite := writeStream_of_written hagain (MovieFragment.writable_asWritten hmoof) hmdat []
  rw [moved.emission_asWritten] at hwrite
  rw [hbytes]
  exact hwrite

/-- A run of two samples that share their durations, and sizes and flags with no one. -/
theorem compact_settles_shared :
    let run : TrackRun := ⟨some 144, none,
      [⟨some 10, some 1, some 0, some 0⟩, ⟨some 10, some 2, some 0x10000, some 0⟩]⟩
    let moof : MovieFragment := ⟨⟨1⟩, [⟨.ofTrack 7, [run], some ⟨0, 5⟩⟩]⟩
    let fragment : Fragment := { ofBoxes moof ⟨[1, 2, 3]⟩ with layout := .compact }
    fragment.layout = .compact ∧
      (∀ track ∈ fragment.moof.tracks, ∀ run ∈ track.runs,
        run.samples.length ≤ TrackRun.maxFieldlessSamples) ∧
      fragment.sizeIn .compact < fragment.sizeIn .stored ∧
      ∃ stream, fragment.writeStream (.empty none) = .ok () stream ∧
        ∃ decoded, decode stream.bytes = .ok (decoded, stream.bytes.length) ∧
          Fragment.writeStream { decoded with layout := .compact } (.empty none) =
            .ok () ⟨none, stream.bytes⟩ := by
  intro run moof fragment
  have hcount : ∀ track ∈ fragment.moof.tracks, ∀ run ∈ track.runs,
      run.samples.length ≤ TrackRun.maxFieldlessSamples := by decide
  have hnone : WriteStep.firstFailure? fragment.writeSteps = none := by decide +kernel
  have hwritten : ∃ stream, fragment.writeStream (.empty none) = .ok () stream := by
    have hstream := fragment.writeStream_eq []
    rw [hnone] at hstream
    exact ⟨_, hstream⟩
  obtain ⟨stream, hstream⟩ := hwritten
  obtain ⟨-, -, -, hsettles⟩ := compact_settles fragment
  exact ⟨rfl, hcount, by decide +kernel, stream, hstream, hsettles stream rfl hcount hstream⟩

end Fragment
end FragmentedMp4
