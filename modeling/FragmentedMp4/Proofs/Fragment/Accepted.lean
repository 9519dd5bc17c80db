import FragmentedMp4.Proofs.Box.Accepted
import FragmentedMp4.Proofs.Fragment.Meaning

/-!
# Fragments that were accepted

A fragment that was read can be written again as it is stored and comes back as it is: its runs
are uniform, its decode times have the versions that are written, and what was skipped is gone.
Adapting its data offsets changes none of this. It is written into the room that there was.
-/
namespace FragmentedMp4

namespace TrackFragment

/-- The track fragment can be written, and comes back as it is. -/
structure Steady (track : TrackFragment) : Prop where
  decodeTime : ∀ time ∈ track.decodeTime, time.asWritten = time
  runs : ∀ run ∈ track.runs, run.Steady

theorem Steady.complete {track : TrackFragment} (h : track.Steady) :
    (IsBox.contents track).error = none :=
  complete_of_runs fun run hmem => (h.runs run hmem).complete

theorem Steady.asWritten_eq {track : TrackFragment} (h : track.Steady) :
    track.asWritten = track := by
  obtain ⟨header, runs, decodeTime⟩ := track
  unfold asWritten
  cases decodeTime with
  | none => rfl
  | some time => rw [Option.map_some, h.decodeTime time rfl]

namespace Children

def size (found : Children) : Nat :=
  (found.header.map (Box.size ·)).getD 0 + (found.decodeTime.map (Box.size ·)).getD 0 +
    (found.runs.map (Box.size ·)).sum

section Size

variable {found : Children}

theorem size_header (h : found.header = none) (box : TrackFragmentHeader) :
    size { found with header := some box } = size found + Box.size box := by
  simp only [size, h, Option.map_none, Option.map_some, Option.getD_none, Option.getD_some]
  omega

theorem size_decodeTime (h : found.decodeTime = none) (box : TrackDecodeTime) :
    size { found with decodeTime := some box } = size found + Box.size box := by
  simp only [size, h, Option.map_none, Option.map_some, Option.getD_none, Option.getD_some]
  omega

theorem size_run (found : Children) (run : TrackRun) :
    size { found with runs := found.runs ++ [run] } = size found + Box.size run := by
  simp only [size, List.map_append, List.map_singleton, List.sum_append, List.sum_singleton]
  omega

end Size

/-- The children that were read from some bytes, with room for `count` bytes. -/
structure Accepted (found : Children) (count : Nat) : Prop where
  decodeTime : ∀ time ∈ found.decodeTime, time.asWritten = time
  runs : ∀ run ∈ found.runs, run.Steady
  size_le : found.size ≤ count

theorem Accepted.addChild {found next : Children} {count : Nat} {header : BoxHeader}
    {child : Bytes} (hstep : TrackFragment.addChild found header child = .ok next)
    (h : found.Accepted count) : next.Accepted (count + Box.room [] child) := by
  unfold TrackFragment.addChild at hstep
  split_ifs at hstep with hheader htime hrun
  · obtain ⟨⟨box, used⟩, hdecode, hstep⟩ := bind_eq_ok.1 hstep
    cases hstep
    obtain ⟨_, hparse, -, -, hcontents⟩ := Box.decodeAs_eq_ok hdecode
    have hbox := (TrackFragmentHeader.accepted hcontents).size_le_room hparse []
    refine ⟨h.decodeTime, h.runs, ?_⟩
    rw [size_header hheader.2]
    exact Nat.add_le_add h.size_le hbox
  · obtain ⟨⟨time, used⟩, hdecode, hstep⟩ := bind_eq_ok.1 hstep
    cases hstep
    obtain ⟨_, hparse, -, -, hcontents⟩ := Box.decodeAs_eq_ok hdecode
    obtain ⟨haccepted, hwritten⟩ := TrackDecodeTime.accepted hcontents
    refine ⟨?_, h.runs, ?_⟩
    · intro other hmem
      cases hmem
      exact hwritten
    · rw [size_decodeTime htime.2]
      exact Nat.add_le_add h.size_le (haccepted.size_le_room hparse [])
  · obtain ⟨⟨run, used⟩, hdecode, hstep⟩ := bind_eq_ok.1 hstep
    cases hstep
    obtain ⟨_, hparse, -, -, hcontents⟩ := Box.decodeAs_eq_ok hdecode
    obtain ⟨haccepted, hsteady⟩ := TrackRun.accepted hcontents
    refine ⟨h.decodeTime, ?_, ?_⟩
    · exact List.forall_mem_append.2 ⟨h.runs, List.forall_mem_singleton.2 hsteady⟩
    · rw [size_run]
      exact Nat.add_le_add h.size_le (haccepted.size_le_room hparse [])
  · cases hstep
    exact ⟨h.decodeTime, h.runs, Nat.le_add_right_of_le h.size_le⟩

end Children

theorem accepted_of_decode {data : Bytes} {track : TrackFragment} {used : Nat}
    (h : decode data = .ok (track, used)) :
    track.Steady ∧
      Box.size track + Box.room [.traf] (data.drop used) ≤ Box.room [.traf] data := by
  obtain ⟨header, hparse, hname, rfl, hcontents⟩ := Box.decodeAs_eq_ok h
  obtain ⟨found, hwalk, hcontents⟩ := bind_eq_ok.1 hcontents
  have hstart : Children.Accepted ⟨none, none, []⟩ 0 := by
    refine ⟨?_, ?_, le_rfl⟩
    · intro time hmem
      cases hmem
    · intro run hmem
      cases hmem
  obtain ⟨htime, hruns, hsize⟩ :=
    Box.walk_induction (Box.addsUp_room []) Children.Accepted.addChild hwalk hstart
  cases hheader : found.header with
  | none =>
    rw [hheader] at hcontents
    cases hcontents
  | some box =>
    rw [hheader] at hcontents
    simp only [Children.size, hheader, Option.map_some, Option.getD_some, Nat.zero_add] at hsize
    cases hcontents
    have htrack := size_of_children ⟨box, found.runs, found.decodeTime⟩
    refine ⟨⟨htime, hruns⟩, ?_⟩
    rw [htrack]
    exact Box.sizeOfBody_add_room_le_of_name hparse hname hsize

end TrackFragment

namespace MovieFragment

structure Steady (moof : MovieFragment) : Prop where
  tracks : ∀ track ∈ moof.tracks, track.Steady

namespace Steady

variable {moof : MovieFragment}

theorem complete (h : moof.Steady) : (IsBox.contents moof).error = none :=
  complete_of_tracks fun track hmem => (h.tracks track hmem).complete

theorem asWritten_eq (h : moof.Steady) : moof.asWritten = moof := by
  obtain ⟨header, tracks⟩ := moof
  unfold asWritten
  rw [List.map_congr_left fun track hmem => (h.tracks track hmem).asWritten_eq, List.map_id']

theorem countable (h : moof.Steady) : moof.Countable := by
  intro track htrack run hrun
  exact ((h.tracks track htrack).runs run hrun).countable

end Steady

structure Children.Accepted (found : Children) (count : Nat) : Prop where
  tracks : ∀ track ∈ found.tracks, track.Steady
  size_le : (found.header.map (Box.size ·)).getD 0 + (found.tracks.map (Box.size ·)).sum ≤ count

theorem Children.Accepted.addChild {found next : Children} {count : Nat} {header : BoxHeader}
    {child : Bytes} (hstep : MovieFragment.addChild found header child = .ok next)
    (h : found.Accepted count) : next.Accepted (count + Box.room [.traf] child) := by
  have hsize := h.size_le
  unfold MovieFragment.addChild at hstep
  split_ifs at hstep with hheader htrack
  · obtain ⟨⟨box, used⟩, hdecode, hstep⟩ := bind_eq_ok.1 hstep
    cases hstep
    obtain ⟨_, hparse, -, -, hcontents⟩ := Box.decodeAs_eq_ok hdecode
    have hbox := (MovieFragmentHeader.accepted hcontents).size_le_room hparse [.traf]
    rw [hheader.2] at hsize
    simp only [Option.map_none, Option.getD_none] at hsize
    refine ⟨h.tracks, ?_⟩
    simp only [Option.map_some, Option.getD_some]
    omega
  · obtain ⟨⟨track, used⟩, hdecode, hstep⟩ := bind_eq_ok.1 hstep
    cases hstep
    obtain ⟨hsteady, hroom⟩ := TrackFragment.accepted_of_decode hdecode
    refine ⟨?_, ?_⟩
    · exact List.forall_mem_append.2 ⟨h.tracks, List.forall_mem_singleton.2 hsteady⟩
    · simp only [List.map_append, List.map_singleton, List.sum_append, List.sum_singleton]
      omega
  · cases hstep
    exact ⟨h.tracks, Nat.le_add_right_of_le hsize⟩

theorem accepted_of_decode {data : Bytes} {moof : MovieFragment} {used : Nat}
    (h : decode data = .ok (moof, used)) :
    moof.Steady ∧
      Box.size moof + Box.room [.moof, .traf] (data.drop used) ≤ Box.room [.moof, .traf] data := by
  obtain ⟨header, hparse, hname, rfl, hcontents⟩ := Box.decodeAs_eq_ok h
  obtain ⟨found, hwalk, hcontents⟩ := bind_eq_ok.1 hcontents
  have hstart : Children.Accepted ⟨none, []⟩ 0 := by
    refine ⟨?_, le_rfl⟩
    intro track hmem
    cases hmem
  obtain ⟨htracks, hsize⟩ :=
    Box.walk_induction (Box.addsUp_room [.traf]) Children.Accepted.addChild hwalk hstart
  cases hheader : found.header with
  | none =>
    rw [hheader] at hcontents
    cases hcontents
  | some box =>
    rw [hheader] at hcontents hsize
    simp only [Option.map_some, Option.getD_some, Nat.zero_add] at hsize
    cases hcontents
    have hmoof := size_of_children ⟨box, found.tracks⟩
    refine ⟨⟨htracks⟩, ?_⟩
    rw [hmoof]
    exact Box.sizeOfBody_add_room_le_of_name hparse hname hsize

end MovieFragment

/-! ### Data offsets

None of this depends on the values of data offsets. -/

namespace TrackRun

theorem steady_iff {run : TrackRun} :
    run.Steady ↔ (IsBox.contents run).error = none ∧ run.Countable :=
  ⟨fun h => ⟨h.complete, h.countable⟩, fun h => ⟨h.1, h.2⟩⟩

theorem steady_shift (delta : Int) (run : TrackRun) : (run.shift delta).1.Steady = run.Steady := by
  have hsamples := (run.shift_keeps delta).2
  rw [eq_iff_iff, steady_iff, steady_iff, error_contents, error_contents]
  unfold Countable TrackRun.fields
  rw [hsamples]

end TrackRun

theorem forall_of_map_eq {α : Type} {holds : α → Prop} {xs ys : List α}
    (h : ys.map holds = xs.map holds) (hall : ∀ x ∈ xs, holds x) : ∀ y ∈ ys, holds y := by
  intro y hy
  have hmem : holds y ∈ xs.map holds := h ▸ List.mem_map_of_mem hy
  obtain ⟨x, hx, hsame⟩ := List.mem_map.1 hmem
  rw [← hsame]
  exact hall x hx

namespace TrackFragment

theorem steady_shift (delta : Int) (isFirst : Bool) (track : TrackFragment) :
    (track.shift delta isFirst).1.Steady = track.Steady := by
  unfold TrackFragment.shift
  split_ifs
  · have hruns := map_changeInOrder (TrackRun.steady_shift delta) track.runs
    rw [eq_iff_iff]
    constructor
    · exact fun h => ⟨h.decodeTime, forall_of_map_eq hruns.symm h.runs⟩
    · exact fun h => ⟨h.decodeTime, forall_of_map_eq hruns h.runs⟩
  · rfl

end TrackFragment

namespace MovieFragment

theorem Steady.shift {moof : MovieFragment} (h : moof.Steady) (delta : Int) :
    (moof.shift delta).1.Steady := by
  unfold MovieFragment.shift
  split_ifs
  · exact h
  · have htracks := TrackFragment.map_shiftAll (TrackFragment.steady_shift delta) moof.tracks
    exact ⟨forall_of_map_eq htracks h.tracks⟩

end MovieFragment

namespace Fragment

structure Steady (fragment : Fragment) : Prop where
  layout : fragment.layout = .stored
  moof : fragment.moof.Steady

theorem decode_eq_ok {data : Bytes} {fragment : Fragment} {used : Nat}
    (h : decode data = .ok (fragment, used)) :
    ∃ moof moofSize header mdatSize, MovieFragment.decode data = .ok (moof, moofSize) ∧
      mediaDataHeader (data.drop moofSize) = .ok header ∧
      MediaData.decode (data.drop moofSize) = .ok (fragment.mdat, mdatSize) ∧
      used = moofSize + mdatSize ∧ fragment.layout = .stored ∧
      moof.shifted ((fragment.payloadOffset : Int) - (moofSize + header.headerSize : Nat)) =
        .ok fragment.moof := by
  unfold decode at h
  obtain ⟨⟨moof, moofSize⟩, hmoof, h⟩ := bind_eq_ok.1 h
  obtain ⟨header, hheader, h⟩ := bind_eq_ok.1 h
  obtain ⟨⟨mdat, mdatSize⟩, hmdat, h⟩ := bind_eq_ok.1 h
  obtain ⟨moved, hmoved, h⟩ := bind_eq_ok.1 h
  cases h
  refine ⟨moof, moofSize, header, mdatSize, hmoof, hheader, hmdat, rfl, rfl, ?_⟩
  have hoffset : ({ ofBoxes moof mdat with moof := moved } : Fragment).payloadOffset =
      (ofBoxes moof mdat).payloadOffset := by
    unfold payloadOffset
    rw [MovieFragment.size_of_shifted hmoved]
    rfl
  rwa [hoffset]

/-- A fragment that was read can be written again, into the room that there was for it. -/
theorem accepted_of_decode {data : Bytes} {fragment : Fragment} {used : Nat}
    (h : decode data = .ok (fragment, used)) :
    fragment.Steady ∧
      Box.size fragment.moof + Box.size fragment.mdat +
        Box.room [.moof, .traf] (data.drop used) ≤ Box.room [.moof, .traf] data := by
  obtain ⟨moof, moofSize, header, mdatSize, hmoof, -, hmdat, rfl, hlayout, hmoved⟩ :=
    decode_eq_ok h
  obtain ⟨hsteady, hfirst⟩ := MovieFragment.accepted_of_decode hmoof
  obtain ⟨_, hparse, -, rfl, hcontents⟩ := Box.decodeAs_eq_ok hmdat
  have hsecond := (MediaData.accepted hcontents).add_room_le hparse [.moof, .traf]
  have hmoof := MovieFragment.eq_of_shifted hmoved
  refine ⟨⟨hlayout, ?_⟩, ?_⟩
  · rw [hmoof]
    exact hsteady.shift _
  · rw [List.drop_drop] at hsecond
    rw [hmoof, MovieFragment.size_shift]
    omega

end Fragment
end FragmentedMp4
