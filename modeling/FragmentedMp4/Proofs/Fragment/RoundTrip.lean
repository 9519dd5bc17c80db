import FragmentedMp4.Proofs.Box.Run
import FragmentedMp4.Proofs.Fragment.Size
import FragmentedMp4.Fragment.Encoding

/-!
# Fragments are read back

Track fragments and movie fragments are read back from the children they were written
with, and a fragment from its two boxes. A reader adapts the data offsets to the size that
the movie fragment takes when it is written again; for bytes that were written that is the
size it has, so all offsets stay as they are.
-/
namespace FragmentedMp4

namespace Box

variable {α : Type} [IsBox α]

theorem contentSize_le_size (box : α) : IsBox.contentSize box ≤ size box := by
  rw [size_eq]
  omega

variable [ExactBox α]

/-- A walk over written boxes of one type, each of which changes the state by one step. -/
theorem walk_boxes {σ : Type} {step : σ → BoxHeader → Bytes → Except Error σ} {next : σ → α → σ}
    {boxes : List α} (hwritable : ∀ box ∈ boxes, Writable box)
    (hstep : ∀ state, ∀ box ∈ boxes,
      step state (writtenHeader box) (emission box).bytes = .ok (next state box))
    (state : σ) (rest : Bytes) :
    walk step state (boxes.flatMap (fun box => (emission box).bytes) ++ rest) =
      walk step (boxes.foldl next state) rest := by
  induction boxes generalizing state with
  | nil => rfl
  | cons box boxes ih =>
    rw [List.flatMap_cons, List.append_assoc,
      walk_emission (hwritable box (by simp)) (hstep state box (by simp)), List.foldl_cons]
    exact ih (fun other hmem => hwritable other (by simp [hmem]))
      (fun state other hmem => hstep state other (by simp [hmem])) (next state box)

end Box

namespace TrackFragment

/-- The track fragment with its decode time in the version that is written. -/
def asWritten (track : TrackFragment) : TrackFragment :=
  { track with decodeTime := track.decodeTime.map TrackDecodeTime.asWritten }

@[simp] theorem size_asWritten (track : TrackFragment) :
    Box.size track.asWritten = Box.size track := by
  have htime : (track.asWritten.decodeTime.map (Box.size ·)).getD 0 =
      (track.decodeTime.map (Box.size ·)).getD 0 := by
    unfold asWritten
    cases track.decodeTime with
    | none => rfl
    | some time => exact time.size_asWritten
  rw [size_of_children, size_of_children, htime]
  rfl

theorem contents_of_complete {track : TrackFragment} (h : (IsBox.contents track).error = none) :
    (∀ run ∈ track.runs, (IsBox.contents run).error = none) ∧
      (IsBox.contents track).bytes = (Box.emission track.header).bytes ++
        (track.decodeTime.toList.flatMap fun time => (Box.emission time).bytes) ++
        track.runs.flatMap fun run => (Box.emission run).bytes := by
  change track.contentEmission.error = none at h
  change _ ∧ track.contentEmission.bytes = _
  unfold contentEmission at h ⊢
  obtain ⟨hfront, hruns⟩ := Emission.append_error_eq_none.1 h
  have hall := Emission.concat_error_eq_none.1 hruns
  refine ⟨fun run hmem => hall (Box.emission run) (List.mem_map_of_mem hmem), ?_⟩
  rw [Emission.append_bytes_of_none hfront, Emission.concat_bytes_of_none hall,
    Emission.append_bytes_of_none (Emission.append_error_eq_none.1 hfront).1, List.flatMap_map]
  congr 2
  cases track.decodeTime <;> simp [Emission.put]

theorem complete_of_runs {track : TrackFragment}
    (h : ∀ run ∈ track.runs, (IsBox.contents run).error = none) :
    (IsBox.contents track).error = none := by
  change track.contentEmission.error = none
  unfold contentEmission
  refine Emission.append_error_eq_none.2 ⟨Emission.append_error_eq_none.2 ⟨rfl, ?_⟩, ?_⟩
  · cases track.decodeTime <;> rfl
  · refine Emission.concat_error_eq_none.2 ?_
    intro emission hmem
    obtain ⟨run, hrun, rfl⟩ := List.mem_map.1 hmem
    exact h run hrun

theorem writable_children {track : TrackFragment} (h : Box.Writable track) :
    Box.Writable track.header ∧ (∀ time ∈ track.decodeTime, Box.Writable time) ∧
      ∀ run ∈ track.runs, Box.Writable run := by
  have hsize := h.size_lt
  have hle := Box.contentSize_le_size track
  have hcontent : IsBox.contentSize track = Box.size track.header +
      (track.decodeTime.map (Box.size ·)).getD 0 + (track.runs.map (Box.size ·)).sum := rfl
  refine ⟨⟨by omega, rfl⟩, ?_, ?_⟩
  · intro time hmem
    rw [Option.mem_def] at hmem
    rw [hmem] at hcontent
    exact ⟨by simp only [Option.map_some, Option.getD_some] at hcontent; omega, rfl⟩
  · intro run hmem
    have hrun : Box.size run ≤ (track.runs.map (Box.size ·)).sum :=
      List.le_sum_of_mem (List.mem_map_of_mem hmem)
    exact ⟨by omega, (contents_of_complete h.complete).1 run hmem⟩

theorem addChild_header {header : TrackFragmentHeader} (h : Box.Writable header) :
    addChild ⟨none, none, []⟩ (Box.writtenHeader header) (Box.emission header).bytes =
      .ok ⟨some header, none, []⟩ := by
  have hdecode := TrackFragmentHeader.decode_emission h []
  rw [List.append_nil] at hdecode
  unfold addChild
  rw [if_pos ⟨rfl, rfl⟩]
  simp only [hdecode, bind, Except.bind]
  rfl

theorem addChild_decodeTime (found : Children) {time : TrackDecodeTime} (h : Box.Writable time)
    (hnone : found.decodeTime = none) :
    addChild found (Box.writtenHeader time) (Box.emission time).bytes =
      .ok { found with decodeTime := some time.asWritten } := by
  have hdecode := TrackDecodeTime.decode_emission h []
  have hname : (Box.writtenHeader time).name ≠ .tfhd := by
    change FourCC.tfdt ≠ FourCC.tfhd
    decide
  rw [List.append_nil] at hdecode
  unfold addChild
  rw [if_neg (fun hand => hname hand.1), if_pos ⟨rfl, hnone⟩]
  simp only [hdecode, bind, Except.bind]
  rfl

theorem addChild_run {run : TrackRun} (h : Box.Writable run) (hcount : run.Countable)
    (found : Children) :
    addChild found (Box.writtenHeader run) (Box.emission run).bytes =
      .ok { found with runs := found.runs ++ [run] } := by
  have hdecode := TrackRun.decode_emission h hcount []
  have hname : (Box.writtenHeader run).name = .trun := rfl
  have hheader : (Box.writtenHeader run).name ≠ .tfhd := by
    change FourCC.trun ≠ FourCC.tfhd
    decide
  have htime : (Box.writtenHeader run).name ≠ .tfdt := by
    change FourCC.trun ≠ FourCC.tfdt
    decide
  rw [List.append_nil] at hdecode
  unfold addChild
  rw [if_neg (fun hand => hheader hand.1), if_neg (fun hand => htime hand.1), if_pos hname]
  simp only [hdecode, bind, Except.bind]
  rfl

theorem foldl_addRun (runs : List TrackRun) (found : Children) :
    runs.foldl (fun found run => { found with runs := found.runs ++ [run] }) found =
      { found with runs := found.runs ++ runs } := by
  induction runs generalizing found with
  | nil => simp
  | cons run runs ih => simp [ih]

theorem decodeContents_body {track : TrackFragment} (h : Box.Writable track)
    (hcount : ∀ run ∈ track.runs, run.Countable) :
    decodeContents (Box.body track) = .ok track.asWritten := by
  obtain ⟨hheader, htime, hruns⟩ := writable_children h
  have hbody : Box.body track = (Box.emission track.header).bytes ++
      ((track.decodeTime.toList.flatMap fun time => (Box.emission time).bytes) ++
        (track.runs.flatMap (fun run => (Box.emission run).bytes) ++ [])) := by
    rw [List.append_nil, ← List.append_assoc, ← (contents_of_complete h.complete).2]
    rfl
  have hsecond : ∀ rest, Box.walk addChild ⟨some track.header, none, []⟩
      ((track.decodeTime.toList.flatMap fun time => (Box.emission time).bytes) ++ rest) =
        Box.walk addChild ⟨some track.header, track.asWritten.decodeTime, []⟩ rest := by
    intro rest
    unfold asWritten
    cases hcase : track.decodeTime with
    | none => rfl
    | some time =>
      have hwritable := htime time (by rw [hcase]; rfl)
      simpa using Box.walk_emission hwritable
        (addChild_decodeTime ⟨some track.header, none, []⟩ hwritable rfl) rest
  have hthird := Box.walk_boxes hruns (fun found run hmem =>
    addChild_run (hruns run hmem) (hcount run hmem) found)
    ⟨some track.header, track.asWritten.decodeTime, []⟩ []
  unfold decodeContents
  rw [hbody, Box.walk_emission hheader (addChild_header hheader), hsecond, hthird, foldl_addRun,
    Box.walk_nil]
  rfl

theorem decode_emission {track : TrackFragment} (h : Box.Writable track)
    (hcount : ∀ run ∈ track.runs, run.Countable) (rest : Bytes) :
    decode ((Box.emission track).bytes ++ rest) = .ok (track.asWritten, Box.size track) :=
  Box.decodeAs_emission h rfl (decodeContents_body h hcount) rest

end TrackFragment

namespace MovieFragment

def asWritten (moof : MovieFragment) : MovieFragment :=
  { moof with tracks := moof.tracks.map TrackFragment.asWritten }

def Countable (moof : MovieFragment) : Prop :=
  ∀ track ∈ moof.tracks, ∀ run ∈ track.runs, run.Countable

@[simp] theorem size_asWritten (moof : MovieFragment) :
    Box.size moof.asWritten = Box.size moof := by
  simp only [size_of_children, asWritten, List.map_map, Function.comp_def,
    TrackFragment.size_asWritten]

theorem contents_of_complete {moof : MovieFragment} (h : (IsBox.contents moof).error = none) :
    (∀ track ∈ moof.tracks, (IsBox.contents track).error = none) ∧
      (IsBox.contents moof).bytes = (Box.emission moof.header).bytes ++
        moof.tracks.flatMap fun track => (Box.emission track).bytes := by
  change moof.contentEmission.error = none at h
  change _ ∧ moof.contentEmission.bytes = _
  unfold contentEmission at h ⊢
  obtain ⟨hheader, htracks⟩ := Emission.append_error_eq_none.1 h
  have hall := Emission.concat_error_eq_none.1 htracks
  refine ⟨fun track hmem => hall (Box.emission track) (List.mem_map_of_mem hmem), ?_⟩
  rw [Emission.append_bytes_of_none hheader, Emission.concat_bytes_of_none hall, List.flatMap_map]

theorem complete_of_tracks {moof : MovieFragment}
    (h : ∀ track ∈ moof.tracks, (IsBox.contents track).error = none) :
    (IsBox.contents moof).error = none := by
  change moof.contentEmission.error = none
  unfold contentEmission
  refine Emission.append_error_eq_none.2 ⟨rfl, Emission.concat_error_eq_none.2 ?_⟩
  intro emission hmem
  obtain ⟨track, htrack, rfl⟩ := List.mem_map.1 hmem
  exact h track htrack

theorem writable_children {moof : MovieFragment} (h : Box.Writable moof) :
    Box.Writable moof.header ∧ ∀ track ∈ moof.tracks, Box.Writable track := by
  have hsize := h.size_lt
  have hle := Box.contentSize_le_size moof
  have hcontent : IsBox.contentSize moof =
      Box.size moof.header + (moof.tracks.map (Box.size ·)).sum := rfl
  refine ⟨⟨by omega, rfl⟩, ?_⟩
  intro track hmem
  have htrack : Box.size track ≤ (moof.tracks.map (Box.size ·)).sum :=
    List.le_sum_of_mem (List.mem_map_of_mem hmem)
  exact ⟨by omega, (contents_of_complete h.complete).1 track hmem⟩

theorem addChild_header {header : MovieFragmentHeader} (h : Box.Writable header) :
    addChild ⟨none, []⟩ (Box.writtenHeader header) (Box.emission header).bytes =
      .ok ⟨some header, []⟩ := by
  have hdecode := MovieFragmentHeader.decode_emission h []
  rw [List.append_nil] at hdecode
  unfold addChild
  rw [if_pos ⟨rfl, rfl⟩]
  simp only [hdecode, bind, Except.bind]
  rfl

theorem addChild_track {track : TrackFragment} (h : Box.Writable track)
    (hcount : ∀ run ∈ track.runs, run.Countable) (found : Children) :
    addChild found (Box.writtenHeader track) (Box.emission track).bytes =
      .ok { found with tracks := found.tracks ++ [track.asWritten] } := by
  have hdecode := TrackFragment.decode_emission h hcount []
  have hname : (Box.writtenHeader track).name = .traf := rfl
  have hheader : (Box.writtenHeader track).name ≠ .mfhd := by
    change FourCC.traf ≠ FourCC.mfhd
    decide
  rw [List.append_nil] at hdecode
  unfold addChild
  rw [if_neg (fun hand => hheader hand.1), if_pos hname]
  simp only [hdecode, bind, Except.bind]
  rfl

theorem foldl_addTrack (tracks : List TrackFragment) (found : Children) :
    tracks.foldl (fun found track =>
        { found with tracks := found.tracks ++ [track.asWritten] }) found =
      { found with tracks := found.tracks ++ tracks.map TrackFragment.asWritten } := by
  induction tracks generalizing found with
  | nil => simp
  | cons track tracks ih => simp [ih]

/-- A movie fragment is read back, with the versions of its decode times as written. -/
theorem decodeContents_body {moof : MovieFragment} (h : Box.Writable moof)
    (hcount : moof.Countable) : decodeContents (Box.body moof) = .ok moof.asWritten := by
  obtain ⟨hheader, htracks⟩ := writable_children h
  have hbody : Box.body moof = (Box.emission moof.header).bytes ++
      (moof.tracks.flatMap (fun track => (Box.emission track).bytes) ++ []) := by
    rw [List.append_nil, ← (contents_of_complete h.complete).2]
    rfl
  have hwalk := Box.walk_boxes htracks (fun found track hmem =>
    addChild_track (htracks track hmem) (hcount track hmem) found) ⟨some moof.header, []⟩ []
  unfold decodeContents
  rw [hbody, Box.walk_emission hheader (addChild_header hheader), hwalk, foldl_addTrack,
    Box.walk_nil]
  rfl

theorem decode_emission {moof : MovieFragment} (h : Box.Writable moof) (hcount : moof.Countable)
    (rest : Bytes) :
    decode ((Box.emission moof).bytes ++ rest) = .ok (moof.asWritten, Box.size moof) :=
  Box.decodeAs_emission h rfl (decodeContents_body h hcount) rest

end MovieFragment

namespace Fragment

theorem headerSize_mdat (mdat : MediaData) :
    mdat.headerSize = (Box.writtenHeader mdat).headerSize := by
  have hsize := Box.size_eq mdat
  have hcontent : IsBox.contentSize mdat = mdat.payload.length := rfl
  have hfront : (Box.front mdat).length = (Box.writtenHeader mdat).headerSize := by
    rw [Box.front, List.length_append]
    rfl
  unfold MediaData.headerSize
  omega

/-- A fragment is read back from its two boxes, with all data offsets as they were. -/
theorem decode_boxes {moof : MovieFragment} {mdat : MediaData} (hmoof : Box.Writable moof)
    (hmdat : Box.Writable mdat) (hcount : moof.Countable) (rest : Bytes) :
    decode ((Box.emission moof).bytes ++ ((Box.emission mdat).bytes ++ rest)) =
      .ok (ofBoxes moof.asWritten mdat, Box.size moof + Box.size mdat) := by
  have hdrop : ((Box.emission moof).bytes ++ ((Box.emission mdat).bytes ++ rest)).drop
      (Box.size moof) = (Box.emission mdat).bytes ++ rest := Box.drop_emission hmoof _
  have hheader : mediaDataHeader ((Box.emission mdat).bytes ++ rest) =
      .ok (Box.writtenHeader mdat) := by
    unfold mediaDataHeader
    rw [Box.parse_emission hmdat]
    exact if_pos rfl
  have hdelta : ((ofBoxes moof.asWritten mdat).payloadOffset : Int) -
      (Box.size moof + (Box.writtenHeader mdat).headerSize : Nat) = 0 := by
    unfold payloadOffset
    rw [← headerSize_mdat]
    simp [ofBoxes]
  unfold decode
  simp only [MovieFragment.decode_emission hmoof hcount, bind, Except.bind, hdrop, hheader,
    MediaData.decode_emission hmdat, hdelta, MovieFragment.shifted_zero]
  rfl

end Fragment
end FragmentedMp4
