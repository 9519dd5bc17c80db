import FragmentedMp4.Proofs.Fragment.SingleRun
import FragmentedMp4.Segment.Recut
import Mathlib.Data.List.Forall2

/-!
# Cutting a segment is grouping its samples

Where a segment is cut depends on the durations of its samples alone. Here the cutting is
done on the samples themselves, and the fragments that are really built are shown to go
along with it step by step: each of them holds the samples of one group, and is made for the
track and with the sequence number that the first sample of the group comes from.
-/
namespace FragmentedMp4

/-- A sample, with the sequence number and the track of the fragment that it was read from. -/
structure TracedSample where
  sequenceNumber : UInt32
  trackId : UInt32
  sample : Sample
deriving DecidableEq

/-- The samples of a fragment, with where they come from. -/
def Fragment.traced (trex : Option TrackExtends) (fragment : Fragment) :
    Except Failure (List TracedSample) :=
  match fragment.trackId? with
  | none => .error (.error (.missingBox .traf "moof"))
  | some trackId =>
    (fragment.samples trex).map (List.map (TracedSample.mk fragment.sequenceNumber trackId))

/-- Samples that are being grouped. -/
structure Grouping where
  closed : List (List TracedSample)
  current : List TracedSample

namespace Grouping

def start : Grouping :=
  ⟨[], []⟩

def elapsed (grouping : Grouping) : Nat :=
  (grouping.current.map (·.sample.duration.toNat)).sum

def close (grouping : Grouping) : Grouping :=
  ⟨grouping.closed ++ if grouping.current.isEmpty then [] else [grouping.current], []⟩

/-- Closes the open group before the next sample, if no time has passed in it. -/
def ready (grouping : Grouping) : Grouping :=
  if grouping.elapsed = 0 then grouping.close else grouping

def push (grouping : Grouping) (traced : TracedSample) : Grouping :=
  ⟨grouping.closed, grouping.current ++ [traced]⟩

def cut (target : Nat) (grouping : Grouping) : Grouping :=
  if target ≤ grouping.elapsed then grouping.close else grouping

def place (target : Nat) (grouping : Grouping) (traced : TracedSample) : Grouping :=
  (grouping.ready.push traced).cut target

def groups (target : Nat) (samples : List TracedSample) : List (List TracedSample) :=
  (samples.foldl (place target) start).close.closed

def placed (grouping : Grouping) : List TracedSample :=
  grouping.closed.flatten ++ grouping.current

@[simp] theorem placed_close (grouping : Grouping) :
    grouping.close.placed = grouping.placed := by
  unfold placed close
  split_ifs with hempty
  · simp [List.isEmpty_iff.1 hempty]
  · simp

theorem placed_place (target : Nat) (grouping : Grouping) (traced : TracedSample) :
    (grouping.place target traced).placed = grouping.placed ++ [traced] := by
  have hready : grouping.ready.placed = grouping.placed := by
    unfold ready
    split_ifs
    · exact grouping.placed_close
    · rfl
  have hcut : ∀ filled : Grouping, (filled.cut target).placed = filled.placed := by
    intro filled
    unfold cut
    split_ifs
    · exact filled.placed_close
    · rfl
  rw [place, hcut, ← hready, push, placed, placed, List.append_assoc]

theorem placed_foldl (target : Nat) (samples : List TracedSample) (grouping : Grouping) :
    (samples.foldl (place target) grouping).placed = grouping.placed ++ samples := by
  induction samples generalizing grouping with
  | nil => simp
  | cons traced samples ih =>
    rw [List.foldl_cons, ih, placed_place, List.append_assoc, List.singleton_append]

/-- Grouping loses no sample and keeps the order. -/
theorem flatten_groups (target : Nat) (samples : List TracedSample) :
    (groups target samples).flatten = samples := by
  have hclosed := (samples.foldl (place target) start).placed_close
  rw [placed_foldl] at hclosed
  simpa [placed, close, start, groups] using hclosed

end Grouping

/-- A fragment was built from the samples of a group. -/
def Fragment.HoldsGroup (fragment : Fragment) : List TracedSample → Prop
  | [] => False
  | first :: rest =>
    fragment.Holds first.sequenceNumber first.trackId first.sample (rest.map (·.sample)) ∧
      ∀ traced ∈ rest, traced.trackId = first.trackId

/-- The fragments of a cutting hold the samples of the groups, one each. -/
structure Cutting.Matches (cutting : Cutting) (grouping : Grouping) : Prop where
  closed : List.Forall₂ Fragment.HoldsGroup cutting.closed grouping.closed
  current : match cutting.current with
    | none => grouping.current = []
    | some fragment => fragment.HoldsGroup grouping.current
  elapsed : cutting.elapsed = grouping.elapsed

namespace Cutting.Matches

variable {cutting after : Cutting} {grouping : Grouping}

theorem start : Cutting.start.Matches Grouping.start :=
  ⟨.nil, rfl, rfl⟩

theorem close (h : cutting.Matches grouping) : cutting.close.Matches grouping.close := by
  refine ⟨?_, rfl, rfl⟩
  apply List.rel_append h.closed
  have hcurrent := h.current
  cases hcase : cutting.current with
  | none =>
    rw [hcase] at hcurrent
    rw [show grouping.current = [] from hcurrent]
    exact .nil
  | some fragment =>
    rw [hcase] at hcurrent
    cases hgroup : grouping.current with
    | nil =>
      rw [hgroup] at hcurrent
      exact hcurrent.elim
    | cons first rest =>
      rw [hgroup] at hcurrent
      exact .cons hcurrent .nil

theorem ready (h : cutting.Matches grouping) :
    (if cutting.elapsed = 0 then cutting.close else cutting).Matches grouping.ready := by
  unfold Grouping.ready
  rw [← h.elapsed]
  split_ifs
  · exact h.close
  · exact h

theorem push {sequenceNumber trackId : UInt32} {sample : Sample} (h : cutting.Matches grouping)
    (htaken : ((cutting.current.getD (.ofTracks sequenceNumber [trackId])).appendToTrack sample
      trackId).error = none) :
    Cutting.Matches
      ⟨cutting.closed, some ((cutting.current.getD (.ofTracks sequenceNumber
        [trackId])).appendToTrack sample trackId).fragment,
        cutting.elapsed + sample.duration.toNat⟩
      (grouping.push ⟨sequenceNumber, trackId, sample⟩) := by
  refine ⟨h.closed, ?_, ?_⟩
  · have hcurrent := h.current
    cases hcase : cutting.current with
    | none =>
      rw [hcase] at hcurrent htaken
      have hempty : grouping.current = [] := hcurrent
      simp only [Option.getD_none, Grouping.push, hempty] at htaken ⊢
      exact ⟨Fragment.holds_append_first htaken, by simp⟩
    | some fragment =>
      rw [hcase] at hcurrent htaken
      simp only [Option.getD_some, Grouping.push] at htaken ⊢
      cases hgroup : grouping.current with
      | nil =>
        rw [hgroup] at hcurrent
        exact hcurrent.elim
      | cons first rest =>
        rw [hgroup] at hcurrent
        obtain ⟨hholds, hsame⟩ := hcurrent
        obtain ⟨rfl, hmore⟩ := hholds.append htaken
        refine ⟨by simpa using hmore, ?_⟩
        intro traced hmem
        rcases List.mem_append.1 hmem with hmem | hmem
        · exact hsame traced hmem
        · rw [List.mem_singleton.1 hmem]
  · simp [Grouping.push, Grouping.elapsed, h.elapsed]

theorem cut (h : cutting.Matches grouping) (target : Nat) :
    (if target ≤ cutting.elapsed then cutting.close else cutting).Matches
      (grouping.cut target) := by
  unfold Grouping.cut
  rw [← h.elapsed]
  split_ifs
  · exact h.close
  · exact h

/-- One sample is placed in the same way on both sides. -/
theorem place {target : Nat} {sequenceNumber trackId : UInt32} {sample : Sample}
    (h : cutting.Matches grouping)
    (hplace : cutting.place target sequenceNumber trackId sample = .ok after) :
    after.Matches (grouping.place target ⟨sequenceNumber, trackId, sample⟩) := by
  unfold Cutting.place at hplace
  simp only at hplace
  split at hplace
  · cases hplace
  · rename_i htaken
    cases hplace
    exact (h.ready.push htaken).cut target

theorem foldlM {target : Nat} {sequenceNumber trackId : UInt32} {samples : List Sample}
    (h : cutting.Matches grouping)
    (hfold : samples.foldlM (Cutting.place target sequenceNumber trackId) cutting = .ok after) :
    after.Matches ((samples.map (TracedSample.mk sequenceNumber trackId)).foldl
      (Grouping.place target) grouping) := by
  induction samples generalizing cutting grouping with
  | nil =>
    cases hfold
    exact h
  | cons sample samples ih =>
    rw [List.foldlM_cons] at hfold
    obtain ⟨middle, hplace, hrest⟩ := bind_eq_ok.1 hfold
    exact ih (h.place hplace) hrest

theorem placeFragment {target : Nat} {trex : TrackExtends} {fragment : Fragment}
    (h : cutting.Matches grouping)
    (hplace : cutting.placeFragment target trex fragment = .ok after) :
    ∃ source, fragment.traced (some trex) = .ok source ∧
      after.Matches (source.foldl (Grouping.place target) grouping) := by
  unfold Cutting.placeFragment at hplace
  unfold Fragment.traced
  cases hid : fragment.trackId? with
  | none =>
    rw [hid] at hplace
    cases hplace
  | some trackId =>
    rw [hid] at hplace
    obtain ⟨samples, hsamples, hfold⟩ := bind_eq_ok.1 hplace
    simp only [hsamples]
    exact ⟨_, rfl, h.foldlM (mapError_eq_ok.1 hfold)⟩

end Cutting.Matches

namespace Segment

theorem foldlM_placeFragment {target : Nat} {trex : TrackExtends} {fragments : List Fragment}
    (start : Nat) {cutting after : Cutting} {grouping : Grouping} (h : cutting.Matches grouping)
    (hfold : (fragments.zipIdx start).foldlM (fun cutting (fragment, i) =>
      atFragment i (cutting.placeFragment target trex fragment)) cutting = .ok after) :
    ∃ source, fragments.mapM (Fragment.traced (some trex)) = .ok source ∧
      after.Matches (source.flatten.foldl (Grouping.place target) grouping) := by
  induction fragments generalizing start cutting grouping with
  | nil =>
    cases hfold
    exact ⟨[], rfl, h⟩
  | cons fragment fragments ih =>
    rw [List.zipIdx_cons, List.foldlM_cons] at hfold
    obtain ⟨middle, hplace, hlater⟩ := bind_eq_ok.1 hfold
    obtain ⟨first, hfirst, hmiddle⟩ := h.placeFragment (mapError_eq_ok.1 hplace)
    obtain ⟨rest, hrest, hafter⟩ := ih (start + 1) hmiddle hlater
    refine ⟨first :: rest, ?_, ?_⟩
    · rw [List.mapM_cons, hfirst, hrest]
      rfl
    · rw [List.flatten_cons, List.foldl_append]
      exact hafter

/-- The fragments that a segment is cut into hold the groups of its samples, one each. -/
theorem recut_groups {segment : Segment} {trex : TrackExtends} {target : Nat}
    {outputs : List Fragment} (h : segment.recut trex target = .ok outputs) :
    ∃ source, segment.fragments.mapM (Fragment.traced (some trex)) = .ok source ∧
      List.Forall₂ Fragment.HoldsGroup outputs (Grouping.groups target source.flatten) := by
  unfold recut at h
  obtain ⟨_, _, hrest⟩ := bind_eq_ok.1 h
  obtain ⟨cutting, hfold, hclosed⟩ := bind_eq_ok.1 hrest
  cases hclosed
  obtain ⟨source, hsource, hmatches⟩ := foldlM_placeFragment 0 Cutting.Matches.start hfold
  exact ⟨source, hsource, hmatches.close.closed⟩

end Segment
end FragmentedMp4
