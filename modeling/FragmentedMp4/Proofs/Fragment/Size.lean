import FragmentedMp4.Proofs.Box.Exact
import FragmentedMp4.Fragment.DataOffsets

/-!
# Sizes inside a movie fragment

The size of a movie fragment is a function of the sizes of its children. Data offsets take
the same room whatever their value, so moving them changes no size.
-/
namespace FragmentedMp4

namespace TrackFragment

theorem size_of_children (track : TrackFragment) :
    Box.size track = Box.sizeOfBody (Box.size track.header +
      (track.decodeTime.map (Box.size ·)).getD 0 + (track.runs.map (Box.size ·)).sum) := by
  change Box.sizeOfBody (0 + _) = _
  rw [Nat.zero_add]
  rfl

end TrackFragment

namespace MovieFragment

theorem size_of_children (moof : MovieFragment) :
    Box.size moof =
      Box.sizeOfBody (Box.size moof.header + (moof.tracks.map (Box.size ·)).sum) := by
  change Box.sizeOfBody (0 + _) = _
  rw [Nat.zero_add]
  rfl

end MovieFragment

theorem map_changeInOrder {α β : Type} {change : α → α × Bool} {f : α → β}
    (h : ∀ x, f (change x).1 = f x) (xs : List α) :
    (changeInOrder change xs).1.map f = xs.map f := by
  induction xs with
  | nil => rfl
  | cons x xs ih =>
    have hx := h x
    rw [changeInOrder]
    split <;> rename_i heq <;> rw [heq] at hx <;> simp [hx, ih]

theorem TrackRun.size_shift (delta : Int) (run : TrackRun) :
    Box.size (run.shift delta).1 = Box.size run := by
  unfold shift
  split
  · rfl
  · rename_i offset hoffset
    split
    · rfl
    · simp [Box.size, IsBox.word, IsBox.contentSize, fields, hoffset, Box.wordSize,
        OptionalField.size]

theorem TrackFragment.size_shift (delta : Int) (isFirst : Bool) (track : TrackFragment) :
    Box.size (track.shift delta isFirst).1 = Box.size track := by
  unfold shift
  split_ifs
  · simp only [size_of_children, map_changeInOrder (TrackRun.size_shift delta)]
  · rfl

/-- What moving offsets keeps of each track fragment, it keeps of all of them. -/
theorem TrackFragment.map_shiftAll {β : Type} {f : TrackFragment → β} {delta : Int}
    (h : ∀ isFirst track, f (shift delta isFirst track).1 = f track) (tracks : List TrackFragment) :
    (shiftAll delta tracks).1.map f = tracks.map f := by
  cases tracks with
  | nil => rfl
  | cons track tracks =>
    have hfirst := h true track
    rw [shiftAll]
    split <;> rename_i heq <;> rw [heq] at hfirst
    · simp [hfirst]
    · simp [hfirst, map_changeInOrder (h false)]

/-- Moving data offsets keeps the size, even if not all of them can be moved. -/
theorem MovieFragment.size_shift (delta : Int) (moof : MovieFragment) :
    Box.size (moof.shift delta).1 = Box.size moof := by
  unfold shift
  split_ifs
  · rfl
  · simp only [size_of_children, TrackFragment.map_shiftAll (TrackFragment.size_shift delta)]

theorem MovieFragment.eq_of_shifted {delta : Int} {moof moved : MovieFragment}
    (h : moof.shifted delta = .ok moved) : moved = (moof.shift delta).1 := by
  unfold shifted at h
  split at h
  · rename_i heq
    rw [heq]
    cases h
    rfl
  · cases h

theorem MovieFragment.size_of_shifted {delta : Int} {moof moved : MovieFragment}
    (h : moof.shifted delta = .ok moved) : Box.size moved = Box.size moof := by
  rw [eq_of_shifted h, size_shift]

end FragmentedMp4
