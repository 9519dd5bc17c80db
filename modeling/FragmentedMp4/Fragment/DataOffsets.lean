import FragmentedMp4.Fragment.Basic

/-!
# Moving data offsets

When the movie fragment grows or shrinks, the payload behind it moves, and every
data offset that counts from the start of the movie fragment moves with it. The
offsets of a track fragment that continues the data of the one before stay.

Moving stops at the first offset that would leave the 32-bit range; the ones in
front of it have been moved by then.
-/

namespace FragmentedMp4

/-- A signed 32-bit word for an offset, if it fits one. -/
def offsetWord? (offset : Int) : Option Int32 :=
  if -0x80000000 ≤ offset ∧ offset < 0x80000000 then some (Int32.ofInt offset) else none

theorem toInt_of_offsetWord? {offset : Int} {word : Int32} (h : offsetWord? offset = some word) :
    word.toInt = offset := by
  unfold offsetWord? at h
  split at h
  · cases h
    rename_i hr
    exact Int32.toInt_ofInt_of_le hr.1 hr.2
  · cases h

theorem offsetWord?_toInt (word : Int32) : offsetWord? word.toInt = some word := by
  unfold offsetWord?
  rw [if_pos ⟨word.le_toInt, word.toInt_lt⟩, Int32.ofInt_toInt]

/-- The data offset of a run cannot be represented. -/
def Error.offsetOutOfRange : Error :=
  .invalidBox .trun .offsetOutOfRange

/-- Applies a change to the items of a list in order, up to the first one that it
fails for, and says whether it came through. -/
def changeInOrder {α : Type} (change : α → α × Bool) : List α → List α × Bool
  | [] => ([], true)
  | x :: xs =>
    match change x with
    | (x, false) => (x :: xs, false)
    | (x, true) =>
      let (xs, done) := changeInOrder change xs
      (x :: xs, done)

/-- A change that goes through everywhere is a map. -/
theorem changeInOrder_of_all {α : Type} {change : α → α × Bool} {xs : List α}
    (h : ∀ x ∈ xs, (change x).2 = true) :
    changeInOrder change xs = (xs.map fun x => (change x).1, true) := by
  induction xs with
  | nil => rfl
  | cons x xs ih =>
    have hx := h x (List.mem_cons_self ..)
    rw [changeInOrder]
    split
    · simp_all
    · rename_i y heq
      rw [ih fun z hz => h z (List.mem_cons_of_mem _ hz)]
      simp [heq]

theorem changeInOrder_eq_true {α : Type} {change : α → α × Bool} {xs : List α}
    (h : (changeInOrder change xs).2 = true) : ∀ x ∈ xs, (change x).2 = true := by
  induction xs with
  | nil => simp
  | cons x xs ih =>
    rw [changeInOrder] at h
    split at h
    · simp at h
    · rename_i y heq
      intro z hz
      rcases List.mem_cons.1 hz with rfl | hz
      · simp [heq]
      · exact ih h z hz

namespace TrackRun

def shift (delta : Int) (run : TrackRun) : TrackRun × Bool :=
  match run.dataOffset with
  | none => (run, true)
  | some offset =>
    match offsetWord? (offset.toInt + delta) with
    | none => (run, false)
    | some moved => ({ run with dataOffset := some moved }, true)

end TrackRun

namespace TrackFragment

/-- Whether data offsets count from a place that moves with the movie fragment. The
first track fragment has no other to continue. -/
def isRelativeToMoof (isFirst : Bool) (track : TrackFragment) : Bool :=
  isFirst || track.header.baseIsMoof || track.header.baseDataOffset.isSome

def shift (delta : Int) (isFirst : Bool) (track : TrackFragment) : TrackFragment × Bool :=
  if track.isRelativeToMoof isFirst then
    let (runs, done) := changeInOrder (TrackRun.shift delta) track.runs
    ({ track with runs }, done)
  else (track, true)

def shiftAll (delta : Int) : List TrackFragment → List TrackFragment × Bool
  | [] => ([], true)
  | track :: tracks =>
    match track.shift delta true with
    | (track, false) => (track :: tracks, false)
    | (track, true) =>
      let (tracks, done) := changeInOrder (shift delta false) tracks
      (track :: tracks, done)

end TrackFragment

namespace MovieFragment

/-- Moves all data offsets that count from the start of the movie fragment, and says
whether all of them could be moved. -/
def shift (delta : Int) (moof : MovieFragment) : MovieFragment × Bool :=
  if delta = 0 then (moof, true)
  else
    let (tracks, done) := TrackFragment.shiftAll delta moof.tracks
    ({ moof with tracks }, done)

def shifted (delta : Int) (moof : MovieFragment) : Except Error MovieFragment :=
  match moof.shift delta with
  | (moved, true) => .ok moved
  | (_, false) => .error .offsetOutOfRange

@[simp] theorem shift_zero (moof : MovieFragment) : moof.shift 0 = (moof, true) := rfl

@[simp] theorem shifted_zero (moof : MovieFragment) : moof.shifted 0 = .ok moof := rfl

end MovieFragment
end FragmentedMp4
