import FragmentedMp4.Proofs.Box.Accepted
import FragmentedMp4.Proofs.Fragment.RoundTrip

/-!
# The outline of written boxes

`Box.outline` goes over some bytes and lists the boxes that it finds, each in front of the
boxes inside it, with the type, the size and the version and flags that stand there. Nothing
but the bytes is looked at. For boxes that were written, the outline consists of the titles
that the values of the boxes have.
-/
namespace FragmentedMp4

/-- What the front of a box says, and the number of boxes around it. -/
structure BoxTitle where
  depth : Nat
  name : FourCC
  size : Nat
  word : Option VersionFlags
deriving DecidableEq

def BoxTitle.of {α : Type} [IsBox α] (depth : Nat) (box : α) : BoxTitle :=
  ⟨depth, IsBox.name box, Box.size box, IsBox.word box⟩

namespace Box

def holdsBoxes (name : FourCC) : Bool :=
  name ∈ [.moof, .traf]

def carriesWord (name : FourCC) : Bool :=
  name ∈ [.sidx, .mfhd, .tfhd, .tfdt, .trun, .trex]

/-- The version and flags in front of the contents of a box, if its type has them. -/
def storedWord (name : FourCC) (contents : Bytes) : Except Error (Option VersionFlags) :=
  if carriesWord name then (Reader.word.run name contents).map some else .ok none

/-- The boxes that fill some bytes, each in front of the boxes inside it. -/
def outline (depth : Nat) (data : Bytes) : Except Error (List BoxTitle) :=
  if data.isEmpty then .ok []
  else
    match _h : BoxHeader.parse data with
    | .error error => .error error
    | .ok header => do
      let word ← storedWord header.name (header.contents data)
      let inner ←
        (if holdsBoxes header.name then outline (depth + 1) (header.contents data) else .ok [])
      let later ← outline depth (data.drop header.size)
      return ⟨depth, header.name, header.size, word⟩ :: inner ++ later
termination_by data.length
decreasing_by
  · have hcontents := length_contents _h
    have hbounds := BoxHeader.parse_bounds _h
    omega
  · exact BoxHeader.length_drop_lt _h

/-- Bytes in which these boxes are found, whatever boxes come behind them. -/
def Outlines (depth : Nat) (bytes : Bytes) (titles : List BoxTitle) : Prop :=
  ∀ rest later, outline depth rest = .ok later →
    outline depth (bytes ++ rest) = .ok (titles ++ later)

theorem outline_nil (depth : Nat) : outline depth [] = .ok [] := by
  rw [outline]
  exact if_pos rfl

namespace Outlines

variable {depth : Nat} {bytes more : Bytes} {titles others : List BoxTitle}

theorem outline_eq (h : Outlines depth bytes titles) : outline depth bytes = .ok titles := by
  simpa using h [] [] (outline_nil depth)

theorem nil : Outlines depth [] [] :=
  fun _ _ hlater => hlater

theorem append (hfirst : Outlines depth bytes titles) (hsecond : Outlines depth more others) :
    Outlines depth (bytes ++ more) (titles ++ others) := by
  intro rest later hlater
  rw [List.append_assoc, List.append_assoc]
  exact hfirst _ _ (hsecond _ _ hlater)

theorem flatMap {α : Type} {bytesOf : α → Bytes} {titlesOf : α → List BoxTitle} {xs : List α}
    (h : ∀ x ∈ xs, Outlines depth (bytesOf x) (titlesOf x)) :
    Outlines depth (xs.flatMap bytesOf) (xs.flatMap titlesOf) := by
  induction xs with
  | nil => exact nil
  | cons x xs ih =>
    obtain ⟨hfirst, hrest⟩ := List.forall_mem_cons.1 h
    exact hfirst.append (ih hrest)

end Outlines

variable {α : Type} [IsBox α]

theorem storedWord_body {box : α} (h : carriesWord (IsBox.name box) = (IsBox.word box).isSome) :
    storedWord (IsBox.name box) (body box) = .ok (IsBox.word box) := by
  unfold storedWord body
  rw [h]
  cases IsBox.word box with
  | none => rfl
  | some word =>
    have hread := Reader.Reads.word word (IsBox.name box) 0 (IsBox.contents box).bytes
    change (Reader.word.run (IsBox.name box) (word.bytes ++ (IsBox.contents box).bytes)).map some =
      .ok (some word)
    unfold Reader.run
    rw [hread]
    rfl

variable [ExactBox α]

/-- A written box is found with its title, in front of the boxes in its body. -/
theorem outlines_emission {box : α} {depth : Nat} {inner : List BoxTitle} (h : Writable box)
    (hword : carriesWord (IsBox.name box) = (IsBox.word box).isSome)
    (hinner : (if holdsBoxes (IsBox.name box) then outline (depth + 1) (body box) else .ok []) =
      .ok inner) :
    Outlines depth (emission box).bytes (.of depth box :: inner) := by
  intro rest later hlater
  have hsome : ((emission box).bytes ++ rest).isEmpty = false := by
    simp [emission_ne_nil h]
  rw [outline, hsome, if_neg Bool.false_ne_true]
  split
  · rename_i error herror
    rw [parse_emission h] at herror
    cases herror
  · rename_i header hheader
    rw [parse_emission h] at hheader
    cases hheader
    have hname : (writtenHeader box).name = IsBox.name box := rfl
    rw [contents_emission h, drop_emission h, hname, storedWord_body hword, hinner, hlater]
    rfl

end Box

/-- Lines that describe fields, with one indentation. -/
def Line.AreFields (indent : String) (lines : List Line) : Prop :=
  ∀ line ∈ lines, ∃ key value, line = .field indent key value

/-- A type of box without boxes inside. Below its title, at most its fields are described, and
none of them at level 0. -/
class FieldBox (α : Type) [IsBox α] : Prop where
  not_holdsBoxes (box : α) : Box.holdsBoxes (IsBox.name box) = false
  carriesWord (box : α) : Box.carriesWord (IsBox.name box) = (IsBox.word box).isSome
  details_fields (box : α) (levels : DetailLevels) (level : Nat) (indent step : String) :
    Line.AreFields indent (IsBox.details box levels level indent step)
  details_zero (box : α) (levels : DetailLevels) (indent step : String) :
    IsBox.details box levels 0 indent step = []

theorem Box.outlines_of_fields {α : Type} [IsBox α] [ExactBox α] [FieldBox α] {box : α}
    (h : Box.Writable box) (depth : Nat) :
    Box.Outlines depth (Box.emission box).bytes [.of depth box] := by
  refine Box.outlines_emission h (FieldBox.carriesWord box) ?_
  rw [FieldBox.not_holdsBoxes box]
  rfl

theorem Box.Outlines.fields {α : Type} [IsBox α] [ExactBox α] [FieldBox α] {boxes : List α}
    {depth : Nat} (h : ∀ box ∈ boxes, Box.Writable box) :
    Box.Outlines depth (boxes.flatMap fun box => (Box.emission box).bytes)
      (boxes.map (.of depth)) := by
  rw [List.map_eq_flatMap]
  exact .flatMap fun box hmem => outlines_of_fields (h box hmem) depth

namespace Line.AreFields

variable {indent : String} {lines : List Line}

theorem nil (indent : String) : AreFields indent [] :=
  fun _ hmem => by cases hmem

theorem cons {key value : String} (h : AreFields indent lines) :
    AreFields indent (.field indent key value :: lines) :=
  List.forall_mem_cons.2 ⟨⟨key, value, rfl⟩, h⟩

theorem optional {α : Type} {key : String} {text : α → String} {field : Option α}
    (h : AreFields indent lines) :
    AreFields indent (lines ++ OptionalField.line indent key text field) := by
  refine List.forall_mem_append.2 ⟨h, ?_⟩
  cases field with
  | none => exact nil indent
  | some value => exact (nil indent).cons

theorem mark {key : String} {holds : Bool} (h : AreFields indent lines) :
    AreFields indent (lines ++ OptionalField.mark indent key holds) := by
  refine List.forall_mem_append.2 ⟨h, ?_⟩
  cases holds with
  | false => exact nil indent
  | true => exact (nil indent).cons

theorem entries {α : Type} {key value : Nat → α → String} {xs : List α} {least level : Nat}
    (h : AreFields indent lines) :
    AreFields indent (lines ++ if least ≤ level then
      xs.mapIdx fun i x => .field indent (key i x) (value i x) else []) := by
  refine List.forall_mem_append.2 ⟨h, ?_⟩
  split_ifs
  · intro line hmem
    obtain ⟨i, hi, rfl⟩ := List.mem_mapIdx.1 hmem
    exact ⟨_, _, rfl⟩
  · exact nil indent

theorem fromLevel {least level : Nat} (h : AreFields indent lines) :
    AreFields indent (if level < least then [] else lines) := by
  split_ifs
  · exact nil indent
  · exact h

end Line.AreFields

section Instances

open Line.AreFields

instance : FieldBox SegmentType where
  not_holdsBoxes _ := rfl
  carriesWord _ := rfl
  details_fields _ _ _ indent _ := fromLevel (nil indent).cons.cons.cons
  details_zero _ _ _ _ := rfl

instance : FieldBox SegmentIndex where
  not_holdsBoxes _ := rfl
  carriesWord _ := rfl
  details_fields _ _ _ indent _ := fromLevel (nil indent).cons.cons.cons.cons.cons.entries
  details_zero _ _ _ _ := rfl

instance : FieldBox MovieFragmentHeader where
  not_holdsBoxes _ := rfl
  carriesWord _ := rfl
  details_fields _ _ _ indent _ := fromLevel (nil indent).cons
  details_zero _ _ _ _ := rfl

instance : FieldBox TrackFragmentHeader where
  not_holdsBoxes _ := rfl
  carriesWord _ := rfl
  details_fields _ _ _ indent _ :=
    fromLevel (nil indent).cons.optional.optional.optional.optional.optional.mark.mark
  details_zero _ _ _ _ := rfl

instance : FieldBox TrackDecodeTime where
  not_holdsBoxes _ := rfl
  carriesWord _ := rfl
  details_fields _ _ _ indent _ := fromLevel (nil indent).cons
  details_zero _ _ _ _ := rfl

instance : FieldBox TrackRun where
  not_holdsBoxes _ := rfl
  carriesWord _ := rfl
  details_fields _ _ _ indent _ := fromLevel (nil indent).cons.optional.optional.entries
  details_zero _ _ _ _ := rfl

instance : FieldBox MediaData where
  not_holdsBoxes _ := rfl
  carriesWord _ := rfl
  details_fields _ _ _ indent _ := fromLevel (nil indent).cons
  details_zero _ _ _ _ := rfl

end Instances

namespace TrackFragment

def titles (depth : Nat) (track : TrackFragment) : List BoxTitle :=
  .of depth track :: .of (depth + 1) track.header ::
    (track.decodeTime.toList.map (.of (depth + 1)) ++ track.runs.map (.of (depth + 1)))

theorem outlines_emission {track : TrackFragment} (h : Box.Writable track) (depth : Nat) :
    Box.Outlines depth (Box.emission track).bytes (track.titles depth) := by
  obtain ⟨hheader, htime, hruns⟩ := writable_children h
  have htimes : Box.Outlines (depth + 1)
      (track.decodeTime.toList.flatMap fun time => (Box.emission time).bytes)
      (track.decodeTime.toList.map (.of (depth + 1))) :=
    .fields fun time hmem => htime time (Option.mem_toList.1 hmem)
  have hinner := ((Box.outlines_of_fields hheader (depth + 1)).append htimes).append (.fields hruns)
  rw [← (contents_of_complete h.complete).2] at hinner
  exact Box.outlines_emission h rfl hinner.outline_eq

end TrackFragment

namespace MovieFragment

def titles (depth : Nat) (moof : MovieFragment) : List BoxTitle :=
  .of depth moof :: .of (depth + 1) moof.header ::
    moof.tracks.flatMap (TrackFragment.titles (depth + 1))

theorem outlines_emission {moof : MovieFragment} (h : Box.Writable moof) (depth : Nat) :
    Box.Outlines depth (Box.emission moof).bytes (moof.titles depth) := by
  obtain ⟨hheader, htracks⟩ := writable_children h
  have hinner := (Box.outlines_of_fields hheader (depth + 1)).append
    (.flatMap fun track hmem => TrackFragment.outlines_emission (htracks track hmem) (depth + 1))
  rw [← (contents_of_complete h.complete).2] at hinner
  exact Box.outlines_emission h rfl hinner.outline_eq

end MovieFragment
end FragmentedMp4
