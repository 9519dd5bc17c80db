import FragmentedMp4.Proofs.Segment.WrittenBoxes

/-!
# The first box of a segment

The box that a segment begins with is looked up apart from the traversal that writes it: it is
the segment type, else the first index box of the first bucket, else the first movie fragment.
As long as there are no fragments, the first bucket holds the index boxes that wait for one, and
those are not written. So the first box is the one that the written bytes begin with, unless
there are no bytes at all and an index box waits.
-/
namespace FragmentedMp4

open WriteStep

namespace Segment

variable {segment : Segment}

theorem indexesBefore_zero (segment : Segment) :
    segment.indexesBefore 0 = (segment.parts.head?.map (·.indexes)).getD segment.trailing := by
  unfold indexesBefore indexBuckets
  cases segment.parts with
  | nil => cases segment.trailing <;> rfl
  | cons part parts => rfl

/-- The lookup finds the first box that the traversal goes over. -/
theorem firstBox_of_boxes {box : AnyBox} {rest : List AnyBox} (h : segment.boxes = box :: rest) :
    segment.firstBox = .ok box := by
  unfold boxes at h
  unfold firstBox
  rw [indexesBefore_zero]
  cases htype : segment.segmentType with
  | some segmentType =>
    rw [htype] at h
    cases h
    rfl
  | none =>
    rw [htype, Option.toList_none, List.map_nil, List.nil_append] at h
    cases hparts : segment.parts with
    | nil =>
      rw [hparts] at h
      cases h
    | cons part parts =>
      rw [hparts, List.flatMap_cons, SegmentPart.boxes, Fragment.boxes] at h
      simp only [fragments, hparts]
      cases hindexes : part.indexes with
      | nil =>
        rw [hindexes] at h
        cases h
        simp [hindexes]
      | cons index indexes =>
        rw [hindexes] at h
        cases h
        simp [hindexes]

/-- Where the traversal goes over nothing, the lookup can still find an index box that waits. -/
theorem firstBox_of_no_boxes (h : segment.boxes = []) :
    segment.firstBox =
      (segment.trailing.head?.map fun index => .ok (.segmentIndex index)).getD
        (.error .noBoxes) := by
  obtain ⟨htype, hparts⟩ := List.append_eq_nil_iff.1 h
  have hnone : segment.segmentType = none := by simpa using htype
  have hempty : segment.parts = [] := by
    cases hcase : segment.parts with
    | nil => rfl
    | cons part parts => simp [hcase, SegmentPart.boxes, Fragment.boxes] at hparts
  unfold firstBox
  rw [indexesBefore_zero]
  simp only [hnone, hempty, fragments, List.head?_nil, List.map_nil, Option.map_none,
    Option.getD_none]
  cases segment.trailing <;> rfl

/-- The first box of the segment is the one that some bytes begin with: there is none exactly if
there are no bytes, and what is written of it by itself stands at their start. -/
structure BeginsWithFirstBox (segment : Segment) (bytes : Bytes) : Prop where
  noBoxes_iff : segment.firstBox = .error .noBoxes ↔ bytes = []
  written_first : ∀ box, segment.firstBox = .ok box →
    ∃ first, Box.writeStream box (.empty none) = .ok () ⟨none, first⟩ ∧ first <+: bytes

theorem bytesOf_cons_ne_nil {box : AnyBox} (h : Box.Writable box) (rest : List AnyBox) :
    bytesOf (box :: rest) ≠ [] :=
  List.append_ne_nil_of_left_ne_nil (Box.emission_ne_nil h) _

theorem beginsWithFirstBox_of_boxes {box : AnyBox} {rest : List AnyBox}
    (hboxes : segment.boxes = box :: rest) (h : Box.Writable box) :
    segment.BeginsWithFirstBox (bytesOf (box :: rest)) := by
  have hfirst := firstBox_of_boxes hboxes
  have hsome := bytesOf_cons_ne_nil h rest
  refine ⟨⟨?_, fun hnone => absurd hnone hsome⟩, ?_⟩
  · intro hnone
    rw [hfirst] at hnone
    cases hnone
  · intro other hother
    rw [hfirst] at hother
    cases hother
    exact ⟨_, Box.writeStream_of_writable h [], List.prefix_append _ _⟩

theorem beginsWithFirstBox_nil_iff (hboxes : segment.boxes = []) :
    segment.BeginsWithFirstBox [] ↔ segment.trailing = [] := by
  have hfirst := firstBox_of_no_boxes hboxes
  cases htrailing : segment.trailing with
  | nil =>
    rw [htrailing] at hfirst
    refine iff_of_true ⟨iff_of_true hfirst rfl, ?_⟩ rfl
    intro box hbox
    rw [hfirst] at hbox
    cases hbox
  | cons index waiting =>
    rw [htrailing] at hfirst
    refine iff_of_false ?_ (List.cons_ne_nil _ _)
    intro hbegins
    have hnone := hbegins.noBoxes_iff.2 rfl
    rw [hfirst] at hnone
    cases hnone

/-- When a segment is written with its runs as they are stored, its bytes begin with its first
box, except if there are no bytes and an index box waits for a fragment: then the first box is
that index box. -/
theorem beginsWithFirstBox_iff {stream : BoundedStream} (hlayout : segment.layout = .stored)
    (hwritten : segment.writeStream (.empty none) = .ok () stream) :
    (segment.BeginsWithFirstBox stream.bytes ↔
      (stream.bytes = [] → segment.trailing = [])) ∧
    ∀ index waiting, stream.bytes = [] → segment.trailing = index :: waiting →
      segment.firstBox = .ok (.segmentIndex index) := by
  obtain ⟨hwritable, rfl⟩ := boxes_of_writeStream hlayout hwritten
  cases hboxes : segment.boxes with
  | nil =>
    have hfirst := firstBox_of_no_boxes hboxes
    refine ⟨(beginsWithFirstBox_nil_iff hboxes).trans ⟨fun h _ => h, fun h => h rfl⟩, ?_⟩
    intro index waiting _ hwaiting
    rw [hfirst, hwaiting]
    rfl
  | cons box rest =>
    have hbox : Box.Writable box := hwritable box (by simp [hboxes])
    have hsome := bytesOf_cons_ne_nil hbox rest
    exact ⟨iff_of_true (beginsWithFirstBox_of_boxes hboxes hbox) fun hnone => absurd hnone hsome,
      fun _ _ hnone => absurd hnone hsome⟩

/-- A segment without type that begins with an index box, while another one waits. -/
theorem beginsWithFirstBox_behind_index :
    let first : SegmentIndex := ⟨0, 1, 1000, 0, 0, []⟩
    let last : SegmentIndex := ⟨0, 2, 1000, 0, 0, []⟩
    let segment := (((ofType none).addIndex first).addFragment (.ofTracks 1 [7])).addIndex last
    segment.layout = .stored ∧
      ∃ stream, segment.writeStream (.empty none) = .ok () stream ∧
        segment.firstBox = .ok (.segmentIndex first) ∧
        segment.BeginsWithFirstBox stream.bytes := by
  intro first last segment
  have hlayout : segment.layout = .stored := rfl
  have hnone : firstFailure? segment.prepared.writeSteps = none := by decide +kernel
  have hwritten := writeStream_of_no_failure hnone
  have hbytes : bytesOf (completeBoxes segment.prepared.writeSteps) ≠ [] := by decide +kernel
  have hbegins := (beginsWithFirstBox_iff hlayout hwritten).1.2 fun h => absurd h hbytes
  exact ⟨hlayout, _, hwritten, rfl, hbegins⟩

/-- A segment that holds nothing but an index box that waits is written with no bytes, and yet
has a first box. -/
theorem firstBox_waits :
    let index : SegmentIndex := ⟨0, 1, 1000, 0, 0, []⟩
    let segment := (ofType none).addIndex index
    segment.layout = .stored ∧ segment.writeStream (.empty none) = .ok () ⟨none, []⟩ ∧
      segment.firstBox = .ok (.segmentIndex index) ∧ ¬ segment.BeginsWithFirstBox [] := by
  intro index segment
  refine ⟨rfl, rfl, rfl, ?_⟩
  intro hbegins
  have hnone := hbegins.noBoxes_iff.2 rfl
  cases hnone

end Segment
end FragmentedMp4
