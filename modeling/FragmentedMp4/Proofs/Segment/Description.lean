import FragmentedMp4.Proofs.Box.Description
import FragmentedMp4.Proofs.Segment.WrittenBoxes

/-!
# The description of a segment is the outline of its bytes

A segment is described without its bytes, by one more traversal over its boxes. Where the bytes
can be written in the stored layout, the boxes that are found in them are the boxes that are
described: in the same order and at the same depth, with the same sizes, versions and flags.
Index boxes that wait for a fragment are in neither.
-/
namespace FragmentedMp4

open WriteStep

/-- An action that puts the text of a description of these titles behind whatever is on a
stream. -/
def Draws (levels : DetailLevels) (indent step : String) (action : Writing BoundedStream Unit)
    (titles : List BoxTitle) : Prop :=
  ∃ lines, Describes levels indent step titles lines ∧
    ∀ held, action ⟨none, held⟩ = .ok () ⟨none, held ++ Text.utf8 (Line.textOf lines)⟩

namespace Draws

variable {levels : DetailLevels} {indent step : String} {action next : Writing BoundedStream Unit}
  {titles others : List BoxTitle}

theorem nil : Draws levels indent step (pure ()) [] := by
  have htext : Text.utf8 (Line.textOf []) = [] := rfl
  refine ⟨[], .nil, fun held => ?_⟩
  rw [htext, List.append_nil]
  rfl

theorem append (hfirst : Draws levels indent step action titles)
    (hsecond : Draws levels indent step next others) :
    Draws levels indent step (action >>= fun _ => next) (titles ++ others) := by
  obtain ⟨lines, hlines, hput⟩ := hfirst
  obtain ⟨more, hmore, hnext⟩ := hsecond
  have htext : Text.utf8 (Line.textOf (lines ++ more)) =
      Text.utf8 (Line.textOf lines) ++ Text.utf8 (Line.textOf more) := by
    simp [Line.textOf, Text.utf8]
  refine ⟨lines ++ more, hlines.append hmore, fun held => ?_⟩
  change EStateM.bind action (fun _ => next) ⟨none, held⟩ = _
  simp only [EStateM.bind, hput]
  rw [hnext, htext, List.append_assoc]

theorem wrapping (wrap : Error → Error) (h : Draws levels indent step action titles) :
    Draws levels indent step (Writing.wrapping wrap action) titles := by
  obtain ⟨lines, hlines, hput⟩ := h
  exact ⟨lines, hlines, fun held => wrapping_apply_ok (hput held)⟩

theorem forM {α : Type} {actionOf : α → Writing BoundedStream Unit}
    {titlesOf : α → List BoxTitle} {xs : List α}
    (h : ∀ x ∈ xs, Draws levels indent step (actionOf x) (titlesOf x)) :
    Draws levels indent step (xs.forM actionOf) (xs.flatMap titlesOf) := by
  induction xs with
  | nil => exact nil
  | cons x xs ih =>
    obtain ⟨hfirst, hrest⟩ := List.forall_mem_cons.1 h
    exact hfirst.append (ih hrest)

theorem describe {α : Type} [IsBox α] {box : α} (h : Box.Writable box)
    (hlines : Describes levels indent step titles (Box.lines box levels indent step)) :
    Draws levels indent step (Box.describe box levels indent step) titles :=
  ⟨_, hlines, fun _ => if_neg (Nat.not_le_of_lt h.size_lt)⟩

theorem describe_fields {α : Type} [IsBox α] [FieldBox α] {box : α} (h : Box.Writable box)
    (levels : DetailLevels) (indent step : String) :
    Draws levels indent step (Box.describe box levels indent step) [.of 0 box] := by
  have hlines := Describes.lines_of_fields levels indent step 0 box
  rw [indentation_zero] at hlines
  exact describe h hlines

end Draws

namespace Fragment

def titles (fragment : Fragment) : List BoxTitle :=
  fragment.moof.titles 0 ++ [.of 0 fragment.mdat]

theorem draws {fragment : Fragment} (hmoof : Box.Writable fragment.moof)
    (hmdat : Box.Writable fragment.mdat) (levels : DetailLevels) (indent step : String) :
    Draws levels indent step (fragment.describe levels indent step) fragment.titles := by
  have hlines := fragment.moof.describes levels indent step 0
  rw [indentation_zero] at hlines
  exact (Draws.describe hmoof hlines).append (.describe_fields hmdat levels indent step)

end Fragment

namespace SegmentPart

def titles (part : SegmentPart) : List BoxTitle :=
  part.indexes.map (.of 0) ++ part.fragment.titles

theorem draws {part : SegmentPart} (h : ∀ box ∈ part.boxes, Box.Writable box)
    (levels : DetailLevels) (indent step : String) :
    Draws levels indent step (do
      part.indexes.forM fun index =>
        Writing.wrapping (.inBox .sidx) (Box.describe index levels indent step)
      part.fragment.describe levels indent step) part.titles := by
  obtain ⟨hindexes, hmoof, hmdat⟩ := writable_of_boxes h
  unfold titles
  rw [List.map_eq_flatMap]
  refine Draws.append (.forM fun index hmem => ?_) (Fragment.draws hmoof hmdat levels indent step)
  exact (Draws.describe_fields (hindexes index hmem) levels indent step).wrapping _

end SegmentPart

namespace Segment

def titles (segment : Segment) : List BoxTitle :=
  segment.segmentType.toList.map (.of 0) ++ segment.parts.flatMap SegmentPart.titles

theorem writable_of_boxes {segment : Segment} (h : ∀ box ∈ segment.boxes, Box.Writable box) :
    (∀ box ∈ segment.segmentType.toList, Box.Writable box) ∧
      ∀ part ∈ segment.parts, ∀ box ∈ part.boxes, Box.Writable box := by
  constructor
  · intro box hmem
    have hbox := h (.segmentType box) (List.mem_append_left _ (List.mem_map_of_mem hmem))
    exact ⟨hbox.size_lt, hbox.complete⟩
  · intro part hpart box hmem
    exact h box (List.mem_append_right _ (List.mem_flatMap.2 ⟨part, hpart, hmem⟩))

theorem draws {segment : Segment} (h : ∀ box ∈ segment.boxes, Box.Writable box)
    (levels : DetailLevels) (indent step : String) :
    Draws levels indent step (segment.describe levels indent step) segment.titles := by
  obtain ⟨htype, hparts⟩ := writable_of_boxes h
  -- The traversal counts the parts, for the sake of its errors only.
  have hcounted : segment.parts.flatMap SegmentPart.titles =
      segment.parts.zipIdx.flatMap fun pair => pair.1.titles := by
    have hfirst := List.flatMap_map (f := Prod.fst) (g := SegmentPart.titles) segment.parts.zipIdx
    rwa [List.zipIdx_map_fst] at hfirst
  unfold describe visit titles
  rw [List.map_eq_flatMap, hcounted]
  refine Draws.append (.forM fun box hmem => ?_) (.forM ?_)
  · exact (Draws.describe_fields (htype box hmem) levels indent step).wrapping _
  · rintro ⟨part, i⟩ hmem
    have hpart := hparts part (List.fst_mem_of_mem_zipIdx hmem)
    exact (SegmentPart.draws hpart levels indent step).wrapping _

end Segment
end FragmentedMp4
