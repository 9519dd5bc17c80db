import FragmentedMp4.Proofs.Box.Outline

/-!
# Descriptions follow the outline

The description of a box is a third traversal, next to the computation of sizes and the
writing of bytes. At every detail level it consists of the title lines of the box and of the
boxes inside it, in the order of the outline, each indented by its depth; what the levels add
are lines for fields below the titles.
-/
namespace FragmentedMp4

def indentation (indent step : String) (depth : Nat) : String :=
  indent ++ String.join (List.replicate depth step)

def BoxTitle.line (indent step : String) (title : BoxTitle) : Line :=
  .title (indentation indent step title.depth) title.name title.size title.word

theorem indentation_zero (indent step : String) : indentation indent step 0 = indent := by
  simp [indentation]

theorem indentation_succ (indent step : String) (depth : Nat) :
    indentation indent step (depth + 1) = indentation indent step depth ++ step := by
  simp [indentation, List.replicate_succ', String.append_assoc]

/-- The lines of some titles, in their order. Below each title there may be lines for fields, one
step further in, but none if the level of the type is 0. -/
inductive Describes (levels : DetailLevels) (indent step : String) :
    List BoxTitle → List Line → Prop
  | nil : Describes levels indent step [] []
  | cons {title : BoxTitle} {titles : List BoxTitle} {fields lines : List Line}
      (are_fields : Line.AreFields (indentation indent step (title.depth + 1)) fields)
      (none_at_zero : levels.level title.name = 0 → fields = [])
      (rest : Describes levels indent step titles lines) :
      Describes levels indent step (title :: titles)
        (title.line indent step :: (fields ++ lines))

namespace Describes

variable {levels : DetailLevels} {indent step : String} {titles others : List BoxTitle}
  {lines more : List Line}

theorem append (hfirst : Describes levels indent step titles lines)
    (hsecond : Describes levels indent step others more) :
    Describes levels indent step (titles ++ others) (lines ++ more) := by
  induction hfirst with
  | nil => exact hsecond
  | cons are_fields none_at_zero rest ih =>
    rw [List.cons_append, List.cons_append, List.append_assoc]
    exact .cons are_fields none_at_zero ih

theorem flatMap {α : Type} {titlesOf : α → List BoxTitle} {linesOf : α → List Line} {xs : List α}
    (h : ∀ x ∈ xs, Describes levels indent step (titlesOf x) (linesOf x)) :
    Describes levels indent step (xs.flatMap titlesOf) (xs.flatMap linesOf) := by
  induction xs with
  | nil => exact nil
  | cons x xs ih =>
    obtain ⟨hfirst, hrest⟩ := List.forall_mem_cons.1 h
    exact hfirst.append (ih hrest)

variable {α : Type} [IsBox α]

theorem lines_of_fields [FieldBox α] (levels : DetailLevels) (indent step : String) (depth : Nat)
    (box : α) :
    Describes levels indent step [.of depth box]
      (Box.lines box levels (indentation indent step depth) step) := by
  have hfields := FieldBox.details_fields box levels (levels.level (IsBox.name box))
    (indentation indent step (depth + 1)) step
  have hbox : Describes levels indent step [.of depth box] _ := .cons hfields
    (fun hzero => hzero ▸ FieldBox.details_zero box levels _ step) .nil
  rwa [List.append_nil, indentation_succ] at hbox

theorem lines_of_boxes {box : α} {depth : Nat} {inner : List BoxTitle}
    (h : Describes levels indent step inner (IsBox.details box levels
      (levels.level (IsBox.name box)) (indentation indent step (depth + 1)) step)) :
    Describes levels indent step (.of depth box :: inner)
      (Box.lines box levels (indentation indent step depth) step) := by
  have hbox : Describes levels indent step (.of depth box :: inner) _ :=
    .cons (.nil _) (fun _ => rfl) h
  rwa [List.nil_append, indentation_succ] at hbox

theorem fields [FieldBox α] (levels : DetailLevels) (indent step : String) (depth : Nat)
    (boxes : List α) :
    Describes levels indent step (boxes.map (.of depth))
      (boxes.flatMap fun box => Box.lines box levels (indentation indent step depth) step) := by
  rw [List.map_eq_flatMap]
  exact flatMap fun box _ => lines_of_fields levels indent step depth box

end Describes

theorem TrackFragment.describes (levels : DetailLevels) (indent step : String) (depth : Nat)
    (track : TrackFragment) :
    Describes levels indent step (track.titles depth)
      (Box.lines track levels (indentation indent step depth) step) := by
  have htime : (track.decodeTime.toList.flatMap fun time =>
      Box.lines time levels (indentation indent step (depth + 1)) step) =
        (track.decodeTime.map
          (Box.lines · levels (indentation indent step (depth + 1)) step)).getD [] := by
    cases track.decodeTime with
    | none => rfl
    | some time => exact List.append_nil _
  have hinner := ((Describes.lines_of_fields levels indent step (depth + 1) track.header).append
    (.fields levels indent step (depth + 1) track.decodeTime.toList)).append
      (.fields levels indent step (depth + 1) track.runs)
  rw [htime] at hinner
  exact .lines_of_boxes hinner

theorem MovieFragment.describes (levels : DetailLevels) (indent step : String) (depth : Nat)
    (moof : MovieFragment) :
    Describes levels indent step (moof.titles depth)
      (Box.lines moof levels (indentation indent step depth) step) := by
  have hinner := (Describes.lines_of_fields levels indent step (depth + 1) moof.header).append
    (.flatMap fun track (_ : track ∈ moof.tracks) =>
      track.describes levels indent step (depth + 1))
  exact .lines_of_boxes hinner

end FragmentedMp4
