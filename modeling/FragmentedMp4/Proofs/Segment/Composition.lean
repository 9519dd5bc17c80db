import FragmentedMp4.Proofs.Segment.Buckets
import FragmentedMp4.Proofs.Segment.TopLevel

/-!
# Segments that follow each other

When the bytes of a segment end in front of other bytes and each of its boxes has a given size,
both together are read as the one segment followed by the other. The index boxes that wait at
the end of the first one are in front of the first fragment of the second one then. Boxes that
a reader skips can stand in between.
-/
namespace FragmentedMp4

namespace Segment

/-- The segment with another part; the index boxes that wait come in front of it. -/
def addPart (segment : Segment) (part : SegmentPart) : Segment :=
  { segment with
    parts := segment.parts ++ [⟨segment.trailing ++ part.indexes, part.fragment⟩]
    trailing := [] }

/-- The segment with the parts and the waiting index boxes of another one behind its own. -/
def followedBy (segment later : Segment) : Segment :=
  let joined := later.parts.foldl addPart segment
  { joined with trailing := joined.trailing ++ later.trailing }

section FollowedBy

variable (segment later : Segment)

theorem followedBy_ofType (segmentType : Option SegmentType) (startPosition : UInt64) :
    segment.followedBy { ofType segmentType with startPosition } = segment := by
  unfold followedBy ofType
  simp only [List.foldl_nil, List.append_nil]

theorem followedBy_addIndex (index : SegmentIndex) :
    segment.followedBy (later.addIndex index) = (segment.followedBy later).addIndex index := by
  unfold followedBy addIndex
  simp only [List.append_assoc]

theorem followedBy_addFragment (fragment : Fragment) :
    segment.followedBy (later.addFragment fragment) =
      (segment.followedBy later).addFragment fragment := by
  unfold followedBy addFragment
  simp only [List.foldl_append, List.foldl_cons, List.foldl_nil, addPart, List.append_nil]

theorem segmentType_followedBy : (segment.followedBy later).segmentType = segment.segmentType := by
  obtain ⟨segmentType, parts, trailing, layout, startPosition⟩ := later
  induction parts generalizing segment with
  | nil => rfl
  | cons part parts ih => exact ih (segment.addPart part)

theorem fragments_followedBy :
    (segment.followedBy later).fragments = segment.fragments ++ later.fragments := by
  obtain ⟨segmentType, parts, trailing, layout, startPosition⟩ := later
  induction parts generalizing segment with
  | nil => exact (List.append_nil _).symm
  | cons part parts ih =>
    refine (ih (segment.addPart part)).trans ?_
    simp [fragments, addPart]

/-- The last bucket of the segment and the first one of the other become one. -/
theorem openBuckets_followedBy :
    ∃ first rest, later.openBuckets = first :: rest ∧
      (segment.followedBy later).openBuckets =
        segment.parts.map (·.indexes) ++ (segment.trailing ++ first) :: rest := by
  obtain ⟨segmentType, parts, trailing, layout, startPosition⟩ := later
  induction parts generalizing segment with
  | nil => exact ⟨trailing, [], rfl, rfl⟩
  | cons part parts ih =>
    obtain ⟨first, rest, hlater, hjoined⟩ := ih (segment.addPart part)
    refine ⟨part.indexes, first :: rest, congrArg (part.indexes :: ·) hlater, ?_⟩
    refine hjoined.trans ?_
    simp [addPart]

theorem firstIndex?_followedBy :
    (segment.followedBy later).firstIndex? = (segment.firstIndex? <|> later.firstIndex?) := by
  obtain ⟨first, rest, hlater, hjoined⟩ := segment.openBuckets_followedBy later
  have hall : (segment.followedBy later).openBuckets.flatten =
      segment.openBuckets.flatten ++ later.openBuckets.flatten := by
    rw [hlater, hjoined]
    simp [openBuckets]
  unfold firstIndex?
  rw [← flatten_openBuckets, hall, List.head?_append, flatten_openBuckets, flatten_openBuckets]
  cases segment.indexBuckets.flatten.head? <;> rfl

end FollowedBy

/-- A segment has the fragments of two others, the index boxes in front of each of them, and
between both what waits at the end of the first one and then what begins the second one. -/
structure Joins (first second whole : Segment) : Prop where
  fragments : whole.fragments = first.fragments ++ second.fragments
  before : ∀ i < first.fragments.length, whole.indexesBefore i = first.indexesBefore i
  between : whole.indexesBefore first.fragments.length =
    first.trailing ++ second.indexesBefore 0
  behind : ∀ i, whole.indexesBefore (first.fragments.length + (i + 1)) =
    second.indexesBefore (i + 1)
  firstIndex : whole.firstIndex? = (first.firstIndex? <|> second.firstIndex?)

theorem joins_followedBy (first second : Segment) :
    Joins first second (first.followedBy second) := by
  have hlength : first.fragments.length = (first.parts.map (·.indexes)).length := by
    simp [fragments]
  obtain ⟨bucket, rest, hsecond, hjoined⟩ := first.openBuckets_followedBy second
  refine ⟨first.fragments_followedBy second, ?_, ?_, ?_, first.firstIndex?_followedBy second⟩
  · intro i hi
    rw [hlength] at hi
    rw [indexesBefore_eq, indexesBefore_eq, hjoined, openBuckets, List.getElem?_append_left hi,
      List.getElem?_append_left hi]
  · rw [indexesBefore_eq, indexesBefore_eq, hjoined, hsecond, hlength,
      List.getElem?_append_right le_rfl, Nat.sub_self]
    rfl
  · intro i
    rw [indexesBefore_eq, indexesBefore_eq, hjoined, hsecond, hlength,
      List.getElem?_append_right (Nat.le_add_right _ _), Nat.add_sub_cancel_left]
    rfl

theorem joins_empty {first : Segment} (hparts : first.parts = [])
    (htrailing : first.trailing = []) (second : Segment) : Joins first second second := by
  have hfragments : first.fragments = [] := by rw [fragments, hparts, List.map_nil]
  have hfirst : first.firstIndex? = none := by
    rw [firstIndex?, indexBuckets, hparts, htrailing]
    rfl
  refine ⟨?_, ?_, ?_, ?_, ?_⟩
  · rw [hfragments, List.nil_append]
  · intro i hi
    rw [hfragments] at hi
    cases hi
  · rw [hfragments, htrailing, List.nil_append, List.length_nil]
  · intro i
    rw [hfragments, List.length_nil, Nat.zero_add]
  · rw [hfirst]
    rfl

/-- No box at the top of some bytes is a segment type. -/
def WithoutType (data : Bytes) : Prop :=
  ∀ box ∈ Box.topBoxes data, box.header.name ≠ .styp

instance (data : Bytes) : Decidable (WithoutType data) :=
  inferInstanceAs (Decidable (∀ box ∈ Box.topBoxes data, _))

theorem WithoutType.name_ne {data : Bytes} (h : WithoutType data) {header : BoxHeader}
    (hparse : BoxHeader.parse data = .ok header) : header.name ≠ .styp := by
  apply h ⟨header, data.take header.size⟩
  rw [Box.topBoxes_of_parse hparse]
  exact List.mem_cons_self ..

/-- Some bytes are complete boxes of types that a reader skips. -/
structure Skippable (data : Bytes) : Prop where
  sized : Box.Sized data
  complete : (Box.topBoxes data).flatMap (·.bytes) = data
  unknown : ∀ box ∈ Box.topBoxes data,
    box.header.name ∉ [FourCC.styp, FourCC.sidx, FourCC.moof, FourCC.mdat]

instance (data : Bytes) : Decidable (Skippable data) :=
  decidable_of_iff (Box.Sized data ∧ (Box.topBoxes data).flatMap (·.bytes) = data ∧
      ∀ box ∈ Box.topBoxes data,
        box.header.name ∉ [FourCC.styp, FourCC.sidx, FourCC.moof, FourCC.mdat])
    ⟨fun ⟨sized, complete, unknown⟩ => ⟨sized, complete, unknown⟩,
      fun ⟨sized, complete, unknown⟩ => ⟨sized, complete, unknown⟩⟩

variable {isStart other : Bool} {segment : Segment} {data : Bytes} {header : BoxHeader}

theorem decodeNext_followedBy (isStart : Bool) (hname : header.name ≠ .styp) (front : Segment) :
    (decodeNext other (front.followedBy segment) header data).toOption =
      (decodeNext isStart segment header data).toOption.map fun step =>
        (front.followedBy step.1, step.2) := by
  unfold decodeNext
  rw [if_neg hname, if_neg hname]
  split_ifs with hindex hmoof hmdat
  · cases SegmentIndex.decode data with
    | error error => rfl
    | ok pair =>
      change some ((front.followedBy segment).addIndex pair.1, header.size) = _
      rw [← followedBy_addIndex]
      rfl
  · cases Fragment.decode data with
    | error error => rfl
    | ok pair =>
      change some ((front.followedBy segment).addFragment pair.1, pair.2) = _
      rw [← followedBy_addFragment]
      rfl
  · rfl
  · rfl

/-- Boxes without a segment type are read alike behind another segment. -/
theorem decodeFrom_followedBy (htype : WithoutType data) (front : Segment) :
    (decodeFrom other (front.followedBy segment) data).toOption =
      (decodeFrom isStart segment data).toOption.map front.followedBy := by
  fun_induction decodeFrom isStart segment data generalizing other with
  | case1 isStart segment data hempty =>
    rw [List.isEmpty_iff.1 hempty, decodeFrom_nil]
    rfl
  | case2 isStart segment data hne error hparse =>
    rw [decodeFrom_of_error (by simpa using hne) hparse]
    rfl
  | case3 isStart segment data hne header hparse error hfailed =>
    rw [decodeFrom_of_parse hparse, toOption_bind,
      decodeNext_followedBy isStart (htype.name_ne hparse) front, hfailed]
    rfl
  | case4 isStart segment data hne header hparse next used hnext ih =>
    have hrest : WithoutType (data.drop used) := fun box hmem =>
      htype box (topBoxes_of_next hparse hnext hmem)
    rw [decodeFrom_of_parse hparse, toOption_bind,
      decodeNext_followedBy isStart (htype.name_ne hparse) front, hnext]
    exact ih hrest

theorem decodeNext_skipped
    (hunknown : header.name ∉ [FourCC.styp, FourCC.sidx, FourCC.moof, FourCC.mdat]) :
    decodeNext isStart segment header data = .ok (segment, header.size) := by
  simp only [List.mem_cons, List.not_mem_nil, or_false, not_or] at hunknown
  obtain ⟨hstyp, hsidx, hmoof, hmdat⟩ := hunknown
  rw [decodeNext, if_neg hstyp, if_neg hsidx, if_neg hmoof, if_neg hmdat]

theorem Skippable.split (h : Skippable data) (hparse : BoxHeader.parse data = .ok header) :
    header.name ∉ [FourCC.styp, FourCC.sidx, FourCC.moof, FourCC.mdat] ∧
      Skippable (data.drop header.size) := by
  obtain ⟨hsized, hcomplete, hunknown⟩ := h
  rw [Box.topBoxes_of_parse hparse] at hcomplete hunknown
  rw [List.flatMap_cons] at hcomplete
  nth_rewrite 3 [← List.take_append_drop header.size data] at hcomplete
  refine ⟨hunknown _ (List.mem_cons_self ..), (hsized.split hparse).2, ?_, ?_⟩
  · exact List.append_cancel_left hcomplete
  · exact fun box hmem => hunknown box (List.mem_cons_of_mem _ hmem)

/-- Boxes that are skipped leave the segment as it is. -/
theorem decodeFrom_skippable (h : Skippable data) :
    decodeFrom isStart segment data = .ok segment := by
  fun_induction decodeFrom isStart segment data with
  | case1 isStart segment data hempty => rfl
  | case2 isStart segment data hne error hparse =>
    have hcomplete := h.complete
    rw [Box.topBoxes_of_error hparse] at hcomplete
    exact absurd hcomplete.symm (by simpa using hne)
  | case3 isStart segment data hne header hparse error hfailed =>
    obtain ⟨hunknown, -⟩ := h.split hparse
    rw [decodeNext_skipped hunknown] at hfailed
    cases hfailed
  | case4 isStart segment data hne header hparse next used hnext ih =>
    obtain ⟨hunknown, hrest⟩ := h.split hparse
    rw [decodeNext_skipped hunknown] at hnext
    cases hnext
    exact ih hrest

/-- Whether some bytes are at the very start matters to a segment type at their front only. -/
theorem decodeFrom_isStart
    (h : ∀ box ∈ (Box.topBoxes data).head?, box.header.name ≠ .styp) :
    decodeFrom isStart segment data = decodeFrom other segment data := by
  by_cases hempty : data = []
  · rw [hempty, decodeFrom_nil, decodeFrom_nil]
  · cases hparse : BoxHeader.parse data with
    | error error => rw [decodeFrom_of_error hempty hparse, decodeFrom_of_error hempty hparse]
    | ok header =>
      have hname : header.name ≠ .styp := by
        apply h ⟨header, data.take header.size⟩
        rw [Box.topBoxes_of_parse hparse]
        rfl
      have hnext : decodeNext isStart segment header data =
          decodeNext other segment header data := by
        rw [decodeNext, decodeNext, if_neg hname, if_neg hname]
      rw [decodeFrom_of_parse hparse, decodeFrom_of_parse hparse, hnext]

/-- Two segments in a row are read as one, and what cannot be read on its own cannot be read
behind a segment either, if each box of the first segment has a given size and the second one
brings no segment type where it is not allowed. Boxes of unknown type in between are skipped;
only in front of a segment type that would be the very first box they matter. -/
theorem decodeAt_append {startPosition : UInt64} {front later : Bytes} {first : Segment}
    (hfirst : decodeAt startPosition front = .ok first) (hsized : Box.Sized front)
    (htype : front = [] ∨ WithoutType later) :
    (∀ second, decodeAt startPosition later = .ok second →
      ∃ whole, decodeAt startPosition (front ++ later) = .ok whole ∧
        whole.segmentType = (if front = [] then second.segmentType else first.segmentType) ∧
        Joins first second whole) ∧
    (∀ error, decodeAt startPosition later = .error error →
      ∃ found, decodeAt startPosition (front ++ later) = .error found) ∧
    ∀ unknown, Skippable unknown →
      (front = [] → ∀ box ∈ (Box.topBoxes later).head?, box.header.name ≠ .styp) →
      decodeAt startPosition (front ++ (unknown ++ later)) =
        decodeAt startPosition (front ++ later) := by
  have happend : ∀ rest, decodeAt startPosition (front ++ rest) =
      decodeFrom (true && front.isEmpty) first rest := fun rest =>
    decodeFrom_append hfirst hsized rest
  have hskipped : ∀ unknown, Skippable unknown →
      (front = [] → ∀ box ∈ (Box.topBoxes later).head?, box.header.name ≠ .styp) →
      decodeAt startPosition (front ++ (unknown ++ later)) =
        decodeAt startPosition (front ++ later) := by
    intro unknown hunknown hhead
    rw [happend, happend, decodeFrom_append (decodeFrom_skippable hunknown) hunknown.sized]
    by_cases hempty : front = []
    · exact decodeFrom_isStart (hhead hempty)
    · have hfull : front.isEmpty = false := by simp [hempty]
      rw [hfull, Bool.and_false, Bool.false_and]
  by_cases hempty : front = []
  · subst hempty
    rw [decodeAt, decodeFrom_nil] at hfirst
    cases hfirst
    refine ⟨?_, ?_, hskipped⟩
    · intro second hsecond
      exact ⟨second, hsecond, (if_pos rfl).symm, joins_empty rfl rfl second⟩
    · exact fun error herror => ⟨error, herror⟩
  · have hbehind : (decodeAt startPosition (front ++ later)).toOption =
        (decodeAt startPosition later).toOption.map first.followedBy := by
      rw [happend, decodeAt, ← decodeFrom_followedBy (htype.resolve_left hempty),
        followedBy_ofType]
    refine ⟨?_, ?_, hskipped⟩
    · intro second hsecond
      refine ⟨first.followedBy second, ?_, ?_, joins_followedBy first second⟩
      · rw [hsecond] at hbehind
        exact (eq_ok_iff_of_toOption hbehind _).2 rfl
      · rw [if_neg hempty, segmentType_followedBy]
    · intro error herror
      rw [herror] at hbehind
      cases hwhole : decodeAt startPosition (front ++ later) with
      | error found => exact ⟨found, rfl⟩
      | ok whole =>
        rw [hwhole] at hbehind
        cases hbehind

/-- A segment type and an index box in front of an index box and a fragment. -/
theorem decodeAt_append_indexed :
    let front : Bytes :=
      [0, 0, 0, 16, 115, 116, 121, 112, 109, 115, 100, 104, 0, 0, 0, 0, 0, 0, 0, 32, 115, 105, 100,
        120, 0, 0, 0, 0, 0, 0, 0, 7, 0, 1, 95, 144, 0, 0, 0, 0, 0, 0, 0, 0, 0, 0, 0, 0]
    let later : Bytes :=
      [0, 0, 0, 32, 115, 105, 100, 120, 0, 0, 0, 0, 0, 0, 0, 8, 0, 1, 95, 144, 0, 0, 0, 0, 0, 0, 0,
        0, 0, 0, 0, 0, 0, 0, 0, 24, 109, 111, 111, 102, 0, 0, 0, 16, 109, 102, 104, 100, 0, 0, 0, 0,
        0, 0, 0, 1, 0, 0, 0, 10, 109, 100, 97, 116, 1, 2]
    let unknown : Bytes := [0, 0, 0, 9, 102, 114, 101, 101, 255]
    let first : Segment := { ofType (some ⟨.msdh, 0, []⟩) with
      trailing := [⟨0, 7, 90000, 0, 0, []⟩], startPosition := 64 }
    let second : Segment := { ofType none with
      parts := [⟨[⟨0, 8, 90000, 0, 0, []⟩], .ofBoxes ⟨⟨1⟩, []⟩ ⟨[1, 2]⟩⟩], startPosition := 64 }
    decodeAt 64 front = .ok first ∧ Box.Sized front ∧ WithoutType later ∧
      decodeAt 64 later = .ok second ∧ Skippable unknown ∧
      ∃ whole, decodeAt 64 (front ++ (unknown ++ later)) = .ok whole ∧
        whole.segmentType = first.segmentType ∧ Joins first second whole := by
  intro front later unknown first second
  have hfirst : decodeAt 64 front = .ok first := by decide +kernel
  have hsecond : decodeAt 64 later = .ok second := by decide +kernel
  have hsized : Box.Sized front := by decide +kernel
  have htype : WithoutType later := by decide +kernel
  have hunknown : Skippable unknown := by decide +kernel
  obtain ⟨hjoined, -, hskipped⟩ := decodeAt_append hfirst hsized (.inr htype)
  obtain ⟨whole, hwhole, hwholeType, hjoins⟩ := hjoined second hsecond
  refine ⟨hfirst, hsized, htype, hsecond, hunknown, whole, ?_, hwholeType, hjoins⟩
  rw [hskipped unknown hunknown (fun hempty => absurd hempty (List.cons_ne_nil _ _))]
  exact hwhole

/-- A segment type is not accepted behind a box that is skipped, and a box that extends to the end
takes in what comes behind it. -/
theorem decodeAt_changed_by_unknown :
    let unknown : Bytes := [0, 0, 0, 8, 102, 114, 101, 101]
    let openEnded : Bytes := [0, 0, 0, 0, 102, 114, 101, 101]
    let segmentType : Bytes := [0, 0, 0, 16, 115, 116, 121, 112, 109, 115, 100, 104, 0, 0, 0, 0]
    let index : Bytes :=
      [0, 0, 0, 32, 115, 105, 100, 120, 0, 0, 0, 0, 0, 0, 0, 7, 0, 1, 95, 144, 0, 0, 0, 0, 0, 0, 0,
        0, 0, 0, 0, 0]
    (decodeAt 0 [] = .ok (ofType none) ∧ Box.Sized [] ∧ Skippable unknown ∧
      decodeAt 0 ([] ++ segmentType) = .ok (ofType (some ⟨.msdh, 0, []⟩)) ∧
      decodeAt 0 ([] ++ (unknown ++ segmentType)) =
        .error (.unexpectedBox .styp .lateSegmentType)) ∧
    decodeAt 0 ([] ++ index) = .ok ((ofType none).addIndex ⟨0, 7, 90000, 0, 0, []⟩) ∧
      decodeAt 0 ([] ++ (openEnded ++ index)) = .ok (ofType none) := by
  decide +kernel

end Segment
end FragmentedMp4
