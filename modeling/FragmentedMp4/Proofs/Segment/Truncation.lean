import FragmentedMp4.Proofs.Segment.NormalForm
import FragmentedMp4.Proofs.Segment.TopLevel

/-!
# Segments that are cut off

When each box has a given size, the first bytes of a segment are read exactly if they end
between two steps of reading. For a segment that was written, these are the places behind its
segment type, behind each index box and behind each fragment, and then all that stands before
the place is read. Everywhere else, also between the two boxes of a fragment, nothing is read.
-/
namespace FragmentedMp4

open WriteStep

namespace Segment

/-- Some whole steps of reading take a number of bytes and end with a segment. -/
inductive StopsAt : Bool → Segment → Bytes → Nat → Segment → Prop
  | here (isStart : Bool) (segment : Segment) (data : Bytes) :
      StopsAt isStart segment data 0 segment
  | next {isStart : Bool} {segment middle final : Segment} {header : BoxHeader} {data : Bytes}
      {used count : Nat} (hparse : BoxHeader.parse data = .ok header)
      (hnext : decodeNext isStart segment header data = .ok (middle, used))
      (hrest : StopsAt false middle (data.drop used) count final) :
      StopsAt isStart segment data (used + count) final

section Steps

variable {isStart : Bool} {segment next final state : Segment} {header : BoxHeader} {data : Bytes}
  {used count : Nat}

/-- A step is taken whole or not at all. -/
theorem stopsAt_iff (hparse : BoxHeader.parse data = .ok header)
    (hnext : decodeNext isStart segment header data = .ok (next, used)) :
    StopsAt isStart segment data count state ↔
      (count = 0 ∧ state = segment) ∨
        ∃ more, count = used + more ∧ StopsAt false next (data.drop used) more state := by
  constructor
  · intro h
    cases h with
    | here => exact .inl ⟨rfl, rfl⟩
    | next hfound hstep hrest =>
      rw [hparse] at hfound
      cases hfound
      rw [hnext] at hstep
      cases hstep
      exact .inr ⟨_, rfl, hrest⟩
  · rintro (⟨rfl, rfl⟩ | ⟨more, rfl, hrest⟩)
    · exact .here ..
    · exact .next hparse hnext hrest

theorem stopsAt_nil : StopsAt isStart segment [] count state ↔ count = 0 ∧ state = segment := by
  constructor
  · intro h
    cases h with
    | here => exact ⟨rfl, rfl⟩
    | next hparse hnext hrest =>
      have hbounds := BoxHeader.parse_bounds hparse
      rw [List.length_nil] at hbounds
      omega
  · rintro ⟨rfl, rfl⟩
    exact .here ..

/-- The first bytes are read exactly if they end between two steps. -/
theorem decodeFrom_take_iff (h : decodeFrom isStart segment data = .ok final)
    (hsized : Box.Sized data) (hcount : count ≤ data.length) :
    decodeFrom isStart segment (data.take count) = .ok state ↔
      StopsAt isStart segment data count state := by
  fun_induction decodeFrom isStart segment data generalizing count with
  | case1 isStart segment data hempty =>
    rw [List.isEmpty_iff.1 hempty] at hcount ⊢
    obtain rfl := Nat.le_zero.1 hcount
    rw [stopsAt_nil, List.take_nil, decodeFrom_nil, Except.ok.injEq, eq_comm]
    exact (and_iff_right rfl).symm
  | case2 isStart segment data hne error hparse => cases h
  | case3 isStart segment data hne header hparse error hfailed => cases h
  | case4 isStart segment data hne header hparse next used hnext ih =>
    obtain ⟨hpos, hfits⟩ := decodeNext_used hparse hnext
    rw [stopsAt_iff hparse hnext]
    by_cases hzero : count = 0
    · rw [hzero, List.take_zero, decodeFrom_nil, Except.ok.injEq]
      constructor
      · exact fun hsame => .inl ⟨rfl, hsame.symm⟩
      · rintro (⟨-, hsame⟩ | ⟨more, hmore, -⟩)
        · exact hsame.symm
        · omega
    · by_cases hshort : count < used
      · obtain ⟨error, herror⟩ := decodeFrom_of_cut hparse hnext hsized (Nat.pos_of_ne_zero hzero)
          hshort
        rw [herror]
        constructor
        · intro hread
          cases hread
        · rintro (⟨hsame, -⟩ | ⟨more, hmore, -⟩) <;> omega
      · have hcut : data.take count =
            data.take used ++ (data.drop used).take (count - used) := by
          rw [← List.take_add, Nat.add_sub_cancel' (Nat.not_lt.1 hshort)]
        have hlength : count - used ≤ (data.drop used).length := by
          rw [List.length_drop]
          omega
        rw [hcut, decodeFrom_of_next hparse hnext hsized,
          ih h (hsized.mono (topBoxes_of_next hparse hnext)) hlength]
        constructor
        · exact fun hstops => .inr ⟨_, (Nat.add_sub_cancel' (Nat.not_lt.1 hshort)).symm, hstops⟩
        · rintro (⟨hsame, -⟩ | ⟨more, rfl, hstops⟩)
          · exact absurd hsame hzero
          · rwa [Nat.add_sub_cancel_left]

end Steps

section Boxes

variable {isStart : Bool} {segment final : Segment} {header : BoxHeader} {data rest : Bytes}

theorem decodeNext_index (hname : header.name = .sidx) :
    decodeNext isStart segment header data = (SegmentIndex.decode data >>= fun read =>
      .ok (segment.addIndex read.1, header.size)) := by
  have htype : header.name ≠ .styp := by
    rw [hname]
    decide
  rw [decodeNext, if_neg htype, if_pos hname]
  rfl

theorem decodeNext_fragment (hname : header.name = .moof) :
    decodeNext isStart segment header data =
      ((Fragment.decode data).mapError (.inFragment (segment.parts.length + 1)) >>= fun read =>
        .ok (segment.addFragment read.1, read.2)) := by
  have htype : header.name ≠ .styp := by
    rw [hname]
    decide
  have hindex : header.name ≠ .sidx := by
    rw [hname]
    decide
  rw [decodeNext, if_neg htype, if_neg hindex, if_pos hname]
  rfl

theorem stopsAt_type {box : SegmentType} (h : Box.Writable box) {count : Nat} {state : Segment} :
    StopsAt true segment ((Box.emission box).bytes ++ rest) count state ↔
      (count = 0 ∧ state = segment) ∨ ∃ more, count = Box.size box + more ∧
        StopsAt false { segment with segmentType := some box } rest more state := by
  have hnext : decodeNext true segment (Box.writtenHeader box)
      ((Box.emission box).bytes ++ rest) =
        .ok ({ segment with segmentType := some box }, Box.size box) := by
    have hname : (Box.writtenHeader box).name = .styp := rfl
    rw [decodeNext, if_pos hname, if_neg (by decide)]
    simp only [SegmentType.decode_emission h, bind, Except.bind]
    rfl
  have hdrop : ((Box.emission box).bytes ++ rest).drop (Box.size box) = rest :=
    Box.drop_emission h rest
  rw [stopsAt_iff (Box.parse_emission h rest) hnext, hdrop]

theorem stopsAt_index {index : SegmentIndex} (h : Box.Writable index)
    (hread : decodeFrom isStart segment ((Box.emission index).bytes ++ rest) = .ok final) :
    ∃ read, decodeFrom false (segment.addIndex read) rest = .ok final ∧
      ∀ count state, StopsAt isStart segment ((Box.emission index).bytes ++ rest) count state ↔
        (count = 0 ∧ state = segment) ∨ ∃ more, count = Box.size index + more ∧
          StopsAt false (segment.addIndex read) rest more state := by
  have hparse := Box.parse_emission h rest
  have hdrop : ((Box.emission index).bytes ++ rest).drop (Box.size index) = rest :=
    Box.drop_emission h rest
  rw [decodeFrom_of_parse hparse] at hread
  obtain ⟨⟨next, used⟩, hnext, hread⟩ := bind_eq_ok.1 hread
  have hstep := hnext
  rw [decodeNext_index rfl] at hnext
  obtain ⟨⟨read, size⟩, -, hnext⟩ := bind_eq_ok.1 hnext
  cases hnext
  refine ⟨read, ?_, ?_⟩
  · rwa [← hdrop]
  · intro count state
    rw [stopsAt_iff hparse hstep]
    change _ ∨ (∃ more, count = Box.size index + more ∧ StopsAt false _
      (((Box.emission index).bytes ++ rest).drop (Box.size index)) more state) ↔ _
    rw [hdrop]

theorem stopsAt_fragment {moof : MovieFragment} {mdat : MediaData} (hmoof : Box.Writable moof)
    (hmdat : Box.Writable mdat)
    (hread : decodeFrom isStart segment
      ((Box.emission moof).bytes ++ ((Box.emission mdat).bytes ++ rest)) = .ok final) :
    ∃ read, decodeFrom false (segment.addFragment read) rest = .ok final ∧
      ∀ count state, StopsAt isStart segment
          ((Box.emission moof).bytes ++ ((Box.emission mdat).bytes ++ rest)) count state ↔
        (count = 0 ∧ state = segment) ∨ ∃ more, count = Box.size moof + Box.size mdat + more ∧
          StopsAt false (segment.addFragment read) rest more state := by
  have hparse := Box.parse_emission hmoof ((Box.emission mdat).bytes ++ rest)
  have hfirst : ((Box.emission moof).bytes ++ ((Box.emission mdat).bytes ++ rest)).drop
      (Box.size moof) = (Box.emission mdat).bytes ++ rest := Box.drop_emission hmoof _
  have hsecond : ((Box.emission mdat).bytes ++ rest).drop (Box.size mdat) = rest :=
    Box.drop_emission hmdat rest
  rw [decodeFrom_of_parse hparse] at hread
  obtain ⟨⟨next, used⟩, hnext, hread⟩ := bind_eq_ok.1 hread
  have hstep := hnext
  rw [decodeNext_fragment rfl] at hnext
  obtain ⟨⟨read, taken⟩, hdecode, hnext⟩ := bind_eq_ok.1 hnext
  cases hnext
  have htaken : taken = Box.size moof + Box.size mdat := by
    obtain ⟨_, moofSize, _, mdatSize, hmoofRead, -, hmdatRead, hsum, -⟩ :=
      Fragment.decode_eq_ok (mapError_eq_ok.1 hdecode)
    obtain ⟨rfl, -⟩ := Box.decodeContents_of_decodeAs hparse hmoofRead
    rw [Box.drop_emission hmoof] at hmdatRead
    obtain ⟨rfl, -⟩ := Box.decodeContents_of_decodeAs (Box.parse_emission hmdat rest) hmdatRead
    exact hsum
  subst htaken
  have hdrop : ((Box.emission moof).bytes ++ ((Box.emission mdat).bytes ++ rest)).drop
      (Box.size moof + Box.size mdat) = rest := by
    rw [← List.drop_drop, hfirst, hsecond]
  refine ⟨read, ?_, ?_⟩
  · rwa [← hdrop]
  · intro count state
    rw [stopsAt_iff hparse hstep]
    change _ ∨ (∃ more, count = Box.size moof + Box.size mdat + more ∧ StopsAt false _
      (((Box.emission moof).bytes ++ ((Box.emission mdat).bytes ++ rest)).drop
        (Box.size moof + Box.size mdat)) more state) ↔ _
    rw [hdrop]

end Boxes

def indexesSize (indexes : List SegmentIndex) : Nat :=
  (indexes.map (Box.size ·)).sum

def addIndexes (segment : Segment) (indexes : List SegmentIndex) : Segment :=
  { segment with trailing := segment.trailing ++ indexes }

theorem addIndexes_nil (segment : Segment) : segment.addIndexes [] = segment := by
  rw [addIndexes, List.append_nil]

theorem addIndexes_cons (segment : Segment) (index : SegmentIndex) (indexes : List SegmentIndex) :
    segment.addIndexes (index :: indexes) = (segment.addIndex index).addIndexes indexes := by
  simp only [addIndexes, addIndex, List.append_assoc, List.singleton_append]

theorem stopsAt_indexes {indexes : List SegmentIndex}
    (hwritable : ∀ index ∈ indexes, Box.Writable index) {isStart : Bool} {segment final : Segment}
    {rest : Bytes}
    (h : decodeFrom isStart segment (bytesOf (indexes.map AnyBox.segmentIndex) ++ rest) =
      .ok final) :
    ∃ later read, read.length = indexes.length ∧
      decodeFrom later (segment.addIndexes read) rest = .ok final ∧
      ∀ count state, StopsAt isStart segment
          (bytesOf (indexes.map AnyBox.segmentIndex) ++ rest) count state ↔
        (∃ j, count = indexesSize (indexes.take j) ∧
          state = segment.addIndexes (read.take j)) ∨
        ∃ more, count = indexesSize indexes + more ∧
          StopsAt later (segment.addIndexes read) rest more state := by
  induction indexes generalizing isStart segment with
  | nil =>
    refine ⟨isStart, [], rfl, ?_, ?_⟩
    · rw [addIndexes_nil]
      exact h
    · intro count state
      simp only [List.map_nil, bytesOf_nil, List.nil_append, List.take_nil, addIndexes_nil,
        indexesSize, List.sum_nil, Nat.zero_add]
      constructor
      · exact fun hstops => .inr ⟨count, rfl, hstops⟩
      · rintro (⟨-, rfl, rfl⟩ | ⟨more, rfl, hstops⟩)
        · exact .here ..
        · exact hstops
  | cons index indexes ih =>
    have hindex := hwritable index (List.mem_cons_self ..)
    rw [List.map_cons, bytesOf_cons, List.append_assoc] at h ⊢
    obtain ⟨first, hread, hfirst⟩ := stopsAt_index hindex h
    obtain ⟨later, read, hlength, hrest, hstops⟩ :=
      ih (fun other hmem => hwritable other (List.mem_cons_of_mem _ hmem)) hread
    refine ⟨later, first :: read, congrArg (· + 1) hlength, ?_, ?_⟩
    · rwa [addIndexes_cons]
    · intro count state
      refine (hfirst count state).trans ?_
      simp only [hstops, ← addIndexes_cons]
      constructor
      · rintro (⟨rfl, rfl⟩ | ⟨_, rfl, ⟨j, rfl, rfl⟩ | ⟨more, rfl, hmore⟩⟩)
        · exact .inl ⟨0, rfl, (addIndexes_nil _).symm⟩
        · exact .inl ⟨j + 1, rfl, rfl⟩
        · exact .inr ⟨more, (Nat.add_assoc ..).symm, hmore⟩
      · rintro (⟨j, rfl, rfl⟩ | ⟨more, rfl, hmore⟩)
        · cases j with
          | zero => exact .inl ⟨rfl, addIndexes_nil _⟩
          | succ j => exact .inr ⟨_, rfl, .inl ⟨j, rfl, rfl⟩⟩
        · exact .inr ⟨_, Nat.add_assoc .., .inr ⟨more, rfl, hmore⟩⟩

theorem stopsAt_part {part : SegmentPart} (hwritable : ∀ box ∈ part.boxes, Box.Writable box)
    {isStart : Bool} {segment final : Segment} (htrailing : segment.trailing = []) {rest : Bytes}
    (h : decodeFrom isStart segment (bytesOf part.boxes ++ rest) = .ok final) :
    ∃ read : SegmentPart, read.indexes.length = part.indexes.length ∧
      decodeFrom false { segment with parts := segment.parts ++ [read] } rest = .ok final ∧
      ∀ count state, StopsAt isStart segment (bytesOf part.boxes ++ rest) count state ↔
        (∃ j, count = indexesSize (part.indexes.take j) ∧
          state = { segment with trailing := read.indexes.take j }) ∨
        ∃ more, count = indexesSize part.indexes +
            (Box.size part.fragment.moof + Box.size part.fragment.mdat) + more ∧
          StopsAt false { segment with parts := segment.parts ++ [read] } rest more state := by
  obtain ⟨hindexes, hmoof, hmdat⟩ := SegmentPart.writable_of_boxes hwritable
  rw [part.bytesOf_boxes] at h ⊢
  obtain ⟨later, indexes, hlength, hread, hfirst⟩ := stopsAt_indexes hindexes h
  obtain ⟨fragment, hread, hsecond⟩ := stopsAt_fragment hmoof hmdat hread
  have hwaiting : ∀ read, segment.addIndexes read = { segment with trailing := read } := by
    intro read
    rw [addIndexes, htrailing, List.nil_append]
  have hadded : (segment.addIndexes indexes).addFragment fragment =
      { segment with parts := segment.parts ++ [⟨indexes, fragment⟩] } := by
    rw [hwaiting, addFragment, htrailing]
  refine ⟨⟨indexes, fragment⟩, hlength, ?_, ?_⟩
  · rwa [← hadded]
  · intro count state
    simp only [hfirst, hsecond, hadded]
    simp only [hwaiting]
    constructor
    · rintro (hstops | ⟨_, rfl, ⟨rfl, rfl⟩ | ⟨more, rfl, hmore⟩⟩)
      · exact .inl hstops
      · refine .inl ⟨part.indexes.length, ?_, ?_⟩
        · rw [List.take_length, Nat.add_zero]
        · rw [← hlength, List.take_length]
      · exact .inr ⟨more, (Nat.add_assoc ..).symm, hmore⟩
    · rintro (hstops | ⟨more, rfl, hmore⟩)
      · exact .inl hstops
      · exact .inr ⟨_, Nat.add_assoc .., .inr ⟨more, rfl, hmore⟩⟩

/-- The index boxes in front of the fragment of a part, if there is that part. -/
def indexesAt (parts : List SegmentPart) (place : Nat) : List SegmentIndex :=
  (parts[place]?.map (·.indexes)).getD []

def sizeUpTo (layout : RunLayout) (parts : List SegmentPart) (fragments indexes : Nat) : Nat :=
  ((parts.take fragments).map (partSize layout)).sum +
    indexesSize ((indexesAt parts fragments).take indexes)

section Places

variable (layout : RunLayout) (part : SegmentPart) (parts : List SegmentPart)
  (fragments indexes : Nat)

theorem sizeUpTo_nil : sizeUpTo layout [] fragments indexes = 0 := by
  simp [sizeUpTo, indexesAt, indexesSize]

theorem sizeUpTo_zero : sizeUpTo layout (part :: parts) 0 indexes =
    indexesSize (part.indexes.take indexes) := by
  simp [sizeUpTo, indexesAt]

theorem sizeUpTo_succ : sizeUpTo layout (part :: parts) (fragments + 1) indexes =
    partSize layout part + sizeUpTo layout parts fragments indexes := by
  simp [sizeUpTo, indexesAt, Nat.add_assoc]

theorem indexesSize_take_le (boxes : List SegmentIndex) :
    indexesSize (boxes.take indexes) ≤ indexesSize boxes := by
  unfold indexesSize
  rw [← List.sum_take_add_sum_drop (boxes.map (Box.size ·)) indexes, List.map_take]
  exact Nat.le_add_right _ _

end Places

theorem sizeUpTo_ne {layout : RunLayout} {parts : List SegmentPart} {place : Nat}
    {part : SegmentPart} (hpart : parts[place]? = some part) (fragments indexes : Nat) :
    sizeUpTo layout parts fragments indexes ≠
      sizeUpTo layout parts place part.indexes.length +
        Box.size (part.fragment.moof.inLayout layout) := by
  induction parts generalizing place fragments with
  | nil => cases hpart
  | cons first parts ih =>
    have hmoof : 0 < Box.size (part.fragment.moof.inLayout layout) := Box.sizeOfBody_pos _
    have hmdat : 0 < Box.size part.fragment.mdat := Box.sizeOfBody_pos _
    have hsize : ∀ other : SegmentPart, partSize layout other = indexesSize other.indexes +
        (Box.size (other.fragment.moof.inLayout layout) + Box.size other.fragment.mdat) :=
      fun other => rfl
    cases place with
    | zero =>
      cases hpart
      rw [sizeUpTo_zero, List.take_length]
      cases fragments with
      | zero =>
        have hle := indexesSize_take_le indexes part.indexes
        rw [sizeUpTo_zero]
        omega
      | succ fragments =>
        have hfirst := hsize part
        rw [sizeUpTo_succ]
        omega
    | succ place =>
      rw [sizeUpTo_succ]
      cases fragments with
      | zero =>
        have hle := indexesSize_take_le indexes first.indexes
        have hfirst := hsize first
        rw [sizeUpTo_zero]
        omega
      | succ fragments =>
        have hrest := ih hpart fragments
        rw [sizeUpTo_succ]
        omega

/-- The segment with the first of some parts behind its own, and with the first of the index boxes
that are in front of the next part. -/
def withFirst (segment : Segment) (parts : List SegmentPart) (fragments indexes : Nat) : Segment :=
  { segment with
    parts := segment.parts ++ parts.take fragments
    trailing := (indexesAt parts fragments).take indexes }

theorem stopsAt_parts {layout : RunLayout} {parts written : List SegmentPart}
    (hwritten : List.Forall₂ (SegmentPart.WrittenAs layout) parts written)
    (hwritable : ∀ box ∈ written.flatMap SegmentPart.boxes, Box.Writable box) {isStart : Bool}
    {segment final : Segment}
    (h : decodeFrom isStart segment (bytesOf (written.flatMap SegmentPart.boxes)) = .ok final)
    (htrailing : segment.trailing = []) :
    ∃ read : List SegmentPart,
      read.map (·.indexes.length) = parts.map (·.indexes.length) ∧
      final = { segment with parts := segment.parts ++ read } ∧
      ∀ count state, StopsAt isStart segment (bytesOf (written.flatMap SegmentPart.boxes))
          count state ↔
        ∃ fragments indexes, count = sizeUpTo layout parts fragments indexes ∧
          state = segment.withFirst read fragments indexes := by
  induction hwritten generalizing isStart segment with
  | nil =>
    rw [List.flatMap_nil, bytesOf_nil] at h ⊢
    rw [decodeFrom_nil] at h
    obtain rfl := Except.ok.inj h
    have hnone : ∀ fragments indexes, segment.withFirst [] fragments indexes = segment := by
      intro fragments indexes
      rw [withFirst, indexesAt, List.getElem?_nil, Option.map_none, Option.getD_none,
        List.take_nil, List.take_nil, List.append_nil, ← htrailing]
    refine ⟨[], rfl, by simp, ?_⟩
    intro count state
    simp only [stopsAt_nil, sizeUpTo_nil, hnone, exists_const]
  | @cons part first parts written hfirst _ ih =>
    rw [List.flatMap_cons] at hwritable
    rw [List.flatMap_cons, bytesOf_append] at h ⊢
    obtain ⟨read, hlength, hread, hpart⟩ := stopsAt_part
      (fun box hmem => hwritable box (List.mem_append_left _ hmem)) htrailing h
    obtain ⟨others, hlengths, rfl, hparts⟩ := ih
      (fun box hmem => hwritable box (List.mem_append_right _ hmem)) hread htrailing
    have hsize : indexesSize first.indexes +
        (Box.size first.fragment.moof + Box.size first.fragment.mdat) = partSize layout part := by
      rw [hfirst.indexes, hfirst.size_moof, hfirst.mdat]
      rfl
    refine ⟨read :: others, ?_, ?_, ?_⟩
    · rw [List.map_cons, List.map_cons, hlengths, hlength, hfirst.indexes]
    · rw [List.append_assoc, List.singleton_append]
    · intro count state
      rw [hpart, hsize, hfirst.indexes]
      have hzero : ∀ j, segment.withFirst (read :: others) 0 j =
          { segment with trailing := read.indexes.take j } := by
        intro j
        simp [withFirst, indexesAt]
      have hsucc : ∀ fragments j, segment.withFirst (read :: others) (fragments + 1) j =
          withFirst { segment with parts := segment.parts ++ [read] } others fragments j := by
        intro fragments j
        simp [withFirst, indexesAt]
      simp only [hparts, ← hzero, ← hsucc]
      constructor
      · rintro (⟨j, rfl, rfl⟩ | ⟨_, rfl, fragments, j, rfl, rfl⟩)
        · exact ⟨0, j, (sizeUpTo_zero ..).symm, rfl⟩
        · exact ⟨fragments + 1, j, (sizeUpTo_succ ..).symm, rfl⟩
      · rintro ⟨fragments, j, rfl, rfl⟩
        cases fragments with
        | zero => exact .inl ⟨j, sizeUpTo_zero .., rfl⟩
        | succ fragments => exact .inr ⟨_, sizeUpTo_succ .., fragments, j, rfl, rfl⟩

/-- The first parts of the segment, and the first of the index boxes that are in front of the
next fragment. -/
def upTo (segment : Segment) (fragments indexes : Nat) : Segment :=
  { segment with
    parts := segment.parts.take fragments
    trailing := (indexesAt segment.parts fragments).take indexes }

def extent (segment : Segment) : Nat :=
  segment.size + indexesSize segment.trailing

theorem extent_upTo (segment : Segment) (fragments indexes : Nat) :
    (segment.upTo fragments indexes).extent =
      (segment.segmentType.map (Box.size ·)).getD 0 +
        sizeUpTo segment.layout segment.parts fragments indexes := by
  unfold extent sizeUpTo
  rw [← Nat.add_assoc]
  rfl

/-- Reading what was written of a segment can stop in front of it, behind its segment type, behind
each index box and behind each fragment. -/
theorem stopsAt_written {segment decoded : Segment} {written : List SegmentPart}
    {startPosition : UInt64}
    (hwritten : List.Forall₂ (SegmentPart.WrittenAs segment.layout) segment.parts written)
    (hwritable : ∀ box ∈ { segment with parts := written }.boxes, Box.Writable box)
    (h : decodeAt startPosition (bytesOf { segment with parts := written }.boxes) = .ok decoded) :
    decoded.segmentType = segment.segmentType ∧
      decoded.parts.map (·.indexes.length) = segment.parts.map (·.indexes.length) ∧
      ∀ count state, StopsAt true { ofType none with startPosition }
          (bytesOf { segment with parts := written }.boxes) count state ↔
        (count = 0 ∧ state = { ofType none with startPosition }) ∨
        ∃ fragments indexes, count = (segment.upTo fragments indexes).extent ∧
          state = decoded.upTo fragments indexes := by
  have hparts : ∀ box ∈ written.flatMap SegmentPart.boxes, Box.Writable box :=
    fun box hmem => hwritable box (List.mem_append_right _ hmem)
  obtain ⟨segmentType, parts, trailing, layout, position⟩ := segment
  cases segmentType with
  | none =>
    change decodeFrom true _ (bytesOf (written.flatMap SegmentPart.boxes)) = .ok decoded at h
    obtain ⟨read, hlength, rfl, hstops⟩ := stopsAt_parts hwritten hparts h rfl
    refine ⟨rfl, hlength, ?_⟩
    intro count state
    refine (hstops count state).trans ?_
    simp only [extent_upTo]
    constructor
    · rintro ⟨fragments, j, rfl, rfl⟩
      exact .inr ⟨fragments, j, (Nat.zero_add _).symm, rfl⟩
    · rintro (⟨rfl, rfl⟩ | ⟨fragments, j, rfl, rfl⟩)
      · exact ⟨0, 0, rfl, rfl⟩
      · exact ⟨fragments, j, Nat.zero_add _, rfl⟩
  | some box =>
    have hbox := hwritable (.segmentType box) (List.mem_cons_self ..)
    have htype : Box.Writable box := ⟨hbox.size_lt, hbox.complete⟩
    change decodeFrom true _ ((Box.emission box).bytes ++
      bytesOf (written.flatMap SegmentPart.boxes)) = .ok decoded at h
    rw [decodeFrom_segmentType htype] at h
    obtain ⟨read, hlength, rfl, hstops⟩ := stopsAt_parts hwritten hparts h rfl
    refine ⟨rfl, hlength, ?_⟩
    intro count state
    change StopsAt true _ ((Box.emission box).bytes ++
      bytesOf (written.flatMap SegmentPart.boxes)) count state ↔ _
    rw [stopsAt_type htype]
    simp only [hstops, extent_upTo]
    constructor
    · rintro (hstart | ⟨_, rfl, fragments, j, rfl, rfl⟩)
      · exact .inl hstart
      · exact .inr ⟨fragments, j, rfl, rfl⟩
    · rintro (hstart | ⟨fragments, j, rfl, rfl⟩)
      · exact .inl hstart
      · exact .inr ⟨_, rfl, fragments, j, rfl, rfl⟩

/-- The first bytes of a segment that was written, in either layout, and can be read: if they end
in front of it, behind the segment type, behind an index box or behind a fragment, all boxes in
them are read, with the index boxes behind the last fragment waiting for one. If they end anywhere
else, such as between the two boxes of a fragment, nothing is read. -/
theorem decodeAt_take_of_written {segment decoded : Segment} {stream : BoundedStream}
    {startPosition : UInt64} (hwritten : segment.writeStream (.empty none) = .ok () stream)
    (hdecoded : decodeAt startPosition stream.bytes = .ok decoded) {count : Nat}
    (hcount : count < stream.bytes.length) :
    decoded.segmentType = segment.segmentType ∧
    decoded.parts.map (·.indexes.length) = segment.parts.map (·.indexes.length) ∧
    (∀ state, decodeAt startPosition (stream.bytes.take count) = .ok state ↔
      (count = 0 ∧ state = { ofType none with startPosition }) ∨
      ∃ fragments indexes, count = (segment.upTo fragments indexes).extent ∧
        state = decoded.upTo fragments indexes) ∧
    ∀ (place : Nat) (part : SegmentPart), segment.parts[place]? = some part →
      count = (segment.upTo place part.indexes.length).extent +
        Box.size (part.fragment.moof.inLayout segment.layout) →
      ∃ error, decodeAt startPosition (stream.bytes.take count) = .error error := by
  obtain ⟨written, hparts, hwritable, hbytes⟩ := of_writeStream hwritten
  have hsized : Box.Sized stream.bytes := hbytes ▸ Box.sized_bytesOf hwritable
  rw [hbytes] at hdecoded
  obtain ⟨htype, hlength, hstops⟩ := stopsAt_written hparts hwritable hdecoded
  rw [← hbytes] at hdecoded hstops
  have hread : ∀ state, decodeAt startPosition (stream.bytes.take count) = .ok state ↔
      (count = 0 ∧ state = { ofType none with startPosition }) ∨
      ∃ fragments indexes, count = (segment.upTo fragments indexes).extent ∧
        state = decoded.upTo fragments indexes := fun state =>
    (decodeFrom_take_iff hdecoded hsized hcount.le).trans (hstops count state)
  refine ⟨htype, hlength, hread, ?_⟩
  intro place part hpart hplace
  cases hcase : decodeAt startPosition (stream.bytes.take count) with
  | error error => exact ⟨error, rfl⟩
  | ok state =>
    exfalso
    rcases (hread state).1 hcase with ⟨hzero, -⟩ | ⟨fragments, indexes, hextent, -⟩
    · have hmoof : 0 < Box.size (part.fragment.moof.inLayout segment.layout) :=
        Box.sizeOfBody_pos _
      omega
    · rw [hplace, extent_upTo, extent_upTo, Nat.add_assoc] at hextent
      exact sizeUpTo_ne hpart fragments indexes (Nat.add_left_cancel hextent).symm

/-- An index box in front of a fragment whose run is written compactly: cut off behind the index box
and between the two boxes of the fragment. -/
theorem decodeAt_take_of_written_compact :
    let index : SegmentIndex := ⟨0, 7, 90000, 0, 0, []⟩
    let moof : Option Int32 → TrackFragmentHeader → RunSample → MovieFragment :=
      fun offset header sample => ⟨⟨1⟩, [⟨header, [⟨offset, none, [sample]⟩], some ⟨0, 5⟩⟩]⟩
    let source := moof (some 104) (.ofTrack 7) ⟨some 3000, some 2, none, some 0⟩
    let compacted := moof (some 100)
      { TrackFragmentHeader.ofTrack 7 with duration := some 3000, size := some 2 }
      ⟨none, none, none, none⟩
    let segment := { (cmaf.addIndex index).addFragment (.ofBoxes source ⟨[1, 2]⟩) with
      layout := .compact }
    let decoded := { (cmaf.addIndex index).addFragment (.ofBoxes compacted ⟨[1, 2]⟩) with
      startPosition := 64 }
    ∃ stream, segment.writeStream (.empty none) = .ok () stream ∧
      decodeAt 64 stream.bytes = .ok decoded ∧ 148 < stream.bytes.length ∧
      decodeAt 64 (stream.bytes.take 56) =
        .ok { cmaf.addIndex index with startPosition := 64 } ∧
      ∃ error, decodeAt 64 (stream.bytes.take 148) = .error error := by
  intro index moof source compacted segment decoded
  have hnone : firstFailure? segment.prepared.writeSteps = none := by decide +kernel
  have hwritten : segment.writeStream (.empty none) =
      .ok () ⟨none, bytesOf (completeBoxes segment.prepared.writeSteps)⟩ := by
    have hstream := segment.writeStream_eq []
    rw [hnone] at hstream
    exact hstream
  have hdecoded : decodeAt 64 (bytesOf (completeBoxes segment.prepared.writeSteps)) =
      .ok decoded := by decide +kernel
  have hcount : 148 < (bytesOf (completeBoxes segment.prepared.writeSteps)).length := by
    decide +kernel
  obtain ⟨-, -, hread, -⟩ :=
    decodeAt_take_of_written hwritten hdecoded ((by decide : 56 < 148).trans hcount)
  obtain ⟨-, -, -, hbetween⟩ := decodeAt_take_of_written hwritten hdecoded hcount
  refine ⟨_, hwritten, hdecoded, hcount, ?_, ?_⟩
  · exact (hread _).2 (.inr ⟨0, 1, by decide +kernel, by decide +kernel⟩)
  · exact hbetween 0 _ rfl (by decide +kernel)

end Segment
end FragmentedMp4
