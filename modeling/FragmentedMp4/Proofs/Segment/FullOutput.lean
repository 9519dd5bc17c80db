import FragmentedMp4.Proofs.Segment.WrittenBoxes

/-!
# Outputs that become full

A segment that can be written at all may still find too little room. A stream then keeps as many of
its bytes as fit, and a buffer keeps the boxes that fit as a whole. Either way writing ends at the
box in which the room ends, and the error says which box that is and to which fragment it belongs.
-/
namespace FragmentedMp4

open WriteStep

namespace FixedBuffer

@[simp] theorem bytes_ofCapacity (capacity : Nat) : (ofCapacity capacity).bytes = [] :=
  List.take_zero

@[simp] theorem remaining_ofCapacity (capacity : Nat) :
    (ofCapacity capacity).remaining = capacity := by
  simp [remaining, FixedBuffer.capacity, ofCapacity]

end FixedBuffer

namespace BoundedStream

/-- A stream cannot tell whether bytes come in one piece or in two. -/
theorem write_append (first second : Bytes) :
    write (first ++ second) = write first >>= fun _ => write second := by
  funext ⟨limit?, held⟩
  change _ = EStateM.bind (write first) (fun _ => write second) _
  unfold write EStateM.bind
  cases limit? with
  | none => simp only [List.append_assoc]
  | some limit =>
    simp only [List.length_append]
    by_cases hfirst : first.length ≤ limit - held.length
    · rw [if_pos hfirst]
      by_cases hsecond : second.length ≤ limit - (held.length + first.length)
      · simp only [List.length_append, if_pos hsecond, List.append_assoc]
        rw [if_pos (by omega)]
      · simp only [List.length_append, if_neg hsecond, List.append_assoc]
        rw [if_neg (by omega), List.take_append, List.take_of_length_le hfirst, Nat.sub_sub]
    · rw [if_neg hfirst, if_neg (by omega), List.take_append_of_le_length (by omega)]

end BoundedStream

namespace MediaData

/-- Writes the header and then the payload, which need not be copied behind the header for that. -/
def writeUnstaged (box : MediaData) : Writing BoundedStream Unit := fun stream =>
  if UInt64.size ≤ Box.size box then .error .overflow stream
  else (BoundedStream.write (Box.front box) >>= fun _ => BoundedStream.write box.payload) stream

theorem writeUnstaged_eq (box : MediaData) : box.writeUnstaged = Box.writeStream box := by
  have hemission : Box.emission box = .put (Box.front box ++ box.payload) := rfl
  funext stream
  unfold writeUnstaged Box.writeStream
  rw [hemission, ← BoundedStream.write_append]
  rfl

end MediaData

namespace AnyBox

/-- Writes a box to a stream. Only media data is written without putting it together first. -/
def writeUnstaged : AnyBox → Writing BoundedStream Unit
  | .mediaData box => box.writeUnstaged
  | box => Box.writeStream box

theorem writeUnstaged_eq : writeUnstaged = Box.writeStream := by
  funext box
  cases box with
  | mediaData box => exact box.writeUnstaged_eq
  | _ => rfl

end AnyBox

namespace Box

variable {α : Type} [IsBox α] [ExactBox α] {box : α} {limit : Nat} {held : Bytes}

theorem writeStream_of_room (h : Writable box) (room : held.length + size box ≤ limit) :
    writeStream box ⟨some limit, held⟩ =
      .ok () ⟨some limit, held ++ (emission box).bytes⟩ := by
  have hlength := length_emission h
  unfold writeStream
  rw [if_neg (Nat.not_le_of_lt h.size_lt), emission_error, h.complete]
  dsimp only [BoundedStream.write]
  rw [if_pos (by omega)]

theorem writeStream_of_full (h : Writable box) (full : limit < held.length + size box) :
    writeStream box ⟨some limit, held⟩ = .error (.error .outputFull)
      ⟨some limit, held ++ (emission box).bytes.take (limit - held.length)⟩ := by
  have hlength := length_emission h
  have hpos : 0 < size box := sizeOfBody_pos _
  unfold writeStream
  rw [if_neg (Nat.not_le_of_lt h.size_lt), emission_error, h.complete]
  dsimp only [BoundedStream.write]
  rw [if_neg (by omega)]

omit [ExactBox α] in
theorem writeBuffer_of_full (h : Writable box) {buffer : FixedBuffer}
    (full : buffer.remaining < size box) :
    writeBuffer box buffer =
      .error (.error (.bufferOverflow (size box) buffer.remaining)) buffer := by
  unfold writeBuffer
  dsimp only
  rw [if_neg (Nat.not_le_of_lt h.size_lt), if_pos full]

end Box

namespace WriteStep

variable {σ : Type}

theorem forM_append_ok {put : AnyBox → Writing σ Unit} {first second : List WriteStep}
    {place middle : σ} (h : first.forM (run put) place = .ok () middle) :
    (first ++ second).forM (run put) place = second.forM (run put) middle := by
  rw [forM_append]
  change EStateM.bind (first.forM (run put)) (fun _ => second.forM (run put)) place = _
  simp only [EStateM.bind, h]

end WriteStep

/-- A box of a segment, with the number of the fragment that it is written with, counted from 1. The
segment type is written in front of all of them. -/
structure PlacedBox where
  fragment? : Option Nat
  box : AnyBox

namespace PlacedBox

/-- What is said of an error in the box. -/
def inContext (placed : PlacedBox) (error : Error) : Error :=
  match placed.fragment? with
  | none => .inBox (IsBox.name placed.box) error
  | some number => .inFragment number (.inBox (IsBox.name placed.box) error)

@[simp] theorem rootCause_inContext (placed : PlacedBox) (error : Error) :
    (placed.inContext error).rootCause = error.rootCause := by
  unfold inContext
  split <;> rfl

def bytes (boxes : List PlacedBox) : Bytes :=
  bytesOf (boxes.map box)

theorem bytes_append (first second : List PlacedBox) :
    bytes (first ++ second) = bytes first ++ bytes second := by
  unfold bytes
  rw [List.map_append, bytesOf_append]

theorem bytes_cons (placed : PlacedBox) (boxes : List PlacedBox) :
    bytes (placed :: boxes) = (Box.emission placed.box).bytes ++ bytes boxes := rfl

def step (placed : PlacedBox) : WriteStep :=
  .put placed.inContext placed.box

/-- The box that byte `place` belongs to, and the boxes in front of it. -/
structure At (boxes : List PlacedBox) (place : Nat) (before : List PlacedBox)
    (placed : PlacedBox) : Prop where
  after : ∃ after, boxes = before ++ placed :: after
  le : (bytes before).length ≤ place
  lt : place < (bytes before).length + Box.size placed.box

variable {boxes : List PlacedBox}

/-- Every byte belongs to a box. -/
theorem exists_at (hwritable : ∀ placed ∈ boxes, Box.Writable placed.box) {place : Nat}
    (h : place < (bytes boxes).length) : ∃ before placed, At boxes place before placed := by
  induction boxes generalizing place with
  | nil => exact absurd h (Nat.not_lt_zero _)
  | cons first boxes ih =>
    have hlength := Box.length_emission (hwritable first (List.mem_cons_self ..))
    rw [bytes_cons, List.length_append, hlength] at h
    by_cases hfirst : place < Box.size first.box
    · exact ⟨[], first, ⟨boxes, rfl⟩, Nat.zero_le _, by rwa [bytes, List.map_nil, bytesOf_nil,
        List.length_nil, Nat.zero_add]⟩
    · obtain ⟨before, placed, ⟨after, hafter⟩, hle, hlt⟩ :=
        ih (fun other hmem => hwritable other (List.mem_cons_of_mem _ hmem))
          (show place - Box.size first.box < (bytes boxes).length by omega)
      have hbefore : (bytes (first :: before)).length =
          Box.size first.box + (bytes before).length := by
        rw [bytes_cons, List.length_append, hlength]
      exact ⟨first :: before, placed, ⟨after, congrArg (first :: ·) hafter⟩, by omega, by omega⟩

theorem writeStream_of_room (hwritable : ∀ placed ∈ boxes, Box.Writable placed.box)
    {limit : Nat} {held : Bytes} (room : held.length + (bytes boxes).length ≤ limit) :
    (boxes.map step).forM (run Box.writeStream) ⟨some limit, held⟩ =
      .ok () ⟨some limit, held ++ bytes boxes⟩ := by
  induction boxes generalizing held with
  | nil =>
    have hnone : held ++ bytes [] = held := List.append_nil held
    rw [hnone]
    rfl
  | cons first boxes ih =>
    have hfirst := hwritable first (List.mem_cons_self ..)
    have hlength := Box.length_emission hfirst
    rw [bytes_cons, List.length_append, hlength] at room
    have hstep : run Box.writeStream first.step ⟨some limit, held⟩ =
        .ok () ⟨some limit, held ++ (Box.emission first.box).bytes⟩ :=
      wrapping_apply_ok (Box.writeStream_of_room hfirst (by omega))
    rw [List.map_cons, forM_cons_ok hstep,
      ih (fun other hmem => hwritable other (List.mem_cons_of_mem _ hmem))
        (by rw [List.length_append, hlength]; omega), bytes_cons, List.append_assoc]

theorem steps_of_writable (hwritable : ∀ placed ∈ boxes, Box.Writable placed.box) :
    firstFailure? (boxes.map step) = none ∧ boxesOf (boxes.map step) = boxes.map box := by
  have hboxes : boxesOf (boxes.map step) = boxes.map box := by
    have hbox : box? ∘ step = some ∘ box := rfl
    rw [boxesOf, List.filterMap_map, hbox, List.filterMap_eq_map]
  refine ⟨no_failure_of_puts ?_ ?_, hboxes⟩
  · intro step hmem
    obtain ⟨placed, -, rfl⟩ := List.mem_map.1 hmem
    exact Option.some_ne_none _
  · intro box hmem
    rw [hboxes] at hmem
    obtain ⟨placed, hplaced, rfl⟩ := List.mem_map.1 hmem
    exact hwritable placed hplaced

theorem writeBuffer_of_room (hwritable : ∀ placed ∈ boxes, Box.Writable placed.box)
    {buffer : FixedBuffer} (room : (bytes boxes).length ≤ buffer.remaining) :
    ∃ after : FixedBuffer, (boxes.map step).forM (run Box.writeBuffer) buffer = .ok () after ∧
      after.bytes = buffer.bytes ++ bytes boxes ∧ after.capacity = buffer.capacity := by
  obtain ⟨hnone, hboxes⟩ := steps_of_writable hwritable
  have hsized : Sized (boxes.map step) ((boxes.map step).map size).sum := ⟨le_rfl, fun _ => rfl⟩
  have hlength := hsized.length_bytesOf hnone
  rw [hboxes] at hlength
  obtain ⟨after, hwrite, hbytes, hcapacity⟩ :=
    forM_writeBuffer (boxes.map step) buffer (hlength ▸ room)
  rw [hnone] at hwrite
  rw [(complete_of_no_failure hnone).1, hboxes] at hbytes
  exact ⟨after, hwrite, hbytes, hcapacity⟩

theorem writeStream_empty (hwritable : ∀ placed ∈ boxes, Box.Writable placed.box) {limit : Nat}
    (room : (bytes boxes).length ≤ limit) :
    (boxes.map step).forM (run Box.writeStream) (.empty (some limit)) =
      .ok () ⟨some limit, bytes boxes⟩ := by
  have hroom : ([] : Bytes).length + (bytes boxes).length ≤ limit := by
    rwa [List.length_nil, Nat.zero_add]
  exact writeStream_of_room hwritable hroom

theorem writeBuffer_empty (hwritable : ∀ placed ∈ boxes, Box.Writable placed.box) {capacity : Nat}
    (room : (bytes boxes).length ≤ capacity) :
    ∃ after : FixedBuffer,
      (boxes.map step).forM (run Box.writeBuffer) (.ofCapacity capacity) = .ok () after ∧
      after.bytes = bytes boxes ∧ after.remaining = capacity - (bytes boxes).length := by
  have hroom : (bytes boxes).length ≤ (FixedBuffer.ofCapacity capacity).remaining := by
    rwa [FixedBuffer.remaining_ofCapacity]
  obtain ⟨after, hwrite, hbytes, hcapacity⟩ := writeBuffer_of_room hwritable hroom
  have hremaining := FixedBuffer.remaining_of_bytes hbytes hcapacity
  rw [FixedBuffer.remaining_ofCapacity] at hremaining
  rw [FixedBuffer.bytes_ofCapacity, List.nil_append] at hbytes
  exact ⟨after, hwrite, hbytes, hremaining⟩

/-- A stream that becomes full has the first bytes of the boxes, and the error is one of the box
that the first missing byte belongs to. -/
theorem writeStream_of_full (hwritable : ∀ placed ∈ boxes, Box.Writable placed.box) {limit : Nat}
    {before : List PlacedBox} {placed : PlacedBox} (h : At boxes limit before placed) :
    (boxes.map step).forM (run Box.writeStream) (.empty (some limit)) =
      .error (.error (placed.inContext .outputFull)) ⟨some limit, (bytes boxes).take limit⟩ := by
  obtain ⟨⟨after, rfl⟩, hle, hlt⟩ := h
  have hplaced := hwritable placed (by simp)
  have hbefore : (before.map step).forM (run Box.writeStream) (.empty (some limit)) =
      .ok () ⟨some limit, bytes before⟩ :=
    writeStream_empty (fun other hmem => hwritable other (by simp [hmem])) hle
  have hstep : run Box.writeStream placed.step ⟨some limit, bytes before⟩ =
      .error (.error (placed.inContext .outputFull)) ⟨some limit, bytes before ++
        (Box.emission placed.box).bytes.take (limit - (bytes before).length)⟩ :=
    wrapping_apply_error (Box.writeStream_of_full hplaced hlt)
  have hkept : (bytes (before ++ placed :: after)).take limit = bytes before ++
      (Box.emission placed.box).bytes.take (limit - (bytes before).length) := by
    rw [bytes_append, bytes_cons, List.take_append, List.take_of_length_le hle,
      List.take_append_of_le_length (by rw [Box.length_emission hplaced]; omega)]
  rw [List.map_append, List.map_cons, forM_append_ok hbefore, forM_cons_error hstep, hkept]

/-- A buffer that becomes full has the boxes that end in front of the first missing byte, and the
error is one of the next box. -/
theorem writeBuffer_of_full (hwritable : ∀ placed ∈ boxes, Box.Writable placed.box)
    {capacity : Nat} {before : List PlacedBox} {placed : PlacedBox}
    (h : At boxes capacity before placed) :
    ∃ buffer : FixedBuffer,
      (boxes.map step).forM (run Box.writeBuffer) (.ofCapacity capacity) =
        .error (.error (placed.inContext (.bufferOverflow (Box.size placed.box)
          (capacity - (bytes before).length)))) buffer ∧
      buffer.bytes = bytes before := by
  obtain ⟨⟨after, rfl⟩, hle, hlt⟩ := h
  have hplaced := hwritable placed (by simp)
  obtain ⟨buffer, hbefore, hbytes, hremaining⟩ :=
    writeBuffer_empty (fun other hmem => hwritable other (by simp [hmem])) hle
  have hstep : run Box.writeBuffer placed.step buffer =
      .error (.error (placed.inContext (.bufferOverflow (Box.size placed.box)
        buffer.remaining))) buffer :=
    wrapping_apply_error (Box.writeBuffer_of_full hplaced (by omega))
  refine ⟨buffer, ?_, hbytes⟩
  rw [List.map_append, List.map_cons, forM_append_ok hbefore, forM_cons_error hstep, hremaining]

end PlacedBox

namespace SegmentPart

def placedBoxes (part : SegmentPart) (number : Nat) : List PlacedBox :=
  part.boxes.map fun box => ⟨some number, box⟩

theorem WrittenAs.writeSteps_eq {part written : SegmentPart}
    (h : part.WrittenAs part.fragment.layout written) (number : Nat) :
    part.writeSteps number = (written.placedBoxes number).map PlacedBox.step := by
  unfold writeSteps placedBoxes boxes Fragment.boxes
  rw [Fragment.writeSteps_of_written h.moof, h.indexes, h.mdat]
  simp only [List.map_append, List.map_map]
  rfl

end SegmentPart

namespace Segment

/-- The boxes of the segment with their places, in the order in which they are written. -/
def placedBoxes (segment : Segment) : List PlacedBox :=
  (segment.segmentType.toList.map fun box => ⟨none, .segmentType box⟩) ++
    segment.parts.zipIdx.flatMap fun pair => pair.1.placedBoxes (pair.2 + 1)

variable {segment : Segment} {written : List SegmentPart}

theorem box_placedParts (parts : List SegmentPart) (start : Nat) :
    ((parts.zipIdx start).flatMap fun pair => pair.1.placedBoxes (pair.2 + 1)).map PlacedBox.box =
      parts.flatMap SegmentPart.boxes := by
  induction parts generalizing start with
  | nil => rfl
  | cons part parts ih =>
    rw [List.zipIdx_cons, List.flatMap_cons, List.flatMap_cons, List.map_append, ih,
      SegmentPart.placedBoxes, List.map_map]
    exact congrArg (· ++ parts.flatMap SegmentPart.boxes) (List.map_id part.boxes)

theorem box_placedBoxes (segment : Segment) :
    segment.placedBoxes.map PlacedBox.box = segment.boxes := by
  rw [placedBoxes, boxes, List.map_append, box_placedParts, List.map_map]
  rfl

theorem writeSteps_placedParts {parts : List SegmentPart}
    (h : List.Forall₂ (fun part => SegmentPart.WrittenAs part.fragment.layout part) parts written)
    (start : Nat) :
    ((parts.zipIdx start).flatMap fun pair => pair.1.writeSteps (pair.2 + 1)) =
      ((written.zipIdx start).flatMap fun pair => pair.1.placedBoxes (pair.2 + 1)).map
        PlacedBox.step := by
  induction h generalizing start with
  | nil => rfl
  | cons hpart _ ih =>
    rw [List.zipIdx_cons, List.zipIdx_cons, List.flatMap_cons, List.flatMap_cons,
      List.map_append, hpart.writeSteps_eq, ih]

/-- The steps of writing a segment put its boxes, each with the context of its place. -/
theorem writeSteps_placed
    (h : List.Forall₂ (SegmentPart.WrittenAs segment.layout) segment.parts written) :
    segment.prepared.writeSteps =
      { segment with parts := written }.placedBoxes.map PlacedBox.step := by
  rw [writeSteps, writeSteps_placedParts (written_prepared.2 h), placedBoxes, List.map_append,
    List.map_map]
  rfl

/-- Writes the segment to a stream, with the header and the payload of media data one after the
other. -/
def writeUnstaged (segment : Segment) : Writing BoundedStream Unit :=
  segment.prepared.writeBoxes AnyBox.writeUnstaged

theorem writeUnstaged_eq (segment : Segment) : segment.writeUnstaged = segment.writeStream := by
  unfold writeUnstaged writeStream
  rw [AnyBox.writeUnstaged_eq]

/-- How writing ends if there is room for `limit` bytes only, for a segment that leaves `whole` on a
stream without a limit. If that is room for all of it, both a stream and an empty buffer receive it.
If it is not, both fail in the box that the first missing byte belongs to. The stream has kept all
bytes in front of that one, whether media data comes to it in one piece or in two. The buffer has
kept the boxes in front of that box, and its error says how much room the box needs and how much is
left. -/
theorem write_within_limit {whole : Bytes}
    (h : segment.writeStream (.empty none) = .ok () ⟨none, whole⟩) :
    ∃ written, List.Forall₂ (SegmentPart.WrittenAs segment.layout) segment.parts written ∧
      whole = PlacedBox.bytes { segment with parts := written }.placedBoxes ∧
      ∀ limit,
        (whole.length ≤ limit →
          segment.writeStream (.empty (some limit)) = .ok () ⟨some limit, whole⟩ ∧
          segment.writeUnstaged (.empty (some limit)) = .ok () ⟨some limit, whole⟩ ∧
          ∃ buffer, segment.writeBuffer (.ofCapacity limit) = .ok () buffer ∧
            buffer.bytes = whole) ∧
        (limit < whole.length → ∃ before placed,
          PlacedBox.At { segment with parts := written }.placedBoxes limit before placed) ∧
        ∀ before placed,
          PlacedBox.At { segment with parts := written }.placedBoxes limit before placed →
          segment.writeStream (.empty (some limit)) =
            .error (.error (placed.inContext .outputFull)) ⟨some limit, whole.take limit⟩ ∧
          segment.writeUnstaged (.empty (some limit)) =
            .error (.error (placed.inContext .outputFull)) ⟨some limit, whole.take limit⟩ ∧
          ∃ buffer, segment.writeBuffer (.ofCapacity limit) =
              .error (.error (placed.inContext (.bufferOverflow (Box.size placed.box)
                (limit - (PlacedBox.bytes before).length)))) buffer ∧
            buffer.bytes = PlacedBox.bytes before := by
  obtain ⟨written, hwritten, hboxes, hbytes⟩ := of_writeStream h
  have hsteps := writeSteps_placed hwritten
  have hmap := box_placedBoxes { segment with parts := written }
  set placedBoxes := { segment with parts := written }.placedBoxes
  have hwritable : ∀ placed ∈ placedBoxes, Box.Writable placed.box := fun placed hmem =>
    hboxes _ (hmap ▸ List.mem_map_of_mem hmem)
  have hwhole : whole = PlacedBox.bytes placedBoxes := by
    rw [PlacedBox.bytes, hmap]
    exact hbytes
  have hstream : segment.writeStream =
      (placedBoxes.map PlacedBox.step).forM (run Box.writeStream) := by
    rw [writeStream, writeBoxes_eq_forM, hsteps]
  have hbuffer : segment.writeBuffer =
      (placedBoxes.map PlacedBox.step).forM (run Box.writeBuffer) := by
    rw [writeBuffer, writeBoxes_eq_forM, hsteps]
  refine ⟨written, hwritten, hwhole, fun limit => ?_⟩
  rw [writeUnstaged_eq, hstream, hbuffer, hwhole]
  refine ⟨fun hroom => ?_, PlacedBox.exists_at hwritable, fun before placed hat => ?_⟩
  · have htaken := PlacedBox.writeStream_empty hwritable hroom
    obtain ⟨buffer, hwrite, hbytes, -⟩ := PlacedBox.writeBuffer_empty hwritable hroom
    exact ⟨htaken, htaken, buffer, hwrite, hbytes⟩
  · have hfull := PlacedBox.writeStream_of_full hwritable hat
    exact ⟨hfull, hfull, PlacedBox.writeBuffer_of_full hwritable hat⟩

/-- A segment type, an index box and a fragment in the compact layout take 158 bytes. Room for 60
of them ends within the movie fragment, room for 157 between the two bytes of the payload. -/
theorem write_within_limit_of_moof :
    let index : SegmentIndex := ⟨0, 7, 90000, 0, 0, []⟩
    let moof : MovieFragment :=
      ⟨⟨1⟩, [⟨.ofTrack 7, [⟨some 104, none, [⟨some 3000, some 2, none, some 0⟩]⟩], some ⟨0, 5⟩⟩]⟩
    let segment := { (cmaf.addIndex index).addFragment (.ofBoxes moof ⟨[1, 2]⟩) with
      layout := .compact }
    ∃ whole, segment.writeStream (.empty none) = .ok () ⟨none, whole⟩ ∧
      segment.writeStream (.empty (some 60)) =
        .error (.error (.inFragment 1 (.inBox .moof .outputFull))) ⟨some 60, whole.take 60⟩ ∧
      (∃ buffer, segment.writeBuffer (.ofCapacity 60) =
          .error (.error (.inFragment 1 (.inBox .moof (.bufferOverflow 92 4)))) buffer ∧
        buffer.bytes = whole.take 56) ∧
      segment.writeUnstaged (.empty (some 157)) =
        .error (.error (.inFragment 1 (.inBox .mdat .outputFull))) ⟨some 157, whole.take 157⟩ := by
  intro index moof segment
  let compacted : MovieFragment :=
    ⟨⟨1⟩, [⟨{ TrackFragmentHeader.ofTrack 7 with duration := some 3000, size := some 2 },
      [⟨some 100, none, [⟨none, none, none, none⟩]⟩], some ⟨0, 5⟩⟩]⟩
  have hnone : firstFailure? segment.prepared.writeSteps = none := by decide +kernel
  have hstream := segment.writeStream_eq []
  rw [hnone] at hstream
  obtain ⟨written, hwritten, -, hends⟩ := write_within_limit hstream
  obtain _ | @⟨_, only, _, _, hpart, hrest⟩ := hwritten
  cases hrest
  have hmoof : only.fragment.moof = compacted := by
    have hcompacted : Fragment.writtenMoof
        { Fragment.ofBoxes moof ⟨[1, 2]⟩ with layout := .compact } = .ok compacted := by
      decide +kernel
    exact Except.ok.inj (hpart.moof.symm.trans hcompacted)
  have hplaced : { segment with parts := [only] }.placedBoxes =
      [⟨none, .segmentType .cmaf⟩, ⟨some 1, .segmentIndex index⟩,
        ⟨some 1, .movieFragment compacted⟩, ⟨some 1, .mediaData ⟨[1, 2]⟩⟩] := by
    change _ :: ((only.indexes.map AnyBox.segmentIndex ++ only.fragment.boxes).map _ ++ []) = _
    rw [hpart.indexes, Fragment.boxes, hmoof, hpart.mdat]
    rfl
  rw [hplaced] at hends
  have hinMoof := (hends 60).2.2 [⟨none, .segmentType .cmaf⟩, ⟨some 1, .segmentIndex index⟩]
    ⟨some 1, .movieFragment compacted⟩ ⟨⟨_, rfl⟩, by decide +kernel, by decide +kernel⟩
  have hinPayload := (hends 157).2.2 [⟨none, .segmentType .cmaf⟩, ⟨some 1, .segmentIndex index⟩,
    ⟨some 1, .movieFragment compacted⟩] ⟨some 1, .mediaData ⟨[1, 2]⟩⟩
    ⟨⟨_, rfl⟩, by decide +kernel, by decide +kernel⟩
  obtain ⟨hlimited, -, buffer, hbuffer, hbytes⟩ := hinMoof
  have hneed : Box.size (AnyBox.movieFragment compacted) = 92 := by decide +kernel
  have hleft : 60 - (PlacedBox.bytes [⟨none, .segmentType .cmaf⟩,
    ⟨some 1, .segmentIndex index⟩]).length = 4 := by decide +kernel
  rw [hneed, hleft] at hbuffer
  refine ⟨_, hstream, hlimited, ⟨buffer, hbuffer, ?_⟩, hinPayload.2.1⟩
  rw [hbytes]
  decide +kernel

end Segment
end FragmentedMp4
