import FragmentedMp4.Proofs.Box.Writing

/-!
# Boxes in a buffer of fixed size

A buffer has no room beyond the size that a box declares, so a box must not emit more than that,
also when it is stopped halfway. Here this is said of every box, whatever its runs hold: it fills
its size exactly, or a run stops it inside that size. Hence a buffer holds exactly what was
accepted, after any calls and in their order, and never anything of a box that failed.
-/
namespace FragmentedMp4

/-- What can stop a box: a run has more samples than it can count, or one of its samples does not
carry the fields of the first one. -/
inductive RunError : Error → Prop
  | tooManySamples : RunError (.invalidBox .trun .tooManySamples)
  | mixedSampleFields (number : Nat) : RunError (.invalidBox .trun (.mixedSampleFields number))

namespace Emission

/-- Nothing but a run stops the emission. -/
def StopsInRun (emission : Emission) : Prop :=
  ∀ error, emission.error = some error → RunError error

theorem stopsInRun_put (bytes : Bytes) : (put bytes).StopsInRun :=
  fun _ h => by cases h

theorem StopsInRun.append {first second : Emission} (hfirst : first.StopsInRun)
    (hsecond : second.StopsInRun) : (first ++ second).StopsInRun := by
  intro error h
  rw [append_error, Option.or_eq_some_iff] at h
  rcases h with h | ⟨-, h⟩
  · exact hfirst error h
  · exact hsecond error h

theorem stopsInRun_concat {emissions : List Emission}
    (h : ∀ emission ∈ emissions, emission.StopsInRun) : (concat emissions).StopsInRun := by
  induction emissions with
  | nil => exact stopsInRun_put []
  | cons first rest ih =>
    obtain ⟨hfirst, hrest⟩ := List.forall_mem_cons.1 h
    exact hfirst.append (ih hrest)

end Emission

section

open Emission

theorem Box.stopsInRun_emission {α : Type} [IsBox α] {box : α}
    (h : (IsBox.contents box).StopsInRun) : (Box.emission box).StopsInRun :=
  (stopsInRun_put _).append h

theorem TrackRun.stopsInRun_contents (run : TrackRun) : (IsBox.contents run).StopsInRun := by
  change run.contentEmission.StopsInRun
  unfold TrackRun.contentEmission
  split_ifs with hcount
  · intro error h
    cases h
    exact .tooManySamples
  · refine (stopsInRun_put _).append (stopsInRun_concat fun emission hmem => ?_)
    obtain ⟨i, hi, rfl⟩ := List.mem_mapIdx.1 hmem
    unfold TrackRun.sampleEmission
    split_ifs with hfields
    · exact stopsInRun_put _
    · intro error h
      cases h
      exact .mixedSampleFields _

theorem TrackFragment.stopsInRun_contents (track : TrackFragment) :
    (IsBox.contents track).StopsInRun := by
  have hheader : (Box.emission track.header).StopsInRun :=
    Box.stopsInRun_emission (stopsInRun_put _)
  have htime : ((track.decodeTime.map (Box.emission ·)).getD (.put [])).StopsInRun := by
    cases track.decodeTime with
    | none => exact stopsInRun_put []
    | some time => exact Box.stopsInRun_emission (stopsInRun_put _)
  refine (hheader.append htime).append (stopsInRun_concat fun emission hmem => ?_)
  obtain ⟨run, -, rfl⟩ := List.mem_map.1 hmem
  exact Box.stopsInRun_emission run.stopsInRun_contents

theorem MovieFragment.stopsInRun_contents (moof : MovieFragment) :
    (IsBox.contents moof).StopsInRun := by
  have hheader : (Box.emission moof.header).StopsInRun :=
    Box.stopsInRun_emission (stopsInRun_put _)
  refine hheader.append (stopsInRun_concat fun emission hmem => ?_)
  obtain ⟨track, -, rfl⟩ := List.mem_map.1 hmem
  exact Box.stopsInRun_emission track.stopsInRun_contents

/-- Only runs stop a box, at whatever depth they are. -/
theorem AnyBox.stopsInRun_contents (box : AnyBox) : (IsBox.contents box).StopsInRun := by
  cases box with
  | trackRun run => exact run.stopsInRun_contents
  | trackFragment track => exact track.stopsInRun_contents
  | movieFragment moof => exact moof.stopsInRun_contents
  | segmentType box => exact stopsInRun_put _
  | segmentIndex box => exact stopsInRun_put _
  | movieFragmentHeader box => exact stopsInRun_put _
  | trackFragmentHeader box => exact stopsInRun_put _
  | trackDecodeTime box => exact stopsInRun_put _
  | trackExtends box => exact stopsInRun_put _
  | mediaData box => exact stopsInRun_put _

end

/-- Where there is room for a box, it is put behind what a buffer holds, or the buffer holds what
it held. -/
theorem Box.writeBuffer_eq_ending {α : Type} [IsBox α] [ExactBox α] (box : α)
    {buffer : FixedBuffer} (room : Box.size box ≤ buffer.remaining) :
    ∃ after : FixedBuffer, Box.writeBuffer box buffer = Writing.ending (Box.failure? box) after ∧
      after.capacity = buffer.capacity ∧
      after.bytes = buffer.bytes ++
        if (Box.failure? box).isNone then (Box.emission box).bytes else [] := by
  cases hfailure : Box.failure? box with
  | none =>
    obtain ⟨after, hwritten, hbytes, hcapacity⟩ :=
      Box.writeBuffer_of_writable (Box.failure?_eq_none.1 hfailure) room
    exact ⟨after, hwritten, hcapacity, hbytes⟩
  | some failure =>
    obtain ⟨after, hfailed, hbytes, hcapacity⟩ := Box.writeBuffer_of_failure hfailure room
    exact ⟨after, hfailed, hcapacity, hbytes.trans (List.append_nil _).symm⟩

namespace AnyBox

/-- A box emits exactly its size, or a run stops it inside that size. So in whatever parts its
bytes are handed over, each part finds room behind those before it, and where there is room for
the size a box is written or ends with the error of the run. The size is one of 64 bits, as it is
for every box that fits in memory. -/
theorem written_within_size (box : AnyBox) :
    (Box.emission box).bytes.length ≤ Box.size box ∧
    ((Box.emission box).error = none → (Box.emission box).bytes.length = Box.size box) ∧
    (∀ error, (Box.emission box).error = some error → RunError error) ∧
    (∀ done part later, (Box.emission box).bytes = done ++ part ++ later →
      part.length ≤ Box.size box - done.length) ∧
    ∀ buffer : FixedBuffer, Box.size box ≤ buffer.remaining → Box.size box < UInt64.size →
      ∃ after : FixedBuffer, after.capacity = buffer.capacity ∧
        match (Box.emission box).error with
        | none => Box.writeBuffer box buffer = .ok () after ∧
            after.bytes = buffer.bytes ++ (Box.emission box).bytes
        | some error => Box.writeBuffer box buffer = .error (.error error) after ∧
            after.bytes = buffer.bytes := by
  have hwithin := Box.within_emission box
  refine ⟨hwithin.le, hwithin.eq, Box.stopsInRun_emission box.stopsInRun_contents, ?_, ?_⟩
  · intro done part later hparts
    have hle := hwithin.le
    rw [hparts, List.length_append, List.length_append] at hle
    omega
  · intro buffer room hsize
    have hfailure : Box.failure? box = (Box.emission box).error.map .error :=
      if_neg (Nat.not_le_of_lt hsize)
    obtain ⟨after, hend, hcapacity, hbytes⟩ := Box.writeBuffer_eq_ending box room
    refine ⟨after, hcapacity, ?_⟩
    rw [hfailure] at hend hbytes
    cases herror : (Box.emission box).error with
    | none =>
      rw [herror] at hend hbytes
      exact ⟨hend, hbytes⟩
    | some error =>
      rw [herror] at hend hbytes
      exact ⟨hend, hbytes.trans (List.append_nil _)⟩

/-- The second sample of the run carries two fields and the first one none, so the run declares no
room for either. It is stopped before the second sample, two levels down in a movie fragment. -/
theorem written_within_size_of_mixed_run :
    let run : TrackRun := ⟨none, none, [⟨none, none, none, none⟩, ⟨some 1, some 2, none, none⟩]⟩
    let box : AnyBox := .movieFragment ⟨⟨1⟩, [⟨.ofTrack 1, [run], none⟩]⟩
    let buffer := FixedBuffer.ofCapacity (Box.size box)
    Box.size box = 64 ∧ Box.size box ≤ buffer.remaining ∧ Box.size box < UInt64.size ∧
      ∃ after : FixedBuffer, Box.writeBuffer box buffer =
          .error (.error (.invalidBox .trun (.mixedSampleFields 2))) after ∧
        after.bytes = [] := by
  intro run box buffer
  have hsize : Box.size box = 64 := by decide +kernel
  have room : Box.size box ≤ buffer.remaining := by decide +kernel
  have hfits : Box.size box < UInt64.size := by rw [hsize]; decide
  have herror : (Box.emission box).error = some (.invalidBox .trun (.mixedSampleFields 2)) := by
    decide +kernel
  obtain ⟨-, -, -, -, hwritten⟩ := written_within_size box
  obtain ⟨after, -, hafter⟩ := hwritten buffer room hfits
  rw [herror] at hafter
  exact ⟨hsize, room, hfits, after, hafter.1, hafter.2⟩

end AnyBox

namespace FixedBuffer

/-- Something that is to be put into a buffer. -/
inductive Call where
  | writeBytes (data : Bytes)
  | writeBox (box : AnyBox)

namespace Call

def encoding : Call → Bytes
  | .writeBytes data => data
  | .writeBox box => (Box.emission box).bytes

def perform : Call → Writing FixedBuffer Unit
  | .writeBytes data => FixedBuffer.write data
  | .writeBox box => Box.writeBuffer box

/-- Why it is refused where there is some room. -/
def refusal? (room : Nat) : Call → Option Failure
  | .writeBytes data =>
    if room < data.length then some (.error (.bufferOverflow data.length room)) else none
  | .writeBox box =>
    if UInt64.size ≤ Box.size box then some .overflow
    else if room < Box.size box then some (.error (.bufferOverflow (Box.size box) room))
    else (Box.emission box).error.map .error

end Call

/-- Makes several calls, one after the other, whether they come through or not. -/
def performAll (buffer : FixedBuffer) : List Call → List (Option Failure) × FixedBuffer
  | [] => ([], buffer)
  | call :: calls =>
    match call.perform buffer with
    | .ok _ after =>
      let (endings, last) := performAll after calls
      (none :: endings, last)
    | .error failure after =>
      let (endings, last) := performAll after calls
      (some failure :: endings, last)

/-- The bytes of the calls that came through, in order. -/
def accepted (calls : List Call) (endings : List (Option Failure)) : Bytes :=
  ((calls.zip endings).filter (·.2.isNone)).flatMap (·.1.encoding)

theorem offset_add_remaining (buffer : FixedBuffer) :
    buffer.offset + buffer.remaining = buffer.capacity :=
  Nat.add_sub_cancel' buffer.offset_le

/-- One call: it is refused for a reason that only the room and the call decide, and then the
buffer holds what it held, or its bytes are put behind that. -/
theorem perform_eq (call : Call) (buffer : FixedBuffer) :
    ∃ after : FixedBuffer,
      call.perform buffer = Writing.ending (call.refusal? buffer.remaining) after ∧
      after.capacity = buffer.capacity ∧
      after.bytes = buffer.bytes ++
        if (call.refusal? buffer.remaining).isNone then call.encoding else [] := by
  cases call with
  | writeBytes data =>
    by_cases room : data.length ≤ buffer.remaining
    · have hnone : (Call.writeBytes data).refusal? buffer.remaining = none :=
        if_neg (Nat.not_lt_of_le room)
      rw [hnone]
      exact ⟨_, dif_pos room, buffer.capacity_advance data room, buffer.bytes_advance data room⟩
    · have hfull : (Call.writeBytes data).refusal? buffer.remaining =
          some (.error (.bufferOverflow data.length buffer.remaining)) :=
        if_pos (Nat.lt_of_not_le room)
      rw [hfull]
      exact ⟨buffer, dif_neg room, rfl, (List.append_nil _).symm⟩
  | writeBox box =>
    by_cases room : Box.size box ≤ buffer.remaining
    · have hreason : (Call.writeBox box).refusal? buffer.remaining = Box.failure? box := by
        simp only [Call.refusal?, Box.failure?, Box.emission_error, if_neg (Nat.not_lt_of_le room)]
      rw [hreason]
      exact Box.writeBuffer_eq_ending box room
    -- a box for which there is no room is not begun
    · have hsmall := Nat.lt_of_not_le room
      by_cases hsize : UInt64.size ≤ Box.size box
      · have hoverflow : (Call.writeBox box).refusal? buffer.remaining = some .overflow :=
          if_pos hsize
        rw [hoverflow]
        exact ⟨buffer, if_pos hsize, rfl, (List.append_nil _).symm⟩
      · have hfull : (Call.writeBox box).refusal? buffer.remaining =
            some (.error (.bufferOverflow (Box.size box) buffer.remaining)) :=
          (if_neg hsize).trans (if_pos hsmall)
        rw [hfull]
        exact ⟨buffer, (if_neg hsize).trans (if_pos hsmall), rfl, (List.append_nil _).symm⟩

theorem performAll_cons {call : Call} {buffer after : FixedBuffer} {failure : Option Failure}
    (h : call.perform buffer = Writing.ending failure after) (calls : List Call) :
    performAll buffer (call :: calls) =
      (failure :: (performAll after calls).1, (performAll after calls).2) := by
  rw [performAll, h]
  cases failure <;> rfl

theorem performAll_append (buffer : FixedBuffer) (calls more : List Call) :
    performAll buffer (calls ++ more) =
      ((performAll buffer calls).1 ++ (performAll (performAll buffer calls).2 more).1,
        (performAll (performAll buffer calls).2 more).2) := by
  induction calls generalizing buffer with
  | nil => rfl
  | cons call calls ih =>
    obtain ⟨after, hend, -⟩ := perform_eq call buffer
    rw [List.cons_append, performAll_cons hend, performAll_cons hend, ih]
    rfl

/-- What a buffer holds after several calls: what it held before, and behind that the bytes of
those that came through. -/
theorem bytes_performAll (buffer : FixedBuffer) (calls : List Call) :
    (performAll buffer calls).1.length = calls.length ∧
      (performAll buffer calls).2.capacity = buffer.capacity ∧
      (performAll buffer calls).2.bytes =
        buffer.bytes ++ accepted calls (performAll buffer calls).1 := by
  induction calls generalizing buffer with
  | nil => exact ⟨rfl, rfl, (List.append_nil _).symm⟩
  | cons call calls ih =>
    obtain ⟨after, hend, hcapacity, hbytes⟩ := perform_eq call buffer
    obtain ⟨hlength, hsame, hlater⟩ := ih after
    rw [performAll_cons hend]
    refine ⟨congrArg Nat.succ hlength, hsame.trans hcapacity, hlater.trans ?_⟩
    unfold accepted
    rw [hbytes, List.append_assoc, List.zip_cons_cons, List.filter_cons]
    split_ifs <;> simp

/-- After any calls, a buffer holds the bytes of those that came through, in their order and
nothing else, and its cursor stands behind them. The call that comes next is refused for want of
room, or because its box cannot be written, or else it is accepted; a refusal leaves what the
buffer holds as it is. -/
theorem holds_accepted (capacity : Nat) (calls : List Call) :
    let endings := (performAll (ofCapacity capacity) calls).1
    let buffer := (performAll (ofCapacity capacity) calls).2
    endings.length = calls.length ∧
      buffer.offset + buffer.remaining = capacity ∧
      buffer.bytes = accepted calls endings ∧ buffer.release = accepted calls endings ∧
      ∀ call : Call, ∃ after : FixedBuffer,
        performAll (ofCapacity capacity) (calls ++ [call]) =
          (endings ++ [call.refusal? buffer.remaining], after) ∧
        after.offset + after.remaining = capacity ∧
        (call.refusal? buffer.remaining = none → after.bytes = buffer.bytes ++ call.encoding) ∧
        (call.refusal? buffer.remaining ≠ none →
          after.offset = buffer.offset ∧ after.bytes = buffer.bytes) := by
  intro endings buffer
  have hstart : (ofCapacity capacity).capacity = capacity := List.length_replicate
  obtain ⟨hlength, hcapacity, hbytes⟩ := bytes_performAll (ofCapacity capacity) calls
  refine ⟨hlength, ?_, hbytes, hbytes, fun call => ?_⟩
  · rw [offset_add_remaining, hcapacity, hstart]
  · obtain ⟨after, hend, hafter, hheld⟩ := perform_eq call buffer
    refine ⟨after, ?_, ?_, fun haccepted => ?_, fun hrefused => ?_⟩
    · rw [performAll_append, performAll_cons hend]
      rfl
    · rw [offset_add_remaining, hafter, hcapacity, hstart]
    · rw [hheld, haccepted]
      rfl
    · have hsame : after.bytes = buffer.bytes := by
        rw [hheld, if_neg (by simpa using hrefused), List.append_nil]
      exact ⟨by rw [← length_bytes, hsame, length_bytes], hsame⟩

/-- A run that is stopped leaves its header and its first sample behind the cursor, and a box is
too large. Neither is seen in front of the box that is written over them. -/
theorem holds_accepted_around_failures :
    let run : TrackRun := ⟨none, none, [⟨some 1, none, none, none⟩, ⟨none, none, none, none⟩]⟩
    let calls : List Call := [.writeBytes [9], .writeBox (.trackRun run),
      .writeBox (.mediaData ⟨List.replicate 32 0⟩), .writeBox (.movieFragmentHeader ⟨7⟩)]
    let endings := (performAll (ofCapacity 40) calls).1
    let buffer := (performAll (ofCapacity 40) calls).2
    endings = [none, some (.error (.invalidBox .trun (.mixedSampleFields 2))),
        some (.error (.bufferOverflow 40 39)), none] ∧
      buffer.bytes = [9, 0, 0, 0, 16, 109, 102, 104, 100, 0, 0, 0, 0, 0, 0, 0, 7] ∧
      buffer.release = buffer.bytes ∧ buffer.offset + buffer.remaining = 40 := by
  intro run calls endings buffer
  have hendings : endings = [none, some (.error (.invalidBox .trun (.mixedSampleFields 2))),
      some (.error (.bufferOverflow 40 39)), none] := by
    decide +kernel
  have haccepted : accepted calls endings =
      [9, 0, 0, 0, 16, 109, 102, 104, 100, 0, 0, 0, 0, 0, 0, 0, 7] := by
    decide +kernel
  obtain ⟨-, hcapacity, hbytes, hrelease, -⟩ := holds_accepted 40 calls
  exact ⟨hendings, hbytes.trans haccepted, hrelease.trans hbytes.symm, hcapacity⟩

end FixedBuffer
end FragmentedMp4
