import FragmentedMp4.CommandLine.Program
import FragmentedMp4.Proofs.Segment.RecutOutput

/-!
# A file that is cut anew keeps its samples

A run of the command reads a file, cuts the segment in it and writes the new fragments to another
file. It fails only where the file cannot be read as a segment or the segment cannot be cut, and
then it writes nothing. All that the later stages rely on is there when the cut has succeeded: every
box can be written, the buffer has exactly the size that they take, and a reader gets the samples
of the source back. This holds in any system, whatever its files are and however it loads variables
and reads arguments.
-/
namespace FragmentedMp4.CommandLine

open WriteStep

/-- What is written to a path is found there, as in a file. -/
def System.Keeps {SystemText Files Variables : Type} (system : System SystemText Files Variables)
    (files : Files) (path : SystemText) : Prop :=
  ∀ content after, system.write files path content = (.ok (), after) →
    system.read after path = .ok content

namespace Program

theorem assemble_eq (source : Segment) (compact withoutType : Bool) (fragments : List Fragment) :
    assemble source compact withoutType fragments =
      ⟨if withoutType then none else some (source.segmentType.getD .cmaf),
        fragments.map (SegmentPart.mk []), [], if compact then .compact else .stored, 0⟩ := by
  have hfold (fresh : Segment) (hnone : fresh.trailing = []) :
      fragments.foldl Segment.addFragment fresh =
        { fresh with parts := fresh.parts ++ fragments.map (SegmentPart.mk []) } := by
    induction fragments generalizing fresh with
    | nil => simp
    | cons fragment fragments ih =>
      rw [List.foldl_cons, ih (fresh.addFragment fragment) rfl]
      simp [Segment.addFragment, hnone]
  unfold assemble
  rw [hfold _ rfl]
  rfl

/-- What a segment has to be that was cut from a source: it has no index boxes and the segment type
that was asked for, and its samples are those of the source under its defaults, in order and in
track, flags, duration, size, composition offset and data. It takes no defaults to read them, as
long as their decode times fit. -/
structure RecutOf (source : Segment) (defaults : TrackExtends) (withoutType : Bool)
    (fragments : List Fragment) (decoded : Segment) : Prop where
  indexes : decoded.indexBuckets.flatten = []
  segmentType : decoded.segmentType =
    if withoutType then none else some (source.segmentType.getD .cmaf)
  samples : ∀ trex, (∀ fragment ∈ fragments, fragment.samples trex ≠ .error .overflow) →
    ∃ expected read, source.fragments.mapM (Fragment.traced (some defaults)) = .ok expected ∧
      decoded.fragments.mapM (Fragment.traced trex) = .ok read ∧
      read.flatten.map TracedSample.content = expected.flatten.map TracedSample.content

variable {source : Segment} {compact withoutType : Bool} {fragments : List Fragment}
  {content : Bytes} {defaults : TrackExtends} {target : Nat}

theorem writable_segmentType (hlength : content.length < 2 ^ 63)
    (hdecode : Segment.decode content = .ok source) :
    ∀ box ∈ (assemble source compact withoutType fragments).segmentType, Box.Writable box := by
  intro box hmem
  rw [assemble_eq, Option.mem_def] at hmem
  simp only at hmem
  by_cases hnone : withoutType = true
  · rw [if_pos hnone] at hmem
    cases hmem
  · rw [if_neg hnone] at hmem
    cases htype : source.segmentType with
    | none =>
      rw [htype] at hmem
      cases hmem
      exact ⟨by decide, rfl⟩
    | some found =>
      rw [htype] at hmem
      cases hmem
      obtain ⟨isStart, haccepted⟩ := Segment.accepted_of_decodeAt hdecode
      have hroom : Box.room [.moof, .traf] content < 2 ^ 64 :=
        (Box.room_le content).trans_lt (by omega)
      have hbox := haccepted.writable hroom (.segmentType found)
        (List.mem_append_left _ (by simp [htype]))
      exact ⟨hbox.size_lt, hbox.complete⟩

/-- The new fragments of a segment that was read can always be written. They fill a buffer of the
size of the new segment, and what is read from that has the samples of the source. -/
theorem encoded_assemble (hlength : content.length < 2 ^ 63)
    (hdecode : Segment.decode content = .ok source)
    (hrecut : source.recut defaults target = .ok fragments) (compact withoutType : Bool) :
    ∃ written, encoded (assemble source compact withoutType fragments) = .ok written ∧
      written.length = (assemble source compact withoutType fragments).size ∧
      ((compact = true → ∀ fragment ∈ fragments,
          fragment.sampleCount ≤ TrackRun.maxFieldlessSamples) →
        ∃ decoded, Segment.decode written = .ok decoded ∧
          RecutOf source defaults withoutType fragments decoded) := by
  set fresh := assemble source compact withoutType fragments with hfresh
  have heq := assemble_eq source compact withoutType fragments
  rw [← hfresh] at heq
  have hparts : fresh.parts = fragments.map (SegmentPart.mk []) := by rw [heq]
  have hlayout : fresh.layout = .compact → compact = true := by
    rw [heq]
    cases compact
    · exact fun h => nomatch h
    · exact fun _ => rfl
  have htype : fresh.segmentType =
      if withoutType then none else some (source.segmentType.getD .cmaf) := by rw [heq]
  obtain ⟨hwritten, hwritable⟩ := Segment.written_recut hlength hdecode hrecut hparts
    (writable_segmentType hlength hdecode)
  obtain ⟨after, hbuffer, hbytes, hsize⟩ := Segment.writeBuffer_of_written hwritten hwritable
  refine ⟨after.bytes, ?_, hsize, ?_⟩
  · unfold encoded
    rw [hbuffer]
  · intro hcount
    obtain ⟨decoded, hread, hsame, hindexes, hsamples⟩ := Segment.decodeAt_recut hrecut hwritable
      (fun hcompact => hcount (hlayout hcompact)) 0
    rw [← hbytes] at hread
    exact ⟨decoded, hread, hindexes, hsame.trans htype, hsamples⟩

section Runs

variable {SystemText Files Variables : Type} [ToString SystemText]
  {system : System SystemText Files Variables} {environment loaded : Variables} {files : Files}
  {arguments : List SystemText} {input output : SystemText} {target : UInt32}
  {settings : TrackSettings} {written : Bytes}

theorem runIn_start (hload : system.loadVariables files environment = .ok loaded)
    {command : Command SystemText}
    (hcommand : system.parseArguments loaded arguments = .ok command) :
    (start arguments).runIn system environment files =
      (ofCommand command).runIn system loaded files := by
  rw [start, runIn, hload]
  simp only
  rw [runIn, hcommand]

theorem runIn_refragment_of_error (hread : system.read files input = .ok content)
    (h : ∀ source, Segment.decode content = .ok source →
      ∃ error, source.recut settings.defaults target.toNat = .error (.error error)) :
    ∃ outcome, outcome.status = 1 ∧
      (refragment input output target compact withoutType settings).runIn system environment files =
        (outcome, files) := by
  unfold refragment withSegment
  rw [runIn, hread]
  simp only
  cases hdecode : Segment.decode content with
  | error error => exact ⟨_, rfl, rfl⟩
  | ok source =>
    obtain ⟨error, hrecut⟩ := h source hdecode
    simp only [hrecut]
    exact ⟨_, rfl, rfl⟩

theorem runIn_refragment_of_ok (hread : system.read files input = .ok content)
    (hdecode : Segment.decode content = .ok source)
    (hrecut : source.recut settings.defaults target.toNat = .ok fragments)
    (hencoded : encoded (assemble source compact withoutType fragments) = .ok written)
    (hwrite : (system.write files output written).1 = .ok ()) :
    (refragment input output target compact withoutType settings).runIn system environment files =
      (.success [], (system.write files output written).2) := by
  unfold refragment withSegment
  rw [runIn, hread]
  simp only [hdecode, hrecut, hencoded, runIn, hwrite]

/-- In any system, a run of the command on a file that can be read, for a path that can be written
to, comes through exactly if the file holds a segment that can be cut; else it ends with an error
and changes nothing. When it comes through, it has written bytes to the path that have the size of
the new segment and are read as one with the samples of the source, provided that no fragment with
more than `2 ^ 20` samples was to be made compact. They are found there if the path is one that
keeps what is written to it, as a file does. Runs in which a decode time of the source does not fit
its word are left out. The bytes of a file are counted in 63 bits. -/
theorem refragment_faithful (hload : system.loadVariables files environment = .ok loaded)
    (hcommand : system.parseArguments loaded arguments =
      .ok (.refragment input output target compact withoutType settings))
    (hread : system.read files input = .ok content) (hlength : content.length < 2 ^ 63)
    (hwritable : ∀ content, (system.write files output content).1 = .ok ())
    (htimes : ∀ source, Segment.decode content = .ok source →
      source.recut settings.defaults target.toNat ≠ .error .overflow) :
    let run := (start arguments).runIn system environment files
    (run.1.status = 0 ↔ ∃ source fragments, Segment.decode content = .ok source ∧
      source.recut settings.defaults target.toNat = .ok fragments) ∧
    (run.1.status ≠ 0 → run.1.status = 1 ∧ run.2 = files) ∧
    ∀ source fragments, Segment.decode content = .ok source →
      source.recut settings.defaults target.toNat = .ok fragments →
      ∃ written, system.write files output written = (.ok (), run.2) ∧
        (system.Keeps files output → system.read run.2 output = .ok written) ∧
        written.length = (assemble source compact withoutType fragments).size ∧
        ((compact = true → ∀ fragment ∈ fragments,
            fragment.sampleCount ≤ TrackRun.maxFieldlessSamples) →
          ∃ decoded, Segment.decode written = .ok decoded ∧
            RecutOf source settings.defaults withoutType fragments decoded) := by
  intro run
  have hrun : run = (refragment input output target compact withoutType settings).runIn system
      loaded files := runIn_start hload hcommand
  by_cases hcut : ∃ source fragments, Segment.decode content = .ok source ∧
      source.recut settings.defaults target.toNat = .ok fragments
  · obtain ⟨source, fragments, hdecode, hrecut⟩ := hcut
    obtain ⟨written, hencoded, hsize, hsamples⟩ :=
      encoded_assemble hlength hdecode hrecut compact withoutType
    have hwrite := hwritable written
    have hend : run = (.success [], (system.write files output written).2) := by
      rw [hrun]
      exact runIn_refragment_of_ok hread hdecode hrecut hencoded hwrite
    have hstatus : run.1.status = 0 := by
      rw [hend]
      rfl
    refine ⟨iff_of_true hstatus ⟨source, fragments, hdecode, hrecut⟩,
      fun hne => absurd hstatus hne, ?_⟩
    intro other found hother hfound
    rw [hdecode] at hother
    cases hother
    rw [hrecut] at hfound
    cases hfound
    have hwritten : system.write files output written = (.ok (), run.2) := by
      rw [hend, ← hwrite]
    exact ⟨written, hwritten, fun hkeeps => hkeeps written run.2 hwritten, hsize, hsamples⟩
  · have herror : ∀ source, Segment.decode content = .ok source →
        ∃ error, source.recut settings.defaults target.toNat = .error (.error error) := by
      intro source hdecode
      exact (source.orderly_recut settings.defaults target.toNat).exists_error
        (fun fragments hrecut => hcut ⟨source, fragments, hdecode, hrecut⟩)
        (htimes source hdecode)
    obtain ⟨outcome, hstatus, hend⟩ : ∃ outcome, outcome.status = 1 ∧ run = (outcome, files) := by
      rw [hrun]
      exact runIn_refragment_of_error hread herror
    rw [hend]
    refine ⟨iff_of_false ?_ hcut, fun _ => ⟨hstatus, rfl⟩, ?_⟩
    · rw [hstatus]
      exact Nat.one_ne_zero
    · intro source fragments hdecode hrecut
      exact absurd ⟨source, fragments, hdecode, hrecut⟩ hcut

end Runs

/-- Named files, and one list of arguments with a meaning. -/
def namedFiles (meaning : List String × Command String) :
    System String (List (String × Bytes)) Unit where
  loadVariables _ _ := .ok ()
  parseArguments _ arguments :=
    if arguments = meaning.1 then .ok meaning.2 else .error ⟨2, [], ""⟩
  read files name :=
    match files.lookup name with
    | some content => .ok content
    | none => .error .notFound
  write files name content := (.ok (), (name, content) :: files)

/-- The first of two compact fragments takes samples from both fragments of the file. -/
theorem refragment_faithful_compact :
    let data : Bytes :=
      [0, 0, 0, 92, 109, 111, 111, 102, 0, 0, 0, 16, 109, 102, 104, 100, 0, 0, 0, 0, 0, 0, 0, 1,
        0, 0, 0, 68, 116, 114, 97, 102, 0, 0, 0, 16, 116, 102, 104, 100, 0, 2, 0, 0, 0, 0, 0, 7,
        0, 0, 0, 16, 116, 102, 100, 116, 0, 0, 0, 0, 0, 0, 0, 5, 0, 0, 0, 28, 116, 114, 117, 110,
        0, 0, 4, 1, 0, 0, 0, 2, 0, 0, 0, 100, 0, 0, 0, 0, 0, 0, 0, 1, 0, 0, 0, 10, 109, 100, 97,
        116, 1, 2, 0, 0, 0, 92, 109, 111, 111, 102, 0, 0, 0, 16, 109, 102, 104, 100, 0, 0, 0, 0,
        0, 0, 0, 2, 0, 0, 0, 68, 116, 114, 97, 102, 0, 0, 0, 16, 116, 102, 104, 100, 0, 2, 0, 0,
        0, 0, 0, 7, 0, 0, 0, 16, 116, 102, 100, 116, 0, 0, 0, 0, 0, 0, 0, 25, 0, 0, 0, 28, 116,
        114, 117, 110, 0, 0, 4, 1, 0, 0, 0, 2, 0, 0, 0, 100, 0, 0, 0, 0, 0, 0, 0, 1, 0, 0, 0, 10,
        109, 100, 97, 116, 3, 4]
    let arguments := ["refragment", "in.m4s", "out.m4s", "--target-duration", "25",
      "--optimize-trun", "--default-duration", "10", "--default-size", "1"]
    let settings : TrackSettings := ⟨1, 10, 1, 0⟩
    let system := namedFiles (arguments, .refragment "in.m4s" "out.m4s" 25 true false settings)
    let run := (start arguments).runIn system () [("in.m4s", data)]
    ∃ source fragments, Segment.decode data = .ok source ∧
      source.recut settings.defaults 25 = .ok fragments ∧ run.1.status = 0 ∧
      ∃ written, system.read run.2 "out.m4s" = .ok written ∧
        written.length = (assemble source true false fragments).size ∧
        ∃ decoded, Segment.decode written = .ok decoded ∧
          RecutOf source settings.defaults false fragments decoded := by
  intro data arguments settings system run
  let entries : TrackRun :=
    ⟨some 100, none, [⟨none, none, some 0, none⟩, ⟨none, none, some 1, none⟩]⟩
  let moof (sequenceNumber : UInt32) (time : UInt64) : MovieFragment :=
    ⟨⟨sequenceNumber⟩, [⟨.ofTrack 7, [entries], some ⟨0, time⟩⟩]⟩
  let source := ((Segment.ofType none).addFragment (.ofBoxes (moof 1 5) ⟨[1, 2]⟩)).addFragment
    (.ofBoxes (moof 2 25) ⟨[3, 4]⟩)
  let fragments : List Fragment :=
    [.ofSamples 1 7 144 ⟨0, 10, 1, 0, 5, [1]⟩ [⟨1, 10, 1, 0, 15, [2]⟩, ⟨0, 10, 1, 0, 25, [3]⟩],
      .ofSamples 2 7 112 ⟨1, 10, 1, 0, 35, [4]⟩ []]
  have hload : system.loadVariables [("in.m4s", data)] () = .ok () := rfl
  have hcommand : system.parseArguments () arguments =
      .ok (.refragment "in.m4s" "out.m4s" 25 true false settings) := by
    simp [system, namedFiles]
  have hread : system.read [("in.m4s", data)] "in.m4s" = .ok data := rfl
  have hlength : data.length < 2 ^ 63 := by decide +kernel
  have hwritable : ∀ content, (system.write [("in.m4s", data)] "out.m4s" content).1 = .ok () :=
    fun _ => rfl
  have hkeeps : system.Keeps [("in.m4s", data)] "out.m4s" := by
    intro content after hwrite
    cases hwrite
    rfl
  have hdecode : Segment.decode data = .ok source := by decide +kernel
  have hrecut : source.recut settings.defaults 25 = .ok fragments := by decide +kernel
  have hcount : ∀ fragment ∈ fragments, fragment.sampleCount ≤ TrackRun.maxFieldlessSamples := by
    decide +kernel
  have htimes : ∀ other, Segment.decode data = .ok other →
      other.recut settings.defaults 25 ≠ .error .overflow := by
    intro other hother
    rw [hdecode] at hother
    cases hother
    rw [hrecut]
    exact fun h => nomatch h
  have hfaithful := refragment_faithful hload hcommand hread hlength hwritable htimes
  obtain ⟨hstatus, -, hwritten⟩ := hfaithful
  obtain ⟨written, -, hfile, hsize, hsamples⟩ := hwritten source fragments hdecode hrecut
  exact ⟨source, fragments, hdecode, hrecut, hstatus.2 ⟨source, fragments, hdecode, hrecut⟩,
    written, hfile hkeeps, hsize, hsamples fun _ => hcount⟩

end Program
end FragmentedMp4.CommandLine
