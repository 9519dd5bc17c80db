import FragmentedMp4.Proofs.Fragment.Accepted
import FragmentedMp4.Proofs.Segment.RoundTrip

/-!
# Fragments and segments among other bytes

Only the two boxes of a fragment decide what is read of it, if their sizes are given: what follows
them may be anything else, and if some of their last bytes are missing nothing is read. So a
segment is read box by box, and what has been read does not depend on the bytes behind it.
-/
namespace FragmentedMp4

namespace Fragment

variable {data : Bytes} {fragment : Fragment} {used : Nat}

theorem topBoxes_of_decode (h : decode data = .ok (fragment, used)) :
    ∃ moof mdat, Box.topBoxes data = moof :: mdat :: Box.topBoxes (data.drop used) := by
  obtain ⟨moof, moofSize, _, mdatSize, hmoof, -, hmdat, hused, -⟩ := decode_eq_ok h
  obtain ⟨moofHeader, hmoofParse, -, rfl, -⟩ := Box.decodeAs_eq_ok hmoof
  obtain ⟨mdatHeader, hmdatParse, -, rfl, -⟩ := Box.decodeAs_eq_ok hmdat
  rw [Box.topBoxes_of_parse hmoofParse, Box.topBoxes_of_parse hmdatParse, List.drop_drop, ← hused]
  exact ⟨_, _, rfl⟩

/-- A fragment is read alike whatever follows its two boxes, and is not read when bytes are
missing at its end. -/
theorem decode_take (h : decode data = .ok (fragment, used)) (hsized : Box.Sized data) :
    (∀ other, decode (data.take used ++ other) = .ok (fragment, used)) ∧
      ∀ count < used, ∃ error, decode (data.take count) = .error error := by
  have hwhole := h
  unfold decode at h
  obtain ⟨⟨moof, moofSize⟩, hmoof, h⟩ := bind_eq_ok.1 h
  obtain ⟨header, hheader, h⟩ := bind_eq_ok.1 h
  obtain ⟨⟨mdat, mdatSize⟩, hmdat, h⟩ := bind_eq_ok.1 h
  have hused : used = moofSize + mdatSize := by
    obtain ⟨moved, -, h⟩ := bind_eq_ok.1 h
    cases h
    rfl
  obtain ⟨moofHeader, hmoofParse, -, rfl, -⟩ := Box.decodeAs_eq_ok hmoof
  obtain ⟨mdatHeader, hmdatParse, -, rfl, -⟩ := Box.decodeAs_eq_ok hmdat
  obtain ⟨hmoofSized, hrest⟩ := hsized.split hmoofParse
  obtain ⟨hmdatSized, -⟩ := hrest.split hmdatParse
  have hmoofBounds := BoxHeader.parse_bounds hmoofParse
  have htwo : data.take used =
      data.take moofHeader.size ++ (data.drop moofHeader.size).take mdatHeader.size := by
    rw [hused, List.take_add]
  have hdrop : ∀ other, (data.take moofHeader.size ++ other).drop moofHeader.size = other :=
    fun other => List.drop_left' (by rw [List.length_take]; omega)
  constructor
  · intro other
    obtain ⟨-, hmoofSame⟩ := Box.decodeAs_take .moof MovieFragment.decodeContents hmoofParse
      hmoofSized ((data.drop moofHeader.size).take mdatHeader.size ++ other)
    obtain ⟨hparse, hmdatSame⟩ := Box.decodeAs_take .mdat MediaData.decodeContents hmdatParse
      hmdatSized other
    rw [← hwhole, htwo, List.append_assoc]
    unfold decode MovieFragment.decode MediaData.decode mediaDataHeader at *
    simp only [hmoofSame, hmoof, bind, Except.bind, hdrop, hparse, hmdatParse, hmdatSame]
  · intro count hcount
    by_cases hshort : count < moofHeader.size
    · obtain ⟨error, herror⟩ := BoxHeader.parse_take hmoofParse hmoofSized hshort
      refine ⟨error, ?_⟩
      unfold decode MovieFragment.decode Box.decodeAs
      simp only [herror, bind, Except.bind]
    · have hcut : data.take count = data.take moofHeader.size ++
          (data.drop moofHeader.size).take (count - moofHeader.size) := by
        rw [← List.take_add]
        congr 1
        omega
      have hmissing : count - moofHeader.size < mdatHeader.size := by omega
      obtain ⟨error, herror⟩ := BoxHeader.parse_take hmdatParse hmdatSized hmissing
      obtain ⟨-, hsame⟩ := Box.decodeAs_take .moof MovieFragment.decodeContents hmoofParse
        hmoofSized ((data.drop moofHeader.size).take (count - moofHeader.size))
      refine ⟨.missingBox .mdat "fragment", ?_⟩
      unfold decode MovieFragment.decode mediaDataHeader at *
      simp only [hcut, hsame, hmoof, bind, Except.bind, hdrop, herror]

end Fragment

namespace Segment

variable {isStart : Bool} {segment next : Segment} {data : Bytes}

theorem decodeFrom_of_error {error : Error} (hne : data ≠ [])
    (h : BoxHeader.parse data = .error error) :
    decodeFrom isStart segment data = .error error := by
  have hfull : data.isEmpty = false := by simp [hne]
  rw [decodeFrom, hfull, if_neg Bool.false_ne_true]
  split
  · rename_i found hfound
    rw [h] at hfound
    cases hfound
    rfl
  · rename_i header hheader
    rw [h] at hheader
    cases hheader

theorem decodeFrom_of_parse {header : BoxHeader} (h : BoxHeader.parse data = .ok header) :
    decodeFrom isStart segment data = (decodeNext isStart segment header data >>= fun step =>
      decodeFrom false step.1 (data.drop step.2)) := by
  have hbounds := BoxHeader.parse_bounds h
  have hne : data ≠ [] := List.ne_nil_of_length_pos (by omega)
  have hfull : data.isEmpty = false := by simp [hne]
  rw [decodeFrom, hfull, if_neg Bool.false_ne_true]
  split
  · rename_i error herror
    rw [h] at herror
    cases herror
  · rename_i found hfound
    rw [h] at hfound
    cases hfound
    split
    · rename_i error herror
      rw [herror]
      rfl
    · rename_i next used hnext
      rw [hnext]
      rfl

theorem decodeFrom_eq_ok {final : Segment} (hne : data ≠ [])
    (h : decodeFrom isStart segment data = .ok final) :
    ∃ header next used, BoxHeader.parse data = .ok header ∧
      decodeNext isStart segment header data = .ok (next, used) ∧
      decodeFrom false next (data.drop used) = .ok final := by
  cases hparse : BoxHeader.parse data with
  | error error =>
    rw [decodeFrom_of_error hne hparse] at h
    cases h
  | ok header =>
    rw [decodeFrom_of_parse hparse] at h
    obtain ⟨⟨next, used⟩, hnext, hrest⟩ := bind_eq_ok.1 h
    exact ⟨header, next, used, rfl, hnext, hrest⟩

theorem topBoxes_of_next {header : BoxHeader} {used : Nat}
    (hparse : BoxHeader.parse data = .ok header)
    (h : decodeNext isStart segment header data = .ok (next, used)) :
    Box.topBoxes (data.drop used) ⊆ Box.topBoxes data := by
  have hother : Box.topBoxes (data.drop header.size) ⊆ Box.topBoxes data := by
    rw [Box.topBoxes_of_parse hparse]
    exact List.subset_cons_self _ _
  unfold decodeNext at h
  split_ifs at h
  · obtain ⟨_, _, h⟩ := bind_eq_ok.1 h
    cases h
    exact hother
  · obtain ⟨_, _, h⟩ := bind_eq_ok.1 h
    cases h
    exact hother
  · obtain ⟨⟨fragment, size⟩, hdecode, h⟩ := bind_eq_ok.1 h
    cases h
    obtain ⟨moof, mdat, hboxes⟩ := Fragment.topBoxes_of_decode (mapError_eq_ok.1 hdecode)
    rw [hboxes]
    exact fun box hmem => List.mem_cons_of_mem _ (List.mem_cons_of_mem _ hmem)
  · cases h
    exact hother

/-- One step of reading is the same whatever follows the bytes that it takes, and comes to
nothing when some of the last of these are missing. -/
theorem decodeNext_take {header : BoxHeader} {used : Nat}
    (hparse : BoxHeader.parse data = .ok header)
    (h : decodeNext isStart segment header data = .ok (next, used)) (hsized : Box.Sized data) :
    header.size ≤ used ∧
    (∀ other, decodeNext isStart segment header (data.take used ++ other) = .ok (next, used)) ∧
    ∀ count, header.size ≤ count → count < used →
      ∃ error, decodeNext isStart segment header (data.take count) = .error error := by
  obtain ⟨hopen, -⟩ := hsized.split hparse
  unfold decodeNext at h ⊢
  split_ifs at h ⊢ with htype hlate hindex hmoof hmdat
  · obtain ⟨⟨box, size⟩, hdecode, h⟩ := bind_eq_ok.1 h
    cases h
    refine ⟨le_rfl, ?_, fun count hmin hmax => by omega⟩
    intro other
    obtain ⟨-, hsame⟩ := Box.decodeAs_take .styp SegmentType.decodeContents hparse hopen other
    unfold SegmentType.decode at *
    simp only [hsame, hdecode, bind, Except.bind]
    rfl
  · obtain ⟨⟨index, size⟩, hdecode, h⟩ := bind_eq_ok.1 h
    cases h
    refine ⟨le_rfl, ?_, fun count hmin hmax => by omega⟩
    intro other
    obtain ⟨-, hsame⟩ := Box.decodeAs_take .sidx SegmentIndex.decodeContents hparse hopen other
    unfold SegmentIndex.decode at *
    simp only [hsame, hdecode, bind, Except.bind]
    rfl
  · obtain ⟨⟨fragment, size⟩, hdecode, h⟩ := bind_eq_ok.1 h
    cases h
    have hfragment := mapError_eq_ok.1 hdecode
    obtain ⟨hsame, hshort⟩ := Fragment.decode_take hfragment hsized
    refine ⟨?_, ?_, ?_⟩
    · obtain ⟨_, _, _, _, hfirst, -, -, hsum, -⟩ := Fragment.decode_eq_ok hfragment
      obtain ⟨hsize, -⟩ := Box.decodeContents_of_decodeAs hparse hfirst
      omega
    · intro other
      simp only [hsame, mapError_ok, bind, Except.bind]
      rfl
    · intro count _ hcount
      obtain ⟨error, herror⟩ := hshort count hcount
      refine ⟨.inFragment (segment.parts.length + 1) error, ?_⟩
      simp only [herror, mapError_error, bind, Except.bind]
  · cases h
    exact ⟨le_rfl, fun other => rfl, fun count hmin hmax => by omega⟩

theorem decodeFrom_of_next {header : BoxHeader} {used : Nat}
    (hparse : BoxHeader.parse data = .ok header)
    (h : decodeNext isStart segment header data = .ok (next, used)) (hsized : Box.Sized data)
    (other : Bytes) :
    decodeFrom isStart segment (data.take used ++ other) = decodeFrom false next other := by
  obtain ⟨hopen, -⟩ := hsized.split hparse
  obtain ⟨hmin, hmax⟩ := decodeNext_used hparse h
  obtain ⟨hle, hsame, -⟩ := decodeNext_take hparse h hsized
  have hlength : (data.take used).length = used := by
    rw [List.length_take, Nat.min_eq_left hmax]
  apply decodeFrom_step
  · exact List.ne_nil_of_length_pos (by omega)
  · exact BoxHeader.parse_of_take hparse hopen hle other
  · rw [hlength]
    exact hsame other

theorem decodeFrom_of_cut {header : BoxHeader} {used : Nat}
    (hparse : BoxHeader.parse data = .ok header)
    (h : decodeNext isStart segment header data = .ok (next, used)) (hsized : Box.Sized data)
    {count : Nat} (hpos : 0 < count) (hcount : count < used) :
    ∃ error, decodeFrom isStart segment (data.take count) = .error error := by
  obtain ⟨hopen, -⟩ := hsized.split hparse
  obtain ⟨hmin, hmax⟩ := decodeNext_used hparse h
  obtain ⟨-, -, hcut⟩ := decodeNext_take hparse h hsized
  cases hread : decodeFrom isStart segment (data.take count) with
  | error error => exact ⟨error, rfl⟩
  | ok final =>
    exfalso
    have hne : data.take count ≠ [] := List.ne_nil_of_length_pos (by rw [List.length_take]; omega)
    obtain ⟨found, after, taken, hfound, hafter, -⟩ := decodeFrom_eq_ok hne hread
    by_cases hshort : count < header.size
    · obtain ⟨error, herror⟩ := BoxHeader.parse_take hparse hopen hshort
      rw [herror] at hfound
      cases hfound
    · have hsame := BoxHeader.parse_of_take hparse hopen (Nat.not_lt.1 hshort) []
      rw [List.append_nil, hfound] at hsame
      cases hsame
      obtain ⟨error, herror⟩ := hcut count (Nat.not_lt.1 hshort) hcount
      rw [herror] at hafter
      cases hafter

/-- What is read of some bytes, and then of those that follow them. -/
theorem decodeFrom_append {final : Segment} (h : decodeFrom isStart segment data = .ok final)
    (hsized : Box.Sized data) (other : Bytes) :
    decodeFrom isStart segment (data ++ other) =
      decodeFrom (isStart && data.isEmpty) final other := by
  fun_induction decodeFrom isStart segment data with
  | case1 isStart segment data hempty =>
    cases h
    rw [List.isEmpty_iff.1 hempty]
    simp
  | case2 isStart segment data hne error hparse => cases h
  | case3 isStart segment data hne header hparse error hfailed => cases h
  | case4 isStart segment data hne header hparse next used hnext ih =>
    have hrest := ih h (hsized.mono (topBoxes_of_next hparse hnext))
    have hstep := decodeFrom_of_next hparse hnext hsized (data.drop used ++ other)
    rw [← List.append_assoc, List.take_append_drop] at hstep
    rw [hstep, hrest, Bool.false_and]
    simp [hne]

end Segment

/-! ### Written boxes -/

namespace Box

variable {α : Type} [IsBox α] {box : α}

/-- No box is written without its size. -/
theorem not_openEnded_emission (box : α) (rest : Bytes) :
    ¬ BoxHeader.OpenEnded ((emission box).bytes ++ rest) := by
  unfold BoxHeader.OpenEnded
  rw [emission_bytes_eq, header]
  by_cases hshort : size box ≤ maxShortSize
  · have hsize : size box < widthLimit 4 := Nat.lt_succ_of_le hshort
    rw [if_pos hshort, List.append_assoc, List.append_assoc,
      List.take_left' (length_bigEndian 4 _), bigEndianValue_bigEndian_of_lt hsize]
    exact (sizeOfBody_pos _).ne'
  · rw [if_neg hshort, List.append_assoc, List.append_assoc, List.append_assoc,
      List.take_left' (length_bigEndian 4 _), bigEndianValue_bigEndian_of_lt (by decide)]
    decide

theorem topBoxes_emission [ExactBox α] (h : Writable box) (rest : Bytes) :
    topBoxes ((emission box).bytes ++ rest) =
      ⟨writtenHeader box, (emission box).bytes⟩ :: topBoxes rest := by
  rw [topBoxes_of_parse (parse_emission h rest), take_emission h, drop_emission h]

theorem sized_bytesOf {boxes : List AnyBox} (h : ∀ box ∈ boxes, Writable box) :
    Sized (WriteStep.bytesOf boxes) := by
  induction boxes with
  | nil =>
    intro box hmem
    rw [WriteStep.bytesOf_nil, topBoxes] at hmem
    cases hmem
  | cons box boxes ih =>
    have hfirst := h box (List.mem_cons_self ..)
    intro other hmem
    rw [WriteStep.bytesOf_cons, topBoxes_emission hfirst] at hmem
    rcases List.mem_cons.1 hmem with rfl | hmem
    · have hsized := not_openEnded_emission box []
      rwa [List.append_nil] at hsized
    · exact ih (fun later hlater => h later (List.mem_cons_of_mem _ hlater)) other hmem

end Box
end FragmentedMp4
