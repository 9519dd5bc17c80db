import FragmentedMp4.Box.Header
import FragmentedMp4.Proofs.Results

/-!
# The boxes at the top of some bytes

A reader of boxes is given all bytes from the front of a box on. Only the bytes of the box itself
decide what is read, unless its size field says that it extends to the end: what follows it may be
anything else, and if some of its last bytes are missing it is not accepted.
-/
namespace FragmentedMp4

theorem FourCC.ofBytes?_append {front : Bytes} (h : 4 ≤ front.length) (rest : Bytes) :
    FourCC.ofBytes? (front ++ rest) = FourCC.ofBytes? front := by
  match front, h with
  | _ :: _ :: _ :: _ :: _, _ => rfl

namespace BoxHeader

/-- The size field at the start of some bytes says that the box extends to their end. -/
def OpenEnded (data : Bytes) : Prop :=
  bigEndianValue (data.take 4) = 0

instance (data : Bytes) : Decidable (OpenEnded data) :=
  inferInstanceAs (Decidable (_ = _))

theorem extent_append {name : FourCC} {front rest : Bytes} {size headerSize : Nat}
    (h : extent name (front ++ rest) = .ok (size, headerSize)) (hsized : ¬ OpenEnded front)
    (hlength : headerSize ≤ front.length) (other : Bytes) :
    extent name (front ++ other) = .ok (size, headerSize) := by
  have hheader := extent_headerSize h
  have hfield : ∀ last : Bytes, (front ++ last).take 4 = front.take 4 := fun last =>
    List.take_append_of_le_length (by omega)
  unfold extent at h ⊢
  rw [hfield] at h ⊢
  split at h
  · rename_i hzero
    exact absurd hzero hsized
  · split_ifs at h with hshort
    cases h
    have hlarge : 16 ≤ front.length := hlength
    have hwide : ∀ last : Bytes, ((front ++ last).drop 8).take 8 = (front.drop 8).take 8 := by
      intro last
      rw [List.drop_append_of_le_length (by omega),
        List.take_append_of_le_length (by rw [List.length_drop]; omega)]
    rw [hwide, hwide]
    exact if_neg (by rw [List.length_append]; omega)
  · cases h
    rfl

/-- The header of a box is the same whatever follows the box. -/
theorem parse_append {front rest : Bytes} {header : BoxHeader}
    (h : parse (front ++ rest) = .ok header) (hsize : header.size = front.length)
    (hsized : ¬ OpenEnded front) (other : Bytes) : parse (front ++ other) = .ok header := by
  obtain ⟨hmin, hle, -⟩ := parse_bounds h
  have hname : ∀ last : Bytes, FourCC.ofBytes? ((front ++ last).drop 4) =
      FourCC.ofBytes? (front.drop 4) := by
    intro last
    rw [List.drop_append_of_le_length (by omega)]
    exact FourCC.ofBytes?_append (by rw [List.length_drop]; omega) last
  unfold parse at h ⊢
  rw [hname] at h ⊢
  cases hcode : FourCC.ofBytes? (front.drop 4) with
  | none =>
    rw [hcode] at h
    cases h
  | some name =>
    rw [hcode] at h
    obtain ⟨⟨size, headerSize⟩, hextent, h⟩ := bind_eq_ok.1 h
    simp only at h
    split_ifs at h with hsmall hlarge
    cases h
    simp only at hsize hle
    have hsame := extent_append hextent hsized (by omega) other
    simp only [hsame, bind, Except.bind]
    rw [if_neg hsmall, if_neg (by rw [List.length_append]; omega)]

theorem openEnded_take {data : Bytes} {count : Nat} (h : 4 ≤ count) :
    OpenEnded (data.take count) ↔ OpenEnded data := by
  unfold OpenEnded
  rw [List.take_take, Nat.min_eq_left h]

theorem parse_of_take {data : Bytes} {header : BoxHeader} (h : parse data = .ok header)
    (hsized : ¬ OpenEnded data) {count : Nat} (hcount : header.size ≤ count) (other : Bytes) :
    parse (data.take count ++ other) = .ok header := by
  obtain ⟨hmin, hle, hfits⟩ := parse_bounds h
  have hlength : header.size = (data.take header.size).length := by
    rw [List.length_take, Nat.min_eq_left hfits]
  have hcut : data.take count =
      data.take header.size ++ (data.drop header.size).take (count - header.size) := by
    rw [← List.take_add, Nat.add_sub_cancel' hcount]
  rw [← List.take_append_drop header.size data] at h
  rw [hcut, List.append_assoc]
  exact parse_append h hlength (by rwa [openEnded_take (by omega)]) _

/-- A box of which bytes are missing at the end is not accepted. -/
theorem parse_take {data : Bytes} {header : BoxHeader} (h : parse data = .ok header)
    (hsized : ¬ OpenEnded data) {count : Nat} (hcount : count < header.size) :
    ∃ error, parse (data.take count) = .error error := by
  cases hshort : parse (data.take count) with
  | error error => exact ⟨error, rfl⟩
  | ok found =>
    exfalso
    obtain ⟨hmin, hle, hfits⟩ := parse_bounds hshort
    rw [List.length_take] at hfits
    have hfront : data.take count = data.take found.size ++ (data.take count).drop found.size := by
      rw [← List.take_append_drop found.size (data.take count), List.take_take,
        Nat.min_eq_left (by omega), List.drop_append_of_le_length (by simp; omega)]
      simp
    have hlength : found.size = (data.take found.size).length := by
      rw [List.length_take]
      omega
    rw [hfront] at hshort
    have hwhole := parse_append hshort hlength (by rwa [openEnded_take (by omega)])
      (data.drop found.size)
    rw [List.take_append_drop, h] at hwhole
    cases hwhole
    omega

theorem form_of_parse {data : Bytes} {header : BoxHeader} (h : parse data = .ok header) :
    OpenEnded data ∧ header.size = data.length ∨
      ¬ OpenEnded data ∧ (header.headerSize = 16 ∨ header.size ≤ Box.maxShortSize) := by
  unfold parse at h
  cases hcode : FourCC.ofBytes? (data.drop 4) with
  | none =>
    rw [hcode] at h
    cases h
  | some name =>
    rw [hcode] at h
    obtain ⟨⟨size, headerSize⟩, hextent, h⟩ := bind_eq_ok.1 h
    simp only at h
    split_ifs at h
    cases h
    unfold extent at hextent
    split at hextent
    · rename_i hzero
      cases hextent
      exact .inl ⟨hzero, rfl⟩
    · rename_i hone
      split_ifs at hextent
      cases hextent
      exact .inr ⟨by simp [OpenEnded, hone], .inl rfl⟩
    · rename_i hzero _
      cases hextent
      have hlt := bigEndianValue_lt (data.take 4)
      have hwidth : widthLimit (data.take 4).length ≤ widthLimit 4 :=
        widthLimit_mono (List.length_take_le 4 data)
      exact .inr ⟨hzero, .inr (Nat.le_of_lt_succ (hlt.trans_le hwidth))⟩

theorem parse_take_size {data : Bytes} {header : BoxHeader} (h : parse data = .ok header) :
    parse (data.take header.size) = .ok header := by
  rcases form_of_parse h with ⟨-, hsize⟩ | ⟨hsized, -⟩
  · rw [hsize, List.take_length]
    exact h
  · have htake := parse_of_take h hsized le_rfl []
    rwa [List.append_nil] at htake

end BoxHeader

structure TopBox where
  header : BoxHeader
  bytes : Bytes

namespace Box

/-- The boxes that follow each other from the start of some bytes, up to one that is not
complete. -/
def topBoxes (data : Bytes) : List TopBox :=
  match _h : BoxHeader.parse data with
  | .error _ => []
  | .ok header => ⟨header, data.take header.size⟩ :: topBoxes (data.drop header.size)
termination_by data.length
decreasing_by exact BoxHeader.length_drop_lt _h

/-- The size of each box at the top is given. -/
def Sized (data : Bytes) : Prop :=
  ∀ box ∈ topBoxes data, ¬ BoxHeader.OpenEnded box.bytes

instance (data : Bytes) : Decidable (Sized data) :=
  inferInstanceAs (Decidable (∀ box ∈ topBoxes data, _))

theorem topBoxes_of_parse {data : Bytes} {header : BoxHeader}
    (h : BoxHeader.parse data = .ok header) :
    topBoxes data = ⟨header, data.take header.size⟩ :: topBoxes (data.drop header.size) := by
  rw [topBoxes]
  split
  · rename_i error herror
    rw [h] at herror
    cases herror
  · rename_i found hfound
    rw [h] at hfound
    cases hfound
    rfl

theorem topBoxes_of_error {data : Bytes} {error : Error}
    (h : BoxHeader.parse data = .error error) : topBoxes data = [] := by
  rw [topBoxes]
  split
  · rfl
  · rename_i header hheader
    rw [h] at hheader
    cases hheader

theorem Sized.split {data : Bytes} {header : BoxHeader} (hsized : Sized data)
    (h : BoxHeader.parse data = .ok header) :
    ¬ BoxHeader.OpenEnded data ∧ Sized (data.drop header.size) := by
  have hbounds := BoxHeader.parse_bounds h
  unfold Sized at *
  rw [topBoxes_of_parse h] at hsized
  have hfirst := hsized _ (List.mem_cons_self ..)
  rw [BoxHeader.openEnded_take (by omega)] at hfirst
  exact ⟨hfirst, fun box hmem => hsized box (List.mem_cons_of_mem _ hmem)⟩

theorem Sized.mono {data rest : Bytes} (hsized : Sized data)
    (h : topBoxes rest ⊆ topBoxes data) : Sized rest :=
  fun box hmem => hsized box (h hmem)

variable {data : Bytes} {header : BoxHeader}

/-- A box is read alike whatever follows it. -/
theorem decodeAs_take {α : Type} (name : FourCC) (decodeContents : Bytes → Except Error α)
    (h : BoxHeader.parse data = .ok header) (hsized : ¬ BoxHeader.OpenEnded data)
    (other : Bytes) :
    BoxHeader.parse (data.take header.size ++ other) = .ok header ∧
      decodeAs name decodeContents (data.take header.size ++ other) =
        decodeAs name decodeContents data := by
  have hparse := BoxHeader.parse_of_take h hsized le_rfl other
  have hlength : (data.take header.size).length = header.size := by
    rw [List.length_take, Nat.min_eq_left (BoxHeader.parse_bounds h).2.2]
  have hcontents : header.contents (data.take header.size ++ other) = header.contents data := by
    unfold BoxHeader.contents
    rw [List.take_left' hlength]
  refine ⟨hparse, ?_⟩
  unfold decodeAs
  simp only [h, hparse, hcontents, bind, Except.bind]

end Box

end FragmentedMp4
