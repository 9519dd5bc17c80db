import FragmentedMp4.Box.Any
import Mathlib.Algebra.BigOperators.Group.List.Basic
import Mathlib.Tactic

/-!
# Boxes fill exactly the size they declare

Sizes are computed before anything is written, from the fields of a box alone. Here the
two are tied together: an emission that comes through has exactly the declared number of
bytes, and one that is stopped has no more. This holds of every type of box, for runs
whose samples carry different fields and for any nesting.
-/
namespace FragmentedMp4

namespace Emission

/-- At most `count` bytes, and exactly that many unless an error ends them early. -/
structure Within (emission : Emission) (count : Nat) : Prop where
  le : emission.bytes.length ≤ count
  eq : emission.error = none → emission.bytes.length = count

theorem append_error (first second : Emission) :
    (first ++ second).error = first.error.or second.error := by
  obtain ⟨bytes, error⟩ := first
  cases error <;> rfl

theorem append_bytes_of_none {first second : Emission} (h : first.error = none) :
    (first ++ second).bytes = first.bytes ++ second.bytes := by
  obtain ⟨bytes, error⟩ := first
  cases h
  rfl

theorem append_of_some {first second : Emission} {error : Error} (h : first.error = some error) :
    first ++ second = first := by
  obtain ⟨bytes, error⟩ := first
  cases h
  rfl

theorem append_error_eq_none {first second : Emission} :
    (first ++ second).error = none ↔ first.error = none ∧ second.error = none := by
  rw [append_error, Option.or_eq_none_iff]

theorem concat_error_eq_none {emissions : List Emission} :
    (concat emissions).error = none ↔ ∀ emission ∈ emissions, emission.error = none := by
  induction emissions with
  | nil => simp [put]
  | cons first rest ih => simp [append_error_eq_none, ih]

theorem concat_bytes_of_none {emissions : List Emission}
    (h : ∀ emission ∈ emissions, emission.error = none) :
    (concat emissions).bytes = emissions.flatMap (·.bytes) := by
  induction emissions with
  | nil => rfl
  | cons first rest ih =>
    have hfirst := h first (by simp)
    have hrest := ih fun emission hmem => h emission (by simp [hmem])
    rw [concat_cons, append_bytes_of_none hfirst, hrest, List.flatMap_cons]

theorem within_put (bytes : Bytes) : (put bytes).Within bytes.length :=
  ⟨le_rfl, fun _ => rfl⟩

theorem within_number (width value : Nat) : (number width value).Within width := by
  have h := within_put (bigEndian width value)
  rwa [length_bigEndian] at h

theorem within_stop (error : Error) (count : Nat) : (stop error).Within count :=
  ⟨Nat.zero_le _, fun h => by cases h⟩

theorem Within.append {first second : Emission} {m n : Nat} (hfirst : first.Within m)
    (hsecond : second.Within n) : (first ++ second).Within (m + n) := by
  have h1 := hfirst.le
  have h2 := hsecond.le
  cases he : first.error with
  | some error =>
    rw [append_of_some he]
    exact ⟨by omega, fun h => by simp [he] at h⟩
  | none =>
    have hlen : (first ++ second).bytes.length = m + second.bytes.length := by
      rw [append_bytes_of_none he, List.length_append, hfirst.eq he]
    refine ⟨by omega, fun h => ?_⟩
    rw [hlen, hsecond.eq (append_error_eq_none.1 h).2]

theorem within_concat {α : Type} {f : α → Emission} {size : α → Nat} (xs : List α)
    (h : ∀ x ∈ xs, (f x).Within (size x)) : (concat (xs.map f)).Within (xs.map size).sum := by
  induction xs with
  | nil => exact within_put []
  | cons x xs ih =>
    have hx := h x (by simp)
    have hxs := ih fun y hy => h y (by simp [hy])
    simpa using hx.append hxs

end Emission

/-- A type whose boxes emit exactly the contents that they declare, and no more than
that before an error. -/
class ExactBox (α : Type) [IsBox α] : Prop where
  within_contents (box : α) : (IsBox.contents box).Within (IsBox.contentSize box)

namespace Box

variable {α : Type} [IsBox α]

@[simp] theorem emission_error (box : α) :
    (emission box).error = (IsBox.contents box).error := rfl

theorem emission_bytes (box : α) :
    (emission box).bytes = front box ++ (IsBox.contents box).bytes := rfl

theorem within_emission [ExactBox α] (box : α) : (emission box).Within (size box) := by
  rw [size_eq]
  exact (Emission.within_put (front box)).append (ExactBox.within_contents box)

end Box

section Instances

open Emission

instance : ExactBox SegmentType where
  within_contents box := by
    have hbrands : (box.brands.flatMap FourCC.bytes).length = 4 * box.brands.length := by
      simp only [List.length_flatMap, FourCC.length_bytes, List.map_const', List.sum_replicate,
        smul_eq_mul, Nat.mul_comm]
    have h := ((within_put box.majorBrand.bytes).append
      (within_number 4 box.minorVersion.toNat)).append
        (within_put (box.brands.flatMap FourCC.bytes))
    rwa [hbrands] at h

theorem IndexReference.length_bytes (reference : IndexReference) : reference.bytes.length = 12 := by
  simp [bytes]

instance : ExactBox SegmentIndex where
  within_contents box := by
    have h := within_put box.contentBytes
    have hlen : box.contentBytes.length = IsBox.contentSize box := by
      simp only [SegmentIndex.contentBytes, List.length_append, length_bigEndian,
        List.length_flatMap, IndexReference.length_bytes, List.map_const', List.sum_replicate,
        IsBox.contentSize, smul_eq_mul]
      omega
    rwa [hlen] at h

instance : ExactBox MovieFragmentHeader where
  within_contents box := within_number 4 box.sequenceNumber.toNat

instance : ExactBox TrackDecodeTime where
  within_contents box := within_number (VersionedTime.width box.writtenVersion) box.time.toNat

instance : ExactBox TrackExtends where
  within_contents box :=
    ((((within_number 4 box.trackId.toNat).append
      (within_number 4 box.descriptionIndex.toNat)).append
        (within_number 4 box.duration.toNat)).append
          (within_number 4 box.size.toNat)).append (within_number 4 box.flags.toNat)

instance : ExactBox MediaData where
  within_contents box := within_put box.payload

instance : ExactBox TrackFragmentHeader where
  within_contents box := by
    have h := within_put box.contentBytes
    have hlen : box.contentBytes.length = IsBox.contentSize box := by
      simp [TrackFragmentHeader.contentBytes, IsBox.contentSize, Nat.add_assoc]
    rwa [hlen] at h

/-- Every sample takes the bytes of the fields that the run announces, or stops it. -/
theorem TrackRun.within_samples (fields : SampleFields) (samples : List RunSample) (start : Nat) :
    (concat (samples.mapIdx fun i => sampleEmission fields (start + i))).Within
      (fields.sampleSize * samples.length) := by
  induction samples generalizing start with
  | nil => exact within_put []
  | cons sample samples ih =>
    have hfirst : (sampleEmission fields start sample).Within fields.sampleSize := by
      unfold sampleEmission
      split_ifs with h
      · have hput := within_put sample.bytes
        rwa [RunSample.length_bytes, h] at hput
      · exact within_stop _ _
    have hrest := hfirst.append (ih (start + 1))
    rw [List.mapIdx_cons, concat_cons, List.length_cons,
      show fields.sampleSize * (samples.length + 1) =
        fields.sampleSize + fields.sampleSize * samples.length by ring]
    simpa only [Nat.add_zero, Nat.add_assoc, Nat.add_comm 1] using hrest

instance : ExactBox TrackRun where
  within_contents box := by
    change box.contentEmission.Within _
    unfold TrackRun.contentEmission
    split_ifs with h
    · exact within_stop _ _
    · have hhead : box.headBytes.length = 4 + OptionalField.size box.dataOffset 4 +
          OptionalField.size box.firstSampleFlags 4 := by
        simp [TrackRun.headBytes, Nat.add_assoc]
      have hsamples := TrackRun.within_samples box.fields box.samples 0
      simp only [Nat.zero_add] at hsamples
      have hall := (within_put box.headBytes).append hsamples
      rwa [hhead] at hall

instance : ExactBox TrackFragment where
  within_contents box := by
    have htime : ((box.decodeTime.map (Box.emission ·)).getD (.put [])).Within
        ((box.decodeTime.map (Box.size ·)).getD 0) := by
      cases box.decodeTime with
      | none => exact within_put []
      | some time => exact Box.within_emission time
    have hruns := within_concat box.runs fun run _ => Box.within_emission run
    exact ((Box.within_emission box.header).append htime).append hruns

instance : ExactBox MovieFragment where
  within_contents box :=
    (Box.within_emission box.header).append
      (within_concat box.tracks fun track _ => Box.within_emission track)

instance : ExactBox AnyBox where
  within_contents box := by
    cases box with
    | segmentType box => exact ExactBox.within_contents box
    | segmentIndex box => exact ExactBox.within_contents box
    | movieFragment box => exact ExactBox.within_contents box
    | movieFragmentHeader box => exact ExactBox.within_contents box
    | trackFragment box => exact ExactBox.within_contents box
    | trackFragmentHeader box => exact ExactBox.within_contents box
    | trackDecodeTime box => exact ExactBox.within_contents box
    | trackRun box => exact ExactBox.within_contents box
    | trackExtends box => exact ExactBox.within_contents box
    | mediaData box => exact ExactBox.within_contents box

end Instances
end FragmentedMp4
