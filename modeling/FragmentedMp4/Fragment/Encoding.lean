import FragmentedMp4.Fragment.Compaction

/-!
# Writing and reading fragments

A fragment is written as its movie fragment in the layout that was chosen, with the
data offsets adapted to its size, followed by its media data. It is read from two
boxes that follow each other; the data offsets are then adapted to the size that the
movie fragment will have when it is written again.
-/

namespace FragmentedMp4
namespace Fragment

/-- The size that the fragment has when it is written in a layout. -/
def sizeIn (fragment : Fragment) (layout : RunLayout) : Nat :=
  Box.size (fragment.moof.inLayout layout) + Box.size fragment.mdat

def size (fragment : Fragment) : Nat :=
  fragment.sizeIn fragment.layout

/-- The movie fragment as it is written. -/
def writtenMoof (fragment : Fragment) : Except Error MovieFragment :=
  let moof := fragment.moof.inLayout fragment.layout
  moof.shifted (Box.size moof - Box.size fragment.moof)

def write {σ : Type} (put : AnyBox → Writing σ Unit) (fragment : Fragment) : Writing σ Unit := do
  let moof ← Writing.ofExcept fragment.writtenMoof
  Writing.wrapping (.inBox .moof) (put (.movieFragment moof))
  Writing.wrapping (.inBox .mdat) (put (.mediaData fragment.mdat))

def writeStream : Fragment → Writing BoundedStream Unit :=
  write Box.writeStream

def writeBuffer : Fragment → Writing FixedBuffer Unit :=
  write Box.writeBuffer

def describe (levels : DetailLevels) (indent step : String) (fragment : Fragment) :
    Writing BoundedStream Unit := do
  Box.describe fragment.moof levels indent step
  Box.describe fragment.mdat levels indent step

/-- The header of the media data box that begins some bytes. -/
def mediaDataHeader (data : Bytes) : Except Error BoxHeader :=
  match BoxHeader.parse data with
  | .ok header =>
    if header.name = .mdat then .ok header else .error (.missingBox .mdat "fragment")
  | .error _ => .error (.missingBox .mdat "fragment")

/-- Reads a fragment, and the number of bytes that it takes. -/
def decode (data : Bytes) : Except Error (Fragment × Nat) := do
  let (moof, moofSize) ← MovieFragment.decode data
  let rest := data.drop moofSize
  let header ← mediaDataHeader rest
  let (mdat, mdatSize) ← MediaData.decode rest
  let fragment := ofBoxes moof mdat
  let delta := (fragment.payloadOffset : Int) - (moofSize + header.headerSize : Nat)
  let moof ← moof.shifted delta
  return ({ fragment with moof }, moofSize + mdatSize)

end Fragment

namespace Box

theorem size_of_decodeAs {α : Type} {name : FourCC} {decodeContents : Bytes → Except Error α}
    {data : Bytes} {value : α} {used : Nat}
    (h : decodeAs name decodeContents data = .ok (value, used)) :
    8 ≤ used ∧ used ≤ data.length := by
  unfold decodeAs at h
  cases hp : BoxHeader.parse data with
  | error error => simp [hp, bind, Except.bind] at h
  | ok header =>
    simp only [hp, bind, Except.bind] at h
    have hb := BoxHeader.parse_bounds hp
    split at h
    · cases h
    · split at h
      · cases h
      · cases h
        omega

end Box

namespace Fragment

/-- A fragment takes some bytes, and no more than there are. -/
theorem size_of_decode {data : Bytes} {fragment : Fragment} {used : Nat}
    (h : decode data = .ok (fragment, used)) : 16 ≤ used ∧ used ≤ data.length := by
  unfold decode at h
  cases hm : MovieFragment.decode data with
  | error error => simp [hm, bind, Except.bind] at h
  | ok pair =>
    obtain ⟨moof, moofSize⟩ := pair
    simp only [hm, bind, Except.bind] at h
    split at h
    · cases h
    · split at h
      · cases h
      · rename_i pair hd
        split at h
        · cases h
        · cases h
          have h1 := Box.size_of_decodeAs hm
          have h2 := Box.size_of_decodeAs hd
          simp only [List.length_drop] at h2
          omega

end Fragment
end FragmentedMp4
