import FragmentedMp4.Box.Reader

/-!
# Times of two widths

Times and offsets of some boxes take 32 bits in version 0 and 64 bits in version 1.
Version 1 is written as soon as a value needs it, whatever version was asked for.
-/

namespace FragmentedMp4.VersionedTime

/-- Whether a value needs the wide form. -/
def isWide (value : UInt64) : Bool :=
  UInt32.size ≤ value.toNat

def width (version : UInt8) : Nat :=
  if version = 1 then 8 else 4

/-- A value whose width depends on the version. -/
def read (version : UInt8) : Reader UInt64 :=
  if version = 1 then Reader.uint64 else do return (← Reader.uint32).toUInt64

end FragmentedMp4.VersionedTime
