import FragmentedMp4.Bytes

/-!
# Version and flags

Some boxes begin with a word that holds a version byte and 24 flag bits.
-/

namespace FragmentedMp4

/-- The version byte and the 24 flag bits of a box that has them. -/
structure VersionFlags where
  version : UInt8
  flags : UInt32
  flags_lt : flags.toNat < 0x1000000
deriving DecidableEq

namespace VersionFlags

/-- Keeps the low 24 bits of the flags. -/
def of (version : UInt8) (flags : UInt32) : VersionFlags :=
  ⟨version, flags &&& 0xFFFFFF, by
    rw [UInt32.toNat_and]
    exact Nat.lt_of_le_of_lt Nat.and_le_right (by decide)⟩

/-- The word in which both are stored. -/
def bytes (word : VersionFlags) : Bytes :=
  word.version :: bigEndian 3 word.flags.toNat

@[simp] theorem length_bytes (word : VersionFlags) : word.bytes.length = 4 := by
  simp [bytes]

def has (word : VersionFlags) (flag : UInt32) : Bool :=
  word.flags &&& flag != 0

end VersionFlags

/-- A flag, if it is to be set. -/
def flagIf (set : Bool) (flag : UInt32) : UInt32 :=
  if set then flag else 0

end FragmentedMp4
