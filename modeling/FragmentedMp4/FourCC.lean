import FragmentedMp4.Text.Utf8

/-!
# Four character codes

A box type or a brand is any four bytes. `FourCC.text` is its printable form,
which for the codes of the standard is the four letters themselves.
-/

namespace FragmentedMp4

/-- Four bytes that name a box type or a brand. -/
structure FourCC where
  first : UInt8
  second : UInt8
  third : UInt8
  fourth : UInt8
deriving DecidableEq

namespace FourCC

def bytes (code : FourCC) : Bytes :=
  [code.first, code.second, code.third, code.fourth]

@[simp] theorem length_bytes (code : FourCC) : code.bytes.length = 4 := rfl

/-- The first four bytes, if there are four. -/
def ofBytes? : Bytes → Option FourCC
  | a :: b :: c :: d :: _ => some ⟨a, b, c, d⟩
  | _ => none

@[simp] theorem ofBytes?_bytes_append (code : FourCC) (rest : Bytes) :
    ofBytes? (code.bytes ++ rest) = some code := rfl

theorem bytes_inj {code other : FourCC} : code.bytes = other.bytes ↔ code = other := by
  constructor
  · exact fun h => Option.some.inj (congrArg ofBytes? h)
  · exact congrArg bytes

def text (code : FourCC) : String :=
  Text.ofUtf8Lossy code.bytes

/-- The code that four ASCII characters spell. -/
def ofChars (a b c d : Char) : FourCC :=
  ⟨UInt8.ofNat a.toNat, UInt8.ofNat b.toNat, UInt8.ofNat c.toNat, UInt8.ofNat d.toNat⟩

def styp : FourCC := ofChars 's' 't' 'y' 'p'
def sidx : FourCC := ofChars 's' 'i' 'd' 'x'
def moof : FourCC := ofChars 'm' 'o' 'o' 'f'
def mfhd : FourCC := ofChars 'm' 'f' 'h' 'd'
def traf : FourCC := ofChars 't' 'r' 'a' 'f'
def tfhd : FourCC := ofChars 't' 'f' 'h' 'd'
def tfdt : FourCC := ofChars 't' 'f' 'd' 't'
def trun : FourCC := ofChars 't' 'r' 'u' 'n'
def trex : FourCC := ofChars 't' 'r' 'e' 'x'
def mdat : FourCC := ofChars 'm' 'd' 'a' 't'

/-- Brand of a media segment. -/
def msdh : FourCC := ofChars 'm' 's' 'd' 'h'

/-- Brand of an indexed media segment. -/
def msix : FourCC := ofChars 'm' 's' 'i' 'x'

end FourCC
end FragmentedMp4
