import FragmentedMp4.Bytes

/-!
# UTF-8 with replacement

`Text.utf8` gives the bytes of a text. `Text.ofUtf8Lossy` reads any bytes as
text: a sequence that is not well formed is cut at the first byte that cannot
continue it, and every such piece becomes one replacement character.
-/

namespace FragmentedMp4.Text

def utf8 (text : String) : Bytes :=
  text.toUTF8.data.toList

/-- Stands for a piece that is not well formed. -/
def replacement : Char := '\uFFFD'

/-- A character of which some bytes have been read: its bits so far, the number
of bytes still to come, and the range that the next one must lie in. -/
structure Partial where
  bits : Nat
  missing : Nat
  low : Nat
  high : Nat

/-- What a byte between two characters means: a character of its own, the start
of a longer one, or neither. -/
def start (byte : Nat) : List Char × Option Partial :=
  if byte < 0x80 then ([Char.ofNat byte], none)
  else if 0xC2 ≤ byte ∧ byte ≤ 0xDF then ([], some ⟨byte - 0xC0, 1, 0x80, 0xBF⟩)
  else if byte = 0xE0 then ([], some ⟨0, 2, 0xA0, 0xBF⟩)
  else if byte = 0xED then ([], some ⟨0xD, 2, 0x80, 0x9F⟩)
  else if 0xE1 ≤ byte ∧ byte ≤ 0xEF then ([], some ⟨byte - 0xE0, 2, 0x80, 0xBF⟩)
  else if byte = 0xF0 then ([], some ⟨0, 3, 0x90, 0xBF⟩)
  else if 0xF1 ≤ byte ∧ byte ≤ 0xF3 then ([], some ⟨byte - 0xF0, 3, 0x80, 0xBF⟩)
  else if byte = 0xF4 then ([], some ⟨4, 3, 0x80, 0x8F⟩)
  else ([replacement], none)

/-- The characters of some bytes, the first of which may end a character that
has begun. -/
def charsFrom : Option Partial → Bytes → List Char
  | none, [] => []
  | some _, [] => [replacement]
  | none, byte :: bytes =>
    let (chars, next) := start byte.toNat
    chars ++ charsFrom next bytes
  | some open_, byte :: bytes =>
    if open_.low ≤ byte.toNat ∧ byte.toNat ≤ open_.high then
      let bits := open_.bits * 64 + byte.toNat % 64
      if open_.missing ≤ 1 then Char.ofNat bits :: charsFrom none bytes
      else charsFrom (some ⟨bits, open_.missing - 1, 0x80, 0xBF⟩) bytes
    else
      let (chars, next) := start byte.toNat
      replacement :: (chars ++ charsFrom next bytes)

/-- Any bytes as text, with a replacement character for each piece that is not
well formed. -/
def ofUtf8Lossy (bytes : Bytes) : String :=
  String.ofList (charsFrom none bytes)

end FragmentedMp4.Text
