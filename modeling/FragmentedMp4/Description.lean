import FragmentedMp4.DetailLevels
import FragmentedMp4.VersionFlags

/-!
# Lines of a description

A box is described by a title line and, below it, lines for its fields and the
descriptions of its children, one indentation step further in.
-/

namespace FragmentedMp4

/-- One line of a description. -/
inductive Line where
  | title (indent : String) (box : FourCC) (size : Nat) (word : Option VersionFlags)
  | field (indent key value : String)
deriving DecidableEq

namespace Line

def text : Line → String
  | title indent box size none => s!"{indent}[{box.text}] size={size}\n"
  | title indent box size (some word) =>
    s!"{indent}[{box.text}] size={size} version={word.version.toNat} " ++
      s!"flags={Text.hex 6 word.flags.toNat}\n"
  | field indent key value => s!"{indent} - {key}: {value}\n"

def textOf (lines : List Line) : String :=
  String.join (lines.map text)

end Line
end FragmentedMp4
