/-!
# Ranges of characters

A class of characters given by a property of the Unicode standard is a table of closed
ranges of code points.
-/

namespace FragmentedMp4.Text

/-- Closed ranges of code points. -/
abbrev Ranges := List (Nat × Nat)

namespace Ranges

def has (ranges : Ranges) (c : Char) : Bool :=
  ranges.any fun range => range.1 ≤ c.toNat && c.toNat ≤ range.2

end Ranges
end FragmentedMp4.Text
