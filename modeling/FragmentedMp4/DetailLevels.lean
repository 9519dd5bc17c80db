import FragmentedMp4.Error
import FragmentedMp4.Text.Blank
import FragmentedMp4.Text.Numeral

/-!
# Detail levels

How much of a box is described depends on its type. Levels are written as a
list such as `all:1,trun:2`: `all` sets the level of every type that has no
entry of its own, and of several entries for one type the last one counts.
-/

namespace FragmentedMp4

/-- A level for every box type: the newest entry of the type, else the default. -/
structure DetailLevels where
  default : Nat
  entries : List (FourCC × Nat)

namespace DetailLevels

def all (level : Nat) : DetailLevels :=
  ⟨level, []⟩

def set (levels : DetailLevels) (box : FourCC) (level : Nat) : DetailLevels :=
  { levels with entries := (box, level) :: levels.entries }

/-- The level that an entry sets for a type, if there is one. -/
def override? (levels : DetailLevels) (box : FourCC) : Option Nat :=
  levels.entries.lookup box

def level (levels : DetailLevels) (box : FourCC) : Nat :=
  (levels.override? box).getD levels.default

@[simp] theorem override?_all (level : Nat) (box : FourCC) :
    (all level).override? box = none := rfl

theorem override?_set (levels : DetailLevels) (box other : FourCC) (level : Nat) :
    (levels.set box level).override? other =
      if other = box then some level else levels.override? other := by
  by_cases h : other = box
  · simp [override?, set, h]
  · simp [override?, set, List.lookup_cons, beq_false_of_ne h, h]

/-- Whether two values have the same default and the same entry for every type.
Only types with an entry in one of them need a look. -/
def agree (left right : DetailLevels) : Bool :=
  left.default == right.default &&
    (left.entries ++ right.entries).all fun entry =>
      left.override? entry.1 == right.override? entry.1

theorem agree_iff (left right : DetailLevels) :
    left.agree right = true ↔
      left.default = right.default ∧ ∀ box, left.override? box = right.override? box := by
  simp only [agree, Bool.and_eq_true, beq_iff_eq, List.all_eq_true]
  constructor
  · rintro ⟨hd, he⟩
    refine ⟨hd, fun box => ?_⟩
    by_cases hbox : ∃ level, (box, level) ∈ left.entries ++ right.entries
    · obtain ⟨level, hm⟩ := hbox
      exact he _ hm
    · have none_of (entries : List (FourCC × Nat)) (h : ∀ level, (box, level) ∉ entries) :
          entries.lookup box = none := by
        rw [List.lookup_eq_none_iff]
        rintro ⟨other, level⟩ hm
        rw [bne_iff_ne]
        rintro rfl
        exact h level hm
      rw [override?, override?, none_of _ fun level hm => hbox ⟨level, by simp [hm]⟩,
        none_of _ fun level hm => hbox ⟨level, by simp [hm]⟩]
  · rintro ⟨hd, he⟩
    exact ⟨hd, fun entry _ => he _⟩

/-- A box type of at most four ASCII characters, filled up with blanks. -/
def boxName? (name : List Char) : Option FourCC :=
  if name.all fun c => c.toNat < 0x80 then
    match name with
    | [a] => some (.ofChars a ' ' ' ' ' ')
    | [a, b] => some (.ofChars a b ' ' ' ')
    | [a, b, c] => some (.ofChars a b c ' ')
    | [a, b, c, d] => some (.ofChars a b c d)
    | _ => none
  else none

/-- A level is a number below `2 ^ 32`, with blanks around it. -/
def levelValue? (text : List Char) : Option Nat :=
  (Text.unsigned? (Text.trim text)).filter (· < UInt32.size)

/-- What one entry sets: the default, or the level of a type. -/
inductive Setting where
  | all (level : Nat)
  | box (name : FourCC) (level : Nat)

/-- Reads one entry, `name:level`. -/
def setting? (entry : List Char) : Option Setting := do
  let (name, value) ← Text.splitOnce ':' entry
  let level ← levelValue? value
  if name = ['a', 'l', 'l'] then return .all level
  return .box (← boxName? name) level

def apply (levels : DetailLevels) : Setting → DetailLevels
  | .all level => { levels with default := level }
  | .box name level => levels.set name level

/-- The entries of a list, without blanks around them; empty ones do not count. -/
def entriesOf (text : List Char) : List (List Char) :=
  ((Text.pieces ',' text).map Text.trim).filter fun entry => !entry.isEmpty

def addEntry (levels : DetailLevels) (entry : List Char) : Except Error DetailLevels :=
  match setting? entry with
  | some setting => .ok (levels.apply setting)
  | none => .error (.invalidDetailLevels (String.ofList entry))

/-- Reads a list of levels; the first entry that is malformed is the error. -/
def parse (text : String) : Except Error DetailLevels :=
  (entriesOf text.toList).foldlM addEntry (all 0)

end DetailLevels
end FragmentedMp4
