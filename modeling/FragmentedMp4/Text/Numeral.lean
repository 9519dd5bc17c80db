/-!
# Numerals

Decimal numerals as they are read, and hexadecimal ones as they are written.
-/

namespace FragmentedMp4.Text

/-- The value of a decimal digit. -/
def digit? (c : Char) : Option Nat :=
  if '0' ≤ c ∧ c ≤ '9' then some (c.toNat - '0'.toNat) else none

/-- The value of a list of digits that follow digits with value `start`. -/
def digitsFrom (start : Nat) : List Char → Option Nat
  | [] => some start
  | c :: text => (digit? c).bind fun d => digitsFrom (start * 10 + d) text

/-- One or more decimal digits. -/
def decimal? : List Char → Option Nat
  | [] => none
  | text => digitsFrom 0 text

/-- A decimal number that may begin with a plus sign. -/
def unsigned? : List Char → Option Nat
  | '+' :: text => decimal? text
  | text => decimal? text

/-- A decimal number that may begin with a plus or a minus sign. -/
def signed? : List Char → Option Int
  | '-' :: text => (decimal? text).map fun n => -(n : Int)
  | text => (unsigned? text).map Int.ofNat

theorem digit?_eq_some {c : Char} {value : Nat} :
    digit? c = some value ↔ c.isDigit = true ∧ c.toNat - '0'.toNat = value := by
  have h : '0' ≤ c ∧ c ≤ '9' ↔ c.isDigit = true := by
    rw [Char.isDigit_iff_toNat]
    rfl
  simp only [digit?, h]
  split <;> simp [*]

theorem digitsFrom_eq_some {start value : Nat} {text : List Char} :
    digitsFrom start text = some value ↔
      (∀ c ∈ text, c.isDigit = true) ∧ Nat.ofDigitChars 10 text start = value := by
  induction text generalizing start with
  | nil => simp [digitsFrom]
  | cons c text ih =>
    simp only [digitsFrom, Option.bind_eq_some_iff, digit?_eq_some, ih, List.forall_mem_cons,
      Nat.ofDigitChars_cons, Nat.mul_comm 10]
    constructor
    · rintro ⟨_, ⟨hdigit, rfl⟩, hall, hvalue⟩
      exact ⟨⟨hdigit, hall⟩, hvalue⟩
    · rintro ⟨⟨hdigit, hall⟩, hvalue⟩
      exact ⟨_, ⟨hdigit, rfl⟩, hall, hvalue⟩

theorem decimal?_eq_some {text : List Char} {value : Nat} :
    decimal? text = some value ↔
      text ≠ [] ∧ (∀ c ∈ text, c.isDigit = true) ∧ Nat.ofDigitChars 10 text 0 = value := by
  cases text with
  | nil => simp [decimal?]
  | cons c text => simp [decimal?, digitsFrom_eq_some]

/-- A number is read from its digits, with a plus sign in front of them or without. -/
theorem unsigned?_eq_some {text : List Char} {value : Nat} :
    unsigned? text = some value ↔
      ∃ digits, (text = digits ∨ text = '+' :: digits) ∧ digits ≠ [] ∧
        (∀ c ∈ digits, c.isDigit = true) ∧ Nat.ofDigitChars 10 digits 0 = value := by
  have plus : ¬ '+'.isDigit = true := by decide
  unfold unsigned?
  split
  · rename_i text
    rw [decimal?_eq_some]
    constructor
    · exact fun h => ⟨text, .inr rfl, h⟩
    · rintro ⟨digits, rfl | h, hsome, hall, hvalue⟩
      · exact absurd (hall _ (List.mem_cons_self ..)) plus
      · cases h
        exact ⟨hsome, hall, hvalue⟩
  · rename_i hbare
    rw [decimal?_eq_some]
    constructor
    · exact fun h => ⟨text, .inl rfl, h⟩
    · rintro ⟨digits, rfl | h, hrest⟩
      · exact hrest
      · exact absurd h (hbare digits)

/-- The lower-case hexadecimal digits of a number, with zeros in front up to a
width. -/
def hex (width : Nat) (value : Nat) : String :=
  String.ofList (List.leftpad width '0' (Nat.toDigits 16 value))

end FragmentedMp4.Text
