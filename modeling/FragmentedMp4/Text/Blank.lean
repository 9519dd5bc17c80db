import FragmentedMp4.Text.Ranges

/-!
# Blank characters

The characters that count as blank are those with the Unicode property
`White_Space`. `trim` drops them at both ends of a text.
-/

namespace FragmentedMp4.Text

/-- The characters with the property `White_Space`. -/
def blankRanges : Ranges :=
  [(0x09, 0x0D), (0x20, 0x20), (0x85, 0x85), (0xA0, 0xA0), (0x1680, 0x1680), (0x2000, 0x200A),
    (0x2028, 0x2029), (0x202F, 0x202F), (0x205F, 0x205F), (0x3000, 0x3000)]

def isBlank (c : Char) : Bool :=
  blankRanges.has c

def trimLeft (text : List Char) : List Char :=
  text.dropWhile isBlank

def trimRight (text : List Char) : List Char :=
  (text.reverse.dropWhile isBlank).reverse

/-- Without the blanks at both ends. -/
def trim (text : List Char) : List Char :=
  trimRight (trimLeft text)

/-- A text that consists of another one and blanks around it; the other one neither begins nor ends
with a blank. -/
structure BlanksAround (text core : List Char) : Prop where
  split : ∃ front back, text = front ++ (core ++ back) ∧ (∀ c ∈ front, isBlank c = true) ∧
    ∀ c ∈ back, isBlank c = true
  first : ∀ c ∈ core.head?, isBlank c = false
  last : ∀ c ∈ core.getLast?, isBlank c = false

theorem dropWhile_blanks {front rest : List Char} (hfront : ∀ c ∈ front, isBlank c = true)
    (hrest : ∀ c ∈ rest.head?, isBlank c = false) : (front ++ rest).dropWhile isBlank = rest := by
  rw [List.dropWhile_append_of_pos hfront]
  cases rest with
  | nil => rfl
  | cons c rest => exact List.dropWhile_cons_of_neg (by simpa using hrest)

theorem trim_of_blanksAround {text core : List Char} (h : BlanksAround text core) :
    trim text = core := by
  obtain ⟨⟨front, back, rfl, hfront, hback⟩, hfirst, hlast⟩ := h
  cases core with
  | nil =>
    have hall : ∀ c ∈ front ++ back, isBlank c = true :=
      fun c hc => (List.mem_append.1 hc).elim (hfront c) (hback c)
    have hleft := dropWhile_blanks hall hfirst
    rw [List.append_nil] at hleft
    rw [trim, trimLeft, List.nil_append, hleft]
    rfl
  | cons c core =>
    have hleft : trimLeft (front ++ (c :: core ++ back)) = c :: core ++ back :=
      dropWhile_blanks hfront hfirst
    have hback' : ∀ d ∈ back.reverse, isBlank d = true :=
      fun d hd => hback d (List.mem_reverse.1 hd)
    rw [← List.head?_reverse] at hlast
    rw [trim, hleft, trimRight, List.reverse_append, dropWhile_blanks hback' hlast,
      List.reverse_reverse]

theorem head?_dropWhile_blank (text : List Char) :
    ∀ c ∈ (text.dropWhile isBlank).head?, isBlank c = false := by
  intro c hc
  have h := List.head?_dropWhile_not isBlank text
  rw [Option.mem_def.1 hc] at h
  exact h

theorem blanksAround_trim (text : List Char) : BlanksAround text (trim text) := by
  let front := text.takeWhile isBlank
  let back := ((trimLeft text).reverse.takeWhile isBlank).reverse
  have hleft : text = front ++ trimLeft text := List.takeWhile_append_dropWhile.symm
  have hright : trimLeft text = trim text ++ back := by
    rw [trim, trimRight, ← List.reverse_append, List.takeWhile_append_dropWhile,
      List.reverse_reverse]
  refine ⟨⟨front, back, ?split, ?front, ?back⟩, ?first, ?last⟩
  case split => rw [← hright, ← hleft]
  case front => exact List.all_eq_true.1 List.all_takeWhile
  case back =>
    intro c hc
    exact List.all_eq_true.1 List.all_takeWhile c (List.mem_reverse.1 hc)
  case first =>
    intro c hc
    have hfirst : c ∈ (trimLeft text).head? := by
      rw [hright, List.head?_append, Option.mem_def.1 hc]
      rfl
    exact head?_dropWhile_blank text c hfirst
  case last =>
    intro c hc
    rw [trim, trimRight, List.getLast?_reverse] at hc
    exact head?_dropWhile_blank _ c hc

/-- Trimming takes exactly the blanks at both ends away. -/
theorem trim_eq_iff {text core : List Char} : trim text = core ↔ BlanksAround text core :=
  ⟨fun h => h ▸ blanksAround_trim text, trim_of_blanksAround⟩

/-- The pieces between separators; there is one more piece than separators. -/
def pieces (separator : Char) : List Char → List (List Char)
  | [] => [[]]
  | c :: text =>
    if c = separator then [] :: pieces separator text
    else
      match pieces separator text with
      | [] => [[c]]
      | piece :: more => (c :: piece) :: more

/-- The text before the first separator and the text after it. -/
def splitOnce (separator : Char) : List Char → Option (List Char × List Char)
  | [] => none
  | c :: text =>
    if c = separator then some ([], text)
    else (splitOnce separator text).map fun (front, back) => (c :: front, back)

/-- A text is cut at the first separator. -/
theorem splitOnce_eq_some {separator : Char} {text front back : List Char} :
    splitOnce separator text = some (front, back) ↔
      text = front ++ separator :: back ∧ separator ∉ front := by
  induction text generalizing front with
  | nil => simp [splitOnce]
  | cons c text ih =>
    by_cases h : c = separator
    · subst h
      cases front with
      | nil => simp [splitOnce]
      | cons first front => simp +contextual [splitOnce]
    · cases front with
      | nil => simp [splitOnce, h]
      | cons first front =>
        have hfirst : separator ≠ c := Ne.symm h
        rw [splitOnce, if_neg h, Option.map_eq_some_iff]
        constructor
        · rintro ⟨⟨front', back'⟩, hcut, hsame⟩
          cases hsame
          obtain ⟨rfl, hfront⟩ := ih.1 hcut
          exact ⟨rfl, by simp [hfirst, hfront]⟩
        · rintro ⟨hsplit, hfront⟩
          cases hsplit
          exact ⟨(front, back), ih.2 ⟨rfl, fun hm => hfront (.tail _ hm)⟩, rfl⟩

theorem pieces_ne_nil (separator : Char) (text : List Char) : pieces separator text ≠ [] := by
  cases text with
  | nil => simp [pieces]
  | cons c text =>
    rw [pieces]
    split
    · simp
    · split <;> simp

theorem pieces_eq_splitOn (separator : Char) (text : List Char) :
    pieces separator text = text.splitOn separator := by
  induction text with
  | nil => simp [pieces]
  | cons c text ih =>
    rw [List.splitOn_cons_eq_if_modifyHead, ← ih, pieces]
    by_cases h : c = separator
    · simp [h]
    · simp only [h, if_false, beq_iff_eq]
      cases hp : pieces separator text with
      | nil => exact absurd hp (pieces_ne_nil separator text)
      | cons piece more => rfl

/-- A text with a separator in it has the pieces of both sides. -/
theorem pieces_append (separator : Char) (left right : List Char) :
    pieces separator (left ++ separator :: right) =
      pieces separator left ++ pieces separator right := by
  induction left with
  | nil => simp [pieces]
  | cons c left ih =>
    by_cases h : c = separator
    · simp [pieces, h, ih]
    · simp only [List.cons_append, pieces, h, if_false, ih]
      cases hp : pieces separator left with
      | nil => exact absurd hp (pieces_ne_nil separator left)
      | cons piece more => rfl

end FragmentedMp4.Text
