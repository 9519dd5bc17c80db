import FragmentedMp4.DetailLevels
import FragmentedMp4.Proofs.Results

/-!
# Lists of detail levels

How an entry of a list is written, and which entries count. A list of which every entry is well
written gives each type the level of the last entry with its name, and where there is none that
of the last entry for all types. A list with malformed entries is refused with the first of them.
Lists compose: joined by a comma, two of them are read like the entries of the first followed by
those of the second.
-/
namespace FragmentedMp4
namespace DetailLevels

/-! ### Entries -/

/-- A level as it is written: one or more decimal digits of a number below `2 ^ 32`, with a plus
sign in front of them or without, and with blanks around all this or without. -/
structure SpellsLevel (text : List Char) (level : Nat) : Prop where
  digits : ∃ digits, (Text.BlanksAround text digits ∨ Text.BlanksAround text ('+' :: digits)) ∧
    digits ≠ [] ∧ (∀ c ∈ digits, c.isDigit = true) ∧ Nat.ofDigitChars 10 digits 0 = level
  small : level < 2 ^ 32

/-- The name of a type as it is written: one to four ASCII characters, which blanks fill up. -/
structure SpellsName (name : List Char) (box : FourCC) : Prop where
  some : name ≠ []
  short : name.length ≤ 4
  ascii : ∀ c ∈ name, c.toNat < 0x80
  bytes : box.bytes = (name.rightpad 4 ' ').map fun c => UInt8.ofNat c.toNat

/-- An entry as it is written: `all` or the name of a type, a colon and a level. -/
inductive Spells : List Char → Setting → Prop
  | all {value : List Char} {level : Nat} (spelled : SpellsLevel value level) :
      Spells (['a', 'l', 'l'] ++ ':' :: value) (.all level)
  | box {name value : List Char} {box : FourCC} {level : Nat} (other : name ≠ ['a', 'l', 'l'])
      (noColon : ':' ∉ name) (named : SpellsName name box) (spelled : SpellsLevel value level) :
      Spells (name ++ ':' :: value) (.box box level)

theorem levelValue?_eq_some {text : List Char} {level : Nat} :
    levelValue? text = some level ↔ SpellsLevel text level := by
  simp only [levelValue?, Option.filter_eq_some_iff, Text.unsigned?_eq_some, Text.trim_eq_iff,
    decide_eq_true_eq]
  exact ⟨fun h => ⟨h.1, h.2⟩, fun h => ⟨h.digits, h.small⟩⟩

theorem boxName?_eq_some {name : List Char} {box : FourCC} :
    boxName? name = some box ↔ SpellsName name box := by
  unfold boxName?
  constructor
  · intro h
    split_ifs at h with hall
    have hascii : ∀ c ∈ name, c.toNat < 0x80 := by simpa using hall
    split at h <;> cases h
    all_goals exact ⟨by simp, by simp, hascii, rfl⟩
  · rintro ⟨hsome, hshort, hascii, hbytes⟩
    rw [if_pos (by simpa using hascii)]
    match name with
    | [] => exact absurd rfl hsome
    | [_] | [_, _] | [_, _, _] | [_, _, _, _] =>
      exact congrArg some (FourCC.bytes_inj.1 hbytes).symm
    | _ :: _ :: _ :: _ :: _ :: _ =>
      simp only [List.length_cons] at hshort
      omega

theorem setting?_of_cut {name value : List Char} {level : Nat} (noColon : ':' ∉ name)
    (spelled : SpellsLevel value level) :
    setting? (name ++ ':' :: value) =
      if name = ['a', 'l', 'l'] then some (.all level)
      else (boxName? name).map fun box => .box box level := by
  have hcut : Text.splitOnce ':' (name ++ ':' :: value) = some (name, value) :=
    Text.splitOnce_eq_some.2 ⟨rfl, noColon⟩
  have hlevel := levelValue?_eq_some.2 spelled
  simp only [setting?, hcut, hlevel, Option.bind_eq_bind, Option.bind_some]
  split_ifs
  · rfl
  · cases boxName? name <;> rfl

/-- An entry is read as what it spells. -/
theorem setting?_eq_some {entry : List Char} {setting : Setting} :
    setting? entry = some setting ↔ Spells entry setting := by
  constructor
  · intro h
    obtain ⟨⟨name, value⟩, hcut, hread⟩ := Option.bind_eq_some_iff.1 h
    obtain ⟨level, hlevel, -⟩ := Option.bind_eq_some_iff.1 hread
    obtain ⟨rfl, noColon⟩ := Text.splitOnce_eq_some.1 hcut
    have spelled := levelValue?_eq_some.1 hlevel
    rw [setting?_of_cut noColon spelled] at h
    split_ifs at h with hall
    · cases h
      rw [hall]
      exact .all spelled
    · obtain ⟨box, hbox, rfl⟩ := Option.map_eq_some_iff.1 h
      exact .box hall noColon (boxName?_eq_some.1 hbox) spelled
  · intro h
    cases h with
    | all spelled => rw [setting?_of_cut (by decide) spelled, if_pos rfl]
    | box other noColon named spelled =>
      rw [setting?_of_cut noColon spelled, if_neg other, boxName?_eq_some.2 named, Option.map_some]

theorem setting?_eq_none {entry : List Char} :
    setting? entry = none ↔ ∀ setting, ¬ Spells entry setting := by
  simp only [Option.eq_none_iff_forall_ne_some, ne_eq, setting?_eq_some]

/-! ### Lists of entries -/

/-- The entries of a list as it is written: what stands between commas, without the blanks around
it. Where there are only blanks, there is no entry. -/
def HasEntries (text : String) (entries : List (List Char)) : Prop :=
  ∃ cores, List.Forall₂ Text.BlanksAround (text.toList.splitOn ',') cores ∧
    (cores.filter fun core => !core.isEmpty) = entries

/-- The settings of a list in which every entry spells one. -/
def Lists (text : String) (settings : List Setting) : Prop :=
  ∃ entries, HasEntries text entries ∧ List.Forall₂ Spells entries settings

/-- The first of some entries that spells nothing. -/
inductive FirstUnspelled : (entries : List (List Char)) → List Char → Prop
  | behind (before after : List (List Char)) {settings : List Setting} {entry : List Char}
      (spelled : List.Forall₂ Spells before settings)
      (malformed : ∀ setting, ¬ Spells entry setting) :
      FirstUnspelled (before ++ entry :: after) entry

/-- The first entry of a list that spells nothing. -/
def FirstMalformed (text : String) (entry : List Char) : Prop :=
  ∃ entries, HasEntries text entries ∧ FirstUnspelled entries entry

theorem hasEntries_iff {text : String} {entries : List (List Char)} :
    HasEntries text entries ↔ entries = entriesOf text.toList := by
  have hcores (cores : List (List Char)) :
      List.Forall₂ Text.BlanksAround (text.toList.splitOn ',') cores ↔
        (Text.pieces ',' text.toList).map Text.trim = cores := by
    have hsame : Text.BlanksAround = fun text core => Eq (Text.trim text) core := by
      funext text core
      exact propext Text.trim_eq_iff.symm
    rw [hsame, ← List.forall₂_map_left_iff, List.forall₂_eq_eq_eq, Text.pieces_eq_splitOn]
  simp only [HasEntries, hcores, exists_eq_left', entriesOf]
  exact eq_comm

theorem lists_iff {text : String} {settings : List Setting} :
    Lists text settings ↔ List.Forall₂ Spells (entriesOf text.toList) settings := by
  simp only [Lists, hasEntries_iff, exists_eq_left]

theorem firstMalformed_iff {text : String} {entry : List Char} :
    FirstMalformed text entry ↔ FirstUnspelled (entriesOf text.toList) entry := by
  simp only [FirstMalformed, hasEntries_iff, exists_eq_left]

theorem spelled_or_not (entries : List (List Char)) :
    (∃ settings, List.Forall₂ Spells entries settings) ∨
      ∃ entry, FirstUnspelled entries entry := by
  induction entries with
  | nil => exact .inl ⟨[], .nil⟩
  | cons entry entries ih =>
    cases hentry : setting? entry with
    | none => exact .inr ⟨entry, .behind [] entries .nil (setting?_eq_none.1 hentry)⟩
    | some setting =>
      have hspells := setting?_eq_some.1 hentry
      rcases ih with ⟨settings, hspelled⟩ | ⟨odd, hodd⟩
      · exact .inl ⟨setting :: settings, .cons hspells hspelled⟩
      · obtain ⟨before, after, hspelled, hmalformed⟩ := hodd
        exact .inr ⟨odd, .behind (entry :: before) after (.cons hspells hspelled) hmalformed⟩

/-! ### Levels of several settings -/

/-- The level that a setting gives to all types that are not named. -/
def Setting.forAll? : Setting → Option Nat
  | .all level => some level
  | .box _ _ => none

/-- The level that a setting gives to a type by its name. -/
def Setting.forBox? (box : FourCC) : Setting → Option Nat
  | .all _ => none
  | .box name level => if name = box then some level else none

/-- The last level of a kind that some settings give. -/
def lastLevel? (kind : Setting → Option Nat) (settings : List Setting) : Option Nat :=
  (settings.filterMap kind).getLast?

variable {kind : Setting → Option Nat}

theorem lastLevel?_append (first second : List Setting) :
    lastLevel? kind (first ++ second) = (lastLevel? kind second).or (lastLevel? kind first) := by
  simp only [lastLevel?, List.filterMap_append, List.getLast?_append]

theorem lastLevel?_cons (setting : Setting) (settings : List Setting) :
    lastLevel? kind (setting :: settings) = (lastLevel? kind settings).or (kind setting) := by
  have hone : lastLevel? kind [setting] = kind setting := by
    cases h : kind setting <;> simp [lastLevel?, h]
  rw [← List.singleton_append, lastLevel?_append, hone]

theorem default_foldl_apply (settings : List Setting) (levels : DetailLevels) :
    (settings.foldl apply levels).default =
      (lastLevel? Setting.forAll? settings).getD levels.default := by
  induction settings generalizing levels with
  | nil => rfl
  | cons setting settings ih =>
    rw [List.foldl_cons, ih, lastLevel?_cons]
    cases setting <;> cases lastLevel? Setting.forAll? settings <;> rfl

theorem override?_apply (levels : DetailLevels) (setting : Setting) (box : FourCC) :
    (levels.apply setting).override? box =
      (setting.forBox? box).or (levels.override? box) := by
  cases setting with
  | all level => rfl
  | box name level =>
    rw [apply, override?_set, Setting.forBox?]
    by_cases h : box = name
    · rw [if_pos h, if_pos h.symm, Option.some_or]
    · rw [if_neg h, if_neg (Ne.symm h), Option.none_or]

theorem override?_foldl_apply (settings : List Setting) (levels : DetailLevels) (box : FourCC) :
    (settings.foldl apply levels).override? box =
      (lastLevel? (Setting.forBox? box) settings).or (levels.override? box) := by
  induction settings generalizing levels with
  | nil => rfl
  | cons setting settings ih =>
    rw [List.foldl_cons, ih, override?_apply, lastLevel?_cons, Option.or_assoc]

/-- A name of its own comes before `all`, and in both the last entry counts. -/
theorem level_foldl_apply (settings : List Setting) (box : FourCC) :
    (settings.foldl apply (all 0)).level box =
      ((lastLevel? (Setting.forBox? box) settings).or
        (lastLevel? Setting.forAll? settings)).getD 0 := by
  rw [level, override?_foldl_apply, default_foldl_apply, override?_all, Option.or_none]
  cases lastLevel? (Setting.forBox? box) settings <;> rfl

/-- The level of a type when the settings of one list are followed by those of another. Its own
name comes before `all`, and the later list before the earlier one. -/
def joinedLevel (earlier later : List Setting) (box : FourCC) : Nat :=
  ((((lastLevel? (Setting.forBox? box) later).or (lastLevel? (Setting.forBox? box) earlier)).or
    (lastLevel? Setting.forAll? later)).or (lastLevel? Setting.forAll? earlier)).getD 0

theorem level_foldl_append (earlier later : List Setting) (box : FourCC) :
    ((earlier ++ later).foldl apply (all 0)).level box = joinedLevel earlier later box := by
  rw [level_foldl_apply, lastLevel?_append, lastLevel?_append, joinedLevel, Option.or_assoc,
    Option.or_assoc, Option.or_assoc]

/-! ### Whole lists -/

theorem foldlM_of_spelled {entries : List (List Char)} {settings : List Setting}
    (h : List.Forall₂ Spells entries settings) (levels : DetailLevels) :
    entries.foldlM addEntry levels = .ok (settings.foldl apply levels) := by
  induction h generalizing levels with
  | nil => rfl
  | @cons entry setting entries settings hentry _ ih =>
    have hadd : addEntry levels entry = .ok (levels.apply setting) := by
      rw [addEntry, setting?_eq_some.2 hentry]
    rw [List.foldlM_cons, hadd]
    exact ih _

theorem foldlM_of_unspelled {entries : List (List Char)} {entry : List Char}
    (h : FirstUnspelled entries entry) (levels : DetailLevels) :
    entries.foldlM addEntry levels = .error (.invalidDetailLevels (String.ofList entry)) := by
  obtain ⟨before, after, hspelled, hmalformed⟩ := h
  have hadd (levels : DetailLevels) :
      addEntry levels entry = .error (.invalidDetailLevels (String.ofList entry)) := by
    rw [addEntry, setting?_eq_none.2 hmalformed]
  simp only [List.foldlM_append, foldlM_of_spelled hspelled, List.foldlM_cons, hadd, bind,
    Except.bind]

theorem entriesOf_joined (first second : String) :
    entriesOf (first ++ "," ++ second).toList =
      entriesOf first.toList ++ entriesOf second.toList := by
  have hcomma : (first ++ "," ++ second).toList = first.toList ++ ',' :: second.toList := by
    simp
  rw [hcomma, entriesOf, Text.pieces_append, List.map_append, List.filter_append]
  rfl

theorem parse_joined_eq (first second : String) :
    parse (first ++ "," ++ second) = parse first >>= fun levels =>
      (entriesOf second.toList).foldlM addEntry levels := by
  rw [parse, entriesOf_joined, List.foldlM_append]
  rfl

/-- Two lists of levels with a comma between them can be read exactly if both of them can. A type
then has the level that the second list gives it by name, else that of the first list, else the
one that the second list gives to all types, else that of the first list, and else none; in each
list the last such entry counts. An error quotes the first malformed entry of the first list, or
if there is none the first one of the second list. -/
theorem parse_joined (first second : String) :
    ((∃ levels, parse (first ++ "," ++ second) = .ok levels) ↔
      (∃ levels, parse first = .ok levels) ∧ ∃ levels, parse second = .ok levels) ∧
    (∀ levels, parse (first ++ "," ++ second) = .ok levels →
      ∃ earlier later, Lists first earlier ∧ Lists second later ∧
        ∀ box, levels.level box = joinedLevel earlier later box) ∧
    ∀ error, parse (first ++ "," ++ second) = .error error →
      ∃ entry, error = .invalidDetailLevels (String.ofList entry) ∧
        error.message = "Invalid info levels '" ++ String.ofList entry ++ "'" ∧
        (FirstMalformed first entry ∨
          (∃ earlier, Lists first earlier) ∧ FirstMalformed second entry) := by
  rw [parse_joined_eq]
  rcases spelled_or_not (entriesOf first.toList) with ⟨earlier, hearlier⟩ | ⟨entry, hentry⟩
  · have hfirst : parse first = _ := foldlM_of_spelled hearlier _
    rcases spelled_or_not (entriesOf second.toList) with ⟨later, hlater⟩ | ⟨entry, hentry⟩
    · have hsecond : parse second = _ := foldlM_of_spelled hlater _
      have hjoined := foldlM_of_spelled hlater (earlier.foldl apply (all 0))
      simp only [hfirst, hsecond, hjoined, bind, Except.bind]
      refine ⟨by simp, ?_, by simp⟩
      rintro levels ⟨⟩
      refine ⟨earlier, later, lists_iff.2 hearlier, lists_iff.2 hlater, fun box => ?_⟩
      rw [← List.foldl_append, level_foldl_append]
    · have hsecond : parse second = _ := foldlM_of_unspelled hentry _
      have hjoined := foldlM_of_unspelled hentry (earlier.foldl apply (all 0))
      simp only [hfirst, hsecond, hjoined, bind, Except.bind]
      refine ⟨by simp, by simp, ?_⟩
      rintro error ⟨⟩
      exact ⟨entry, rfl, rfl, .inr ⟨⟨earlier, lists_iff.2 hearlier⟩, firstMalformed_iff.2 hentry⟩⟩
  · have hfirst : parse first = _ := foldlM_of_unspelled hentry _
    simp only [hfirst, bind, Except.bind]
    refine ⟨by simp, by simp, ?_⟩
    rintro error ⟨⟩
    exact ⟨entry, rfl, rfl, .inl (firstMalformed_iff.2 hentry)⟩

/-- Two lists that name the same types and set the level of all types, with blanks around some
entries, and two lists of which both are malformed. -/
theorem parse_joined_repeated :
    let first := "all:3, trun:2,url :0,all:1"
    let second := " url:7,, trun:4,trun: +5"
    let url := FourCC.ofChars 'u' 'r' 'l' ' '
    let levels : DetailLevels :=
      ⟨1, [(.trun, 5), (.trun, 4), (url, 7), (url, 0), (.trun, 2)]⟩
    let odd := "all:1, trun ,:2"
    parse (first ++ "," ++ second) = .ok levels ∧
      ((∃ levels, parse first = .ok levels) ∧ ∃ levels, parse second = .ok levels) ∧
      (∃ earlier later, Lists first earlier ∧ Lists second later ∧
        ∀ box, levels.level box = joinedLevel earlier later box) ∧
      [levels.level .trun, levels.level url, levels.level .moof] = [5, 7, 1] ∧
      parse (odd ++ "," ++ "toolong:1") = .error (.invalidDetailLevels "trun") ∧
      ∃ entry, Error.invalidDetailLevels "trun" = .invalidDetailLevels (String.ofList entry) ∧
        (FirstMalformed odd entry ∨
          (∃ earlier, Lists odd earlier) ∧ FirstMalformed "toolong:1" entry) := by
  intro first second url levels odd
  have hparse : parse (first ++ "," ++ second) = .ok levels := by
    dsimp only [first, second, levels, url]
    rfl
  have hrefused : parse (odd ++ "," ++ "toolong:1") = .error (.invalidDetailLevels "trun") := by
    dsimp only [odd]
    rfl
  obtain ⟨hboth, hlevels, -⟩ := parse_joined first second
  obtain ⟨entry, hsame, -, hentry⟩ := (parse_joined odd "toolong:1").2.2 _ hrefused
  exact ⟨hparse, hboth.1 ⟨levels, hparse⟩, hlevels levels hparse, by decide, hrefused, entry,
    hsame, hentry⟩

end DetailLevels
end FragmentedMp4
