import FragmentedMp4.Box.TrackRun
import FragmentedMp4.Box.SegmentIndex
import FragmentedMp4.Proofs.Results

/-!
# What readers take

How many bytes a reader has taken when it came through, and what is known of the value that it
gave. Nothing is said here of the bytes themselves: the same value may have been stored in
different ways.
-/
namespace FragmentedMp4

namespace Reader

variable {α β : Type}

/-- Whenever the reader comes through, it has taken this many bytes, and its value has the
property. -/
structure Takes (read : Reader α) (width : Nat) (holds : α → Prop) : Prop where
  of_ok : ∀ {cursor next : Cursor} {value : α}, read cursor = .ok (value, next) →
    holds value ∧ cursor.rest.length = width + next.rest.length

theorem bind_eq_ok {read : Reader α} {next : α → Reader β} {cursor after : Cursor} {value : β} :
    (read >>= next) cursor = .ok (value, after) ↔
      ∃ middle between, read cursor = .ok (middle, between) ∧
        next middle between = .ok (value, after) := by
  rw [bind_apply]
  cases read cursor with
  | error error => simp
  | ok pair =>
    obtain ⟨middle, between⟩ := pair
    simp

theorem run_eq_ok {read : Reader α} {box : FourCC} {contents : Bytes} {value : α}
    (h : read.run box contents = .ok value) :
    ∃ after, read ⟨box, 0, contents⟩ = .ok (value, after) := by
  unfold run at h
  cases hread : read ⟨box, 0, contents⟩ with
  | error error =>
    rw [hread] at h
    cases h
  | ok pair =>
    obtain ⟨found, after⟩ := pair
    rw [hread] at h
    cases h
    exact ⟨after, rfl⟩

theorem Takes.bytes (count : Nat) : Takes (Reader.bytes count) count fun front =>
    front.length = count := by
  constructor
  intro cursor next front h
  unfold Reader.bytes at h
  rw [takeExactly_eq] at h
  split_ifs at h with hcount
  · cases h
    simp only [List.length_take, List.length_drop]
    omega

theorem Takes.number (width : Nat) : Takes (Reader.number width) width (· < widthLimit width) := by
  constructor
  intro cursor next value h
  obtain ⟨front, between, hfront, h⟩ := bind_eq_ok.1 h
  cases h
  obtain ⟨hlength, htaken⟩ := (Takes.bytes width).of_ok hfront
  have hlt := bigEndianValue_lt front
  rw [hlength] at hlt
  exact ⟨hlt, htaken⟩

theorem Takes.map {read : Reader α} {width : Nat} {holds : α → Prop} {holds' : β → Prop}
    (h : Takes read width holds) {f : α → β} (himp : ∀ value, holds value → holds' (f value)) :
    Takes (read >>= fun value => pure (f value)) width holds' := by
  constructor
  intro cursor next value hread
  obtain ⟨middle, between, hmiddle, hread⟩ := bind_eq_ok.1 hread
  cases hread
  obtain ⟨hholds, htaken⟩ := h.of_ok hmiddle
  exact ⟨himp middle hholds, htaken⟩

theorem Takes.uint32 : Takes Reader.uint32 4 fun _ => True :=
  (Takes.number 4).map fun _ _ => trivial

theorem Takes.int32 : Takes Reader.int32 4 fun _ => True :=
  Takes.uint32.map fun _ _ => trivial

theorem Takes.uint64 : Takes Reader.uint64 8 fun _ => True :=
  (Takes.number 8).map fun _ _ => trivial

theorem Takes.word : Takes Reader.word 4 fun _ => True :=
  Takes.uint32.map fun _ _ => trivial

theorem Takes.fourCC : Takes Reader.fourCC 4 fun _ => True := by
  constructor
  intro cursor next code h
  unfold Reader.fourCC at h
  cases hbytes : Reader.bytes 4 cursor with
  | error error =>
    rw [hbytes] at h
    cases h
  | ok pair =>
    obtain ⟨front, between⟩ := pair
    simp only [hbytes] at h
    split at h
    · cases h
      exact ⟨trivial, ((Takes.bytes 4).of_ok hbytes).2⟩
    · cases h

theorem optional_eq_ok {read : Reader α} {width : Nat} {holds : α → Prop}
    (hread : Takes read width holds) {present : Bool} {cursor next : Cursor} {field : Option α}
    (h : Reader.optional present read cursor = .ok (field, next)) :
    field.isSome = present ∧
      cursor.rest.length = OptionalField.size field width + next.rest.length := by
  unfold Reader.optional at h
  split_ifs at h with hpresent
  · obtain ⟨value, between, hvalue, h⟩ := bind_eq_ok.1 h
    cases h
    exact ⟨hpresent.symm, (hread.of_ok hvalue).2⟩
  · cases h
    exact ⟨(Bool.not_eq_true present ▸ hpresent).symm, (Nat.zero_add _).symm⟩

theorem timesOnto_eq_ok {read : Reader α} {width : Nat} {holds : α → Prop}
    (hread : Takes read width holds) {done values : List α} {count : Nat} {cursor next : Cursor}
    (h : timesOnto read done count cursor = .ok (values, next)) :
    ∃ items, values = done.reverse ++ items ∧ items.length = count ∧
      (∀ item ∈ items, holds item) ∧ cursor.rest.length = width * count + next.rest.length := by
  induction count generalizing done cursor with
  | zero =>
    cases h
    exact ⟨[], (List.append_nil _).symm, rfl, by simp, by simp⟩
  | succ count ih =>
    unfold timesOnto at h
    cases hitem : read cursor with
    | error error =>
      simp only [hitem] at h
      cases h
    | ok pair =>
      obtain ⟨item, between⟩ := pair
      simp only [hitem] at h
      obtain ⟨hholds, htaken⟩ := hread.of_ok hitem
      obtain ⟨items, rfl, hlength, hall, hrest⟩ := ih h
      refine ⟨item :: items, ?_, ?_, ?_, ?_⟩
      · rw [List.reverse_cons, List.append_assoc, List.singleton_append]
      · rw [List.length_cons, hlength]
      · intro other hmem
        rcases List.mem_cons.1 hmem with rfl | hmem
        · exact hholds
        · exact hall other hmem
      · rw [htaken, hrest, Nat.mul_succ]
        omega

theorem Takes.times {read : Reader α} {width : Nat} {holds : α → Prop}
    (hread : Takes read width holds) (count : Nat) :
    Takes (Reader.times count read) (width * count) fun values =>
      values.length = count ∧ ∀ value ∈ values, holds value := by
  constructor
  intro cursor next values h
  obtain ⟨items, rfl, hlength, hall, htaken⟩ := timesOnto_eq_ok hread h
  exact ⟨⟨hlength, hall⟩, htaken⟩

end Reader

namespace VersionedTime

theorem takes (version : UInt8) :
    Reader.Takes (read version) (width version) fun value =>
      version = 1 ∨ isWide value = false := by
  unfold read width
  split_ifs with hversion
  · exact ⟨fun h => ⟨.inl hversion, (Reader.Takes.uint64.of_ok h).2⟩⟩
  · refine Reader.Takes.uint32.map fun value _ => .inr ?_
    have hlt : value.toNat < UInt32.size := value.toNat_lt
    simp only [isWide, UInt32.toNat_toUInt64, decide_eq_false_iff_not]
    omega

end VersionedTime
end FragmentedMp4
