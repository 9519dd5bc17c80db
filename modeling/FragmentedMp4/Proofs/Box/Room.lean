import FragmentedMp4.Proofs.Box.TopBoxes
import Mathlib.Algebra.BigOperators.Ring.List
import Mathlib.Algebra.Order.BigOperators.Group.List

/-!
# Room for boxes that are written again

A box that extends to the end has a short header, however large it is. Written again it has a
size, and its header takes eight bytes more if the size does not fit 32 bits. No other box grows.
`Box.room` adds these bytes to those that there are.
-/
namespace FragmentedMp4

namespace TopBox

def contents (box : TopBox) : Bytes :=
  box.header.contents box.bytes

/-- The box extends to the end and is too large for a 32-bit size. -/
def OpenLarge (box : TopBox) : Prop :=
  BoxHeader.OpenEnded box.bytes ∧ Box.maxShortSize < box.header.size

instance (box : TopBox) : Decidable box.OpenLarge :=
  inferInstanceAs (Decidable (_ ∧ _))

end TopBox

namespace Box

/-- The number of boxes that extend to the end and are too large for a 32-bit size, among the boxes
at the top of some bytes and the boxes inside these. Only boxes of the types `containers` are
entered: of the first type at the top, of the second one inside those, and so on. -/
def openLarge : (containers : List FourCC) → (data : Bytes) → Nat
  | [], data => ((topBoxes data).map fun box => if box.OpenLarge then 1 else 0).sum
  | name :: inner, data =>
    ((topBoxes data).map fun box =>
      (if box.OpenLarge then 1 else 0) +
        if box.header.name = name then openLarge inner box.contents else 0).sum

/-- As many bytes as the boxes of some bytes can take when they are written again. -/
def room (containers : List FourCC) (data : Bytes) : Nat :=
  data.length + 8 * openLarge containers data

/-- Those of the boxes that are inside a box. -/
def openLargeInside (box : TopBox) : (containers : List FourCC) → Nat
  | [] => 0
  | name :: inner => if box.header.name = name then openLarge inner box.contents else 0

variable {containers : List FourCC} {data : Bytes} {header : BoxHeader}

theorem openLarge_eq (containers : List FourCC) (data : Bytes) :
    openLarge containers data = ((topBoxes data).map fun box =>
      (if box.OpenLarge then 1 else 0) + openLargeInside box containers).sum := by
  cases containers <;> rfl

theorem openLarge_nil (containers : List FourCC) : openLarge containers [] = 0 := by
  rw [openLarge_eq, topBoxes_of_error rfl]
  rfl

theorem openLarge_of_parse (h : BoxHeader.parse data = .ok header) :
    openLarge containers data =
      (if TopBox.OpenLarge ⟨header, data.take header.size⟩ then 1 else 0) +
        openLargeInside ⟨header, data.take header.size⟩ containers +
        openLarge containers (data.drop header.size) := by
  rw [openLarge_eq, topBoxes_of_parse h, List.map_cons, List.sum_cons, ← openLarge_eq]

theorem length_topBoxes (data : Bytes) :
    ((topBoxes data).map (·.header.size)).sum ≤ data.length ∧
      ∀ box ∈ topBoxes data, box.contents.length ≤ box.header.size := by
  fun_induction topBoxes data with
  | case1 data error herror => simp
  | case2 data header hparse ih =>
    obtain ⟨hsum, hall⟩ := ih
    obtain ⟨-, -, hfits⟩ := BoxHeader.parse_bounds hparse
    rw [List.length_drop] at hsum
    refine ⟨?_, List.forall_mem_cons.2 ⟨?_, hall⟩⟩
    · simp only [List.map_cons, List.sum_cons]
      omega
    · simp only [TopBox.contents, BoxHeader.contents, List.length_drop, List.length_take]
      omega

theorem openLarge_le_of_inside
    (h : ∀ box ∈ topBoxes data,
      2 ^ 32 * openLargeInside box containers ≤ containers.length * box.header.size) :
    2 ^ 32 * openLarge containers data ≤ (containers.length + 1) * data.length := by
  have hbox (box : TopBox) (hmem : box ∈ topBoxes data) :
      2 ^ 32 * ((if box.OpenLarge then 1 else 0) + openLargeInside box containers) ≤
        (containers.length + 1) * box.header.size := by
    have hown : 2 ^ 32 * (if box.OpenLarge then 1 else 0) ≤ box.header.size := by
      split_ifs with hlarge
      · exact hlarge.2
      · exact Nat.zero_le _
    rw [Nat.mul_add, Nat.add_mul, Nat.one_mul, Nat.add_comm]
    exact Nat.add_le_add (h box hmem) hown
  calc 2 ^ 32 * openLarge containers data
      = ((topBoxes data).map fun box =>
          2 ^ 32 * ((if box.OpenLarge then 1 else 0) + openLargeInside box containers)).sum := by
        rw [openLarge_eq, List.sum_map_mul_left]
    _ ≤ ((topBoxes data).map fun box => (containers.length + 1) * box.header.size).sum :=
        List.sum_le_sum hbox
    _ = (containers.length + 1) * ((topBoxes data).map (·.header.size)).sum :=
        List.sum_map_mul_left ..
    _ ≤ (containers.length + 1) * data.length :=
        Nat.mul_le_mul_left _ (length_topBoxes data).1

/-- There are few such boxes, as each of them is large. -/
theorem openLarge_le (containers : List FourCC) (data : Bytes) :
    2 ^ 32 * openLarge containers data ≤ (containers.length + 1) * data.length := by
  induction containers generalizing data with
  | nil => exact openLarge_le_of_inside fun box _ => Nat.zero_le _
  | cons name inner ih =>
    refine openLarge_le_of_inside fun box hmem => ?_
    simp only [openLargeInside]
    split_ifs
    · exact (ih _).trans (Nat.mul_le_mul_left _ ((length_topBoxes data).2 box hmem))
    · exact Nat.zero_le _

theorem openLarge_eq_zero (h : data.length ≤ maxShortSize)
    (hinside : ∀ box : TopBox, box.contents.length ≤ maxShortSize →
      openLargeInside box containers = 0) : openLarge containers data = 0 := by
  rw [openLarge_eq]
  apply List.sum_eq_zero
  rintro _ hcount
  obtain ⟨box, hmem, rfl⟩ := List.mem_map.1 hcount
  obtain ⟨hsum, hall⟩ := length_topBoxes data
  have hbox : box.header.size ≤ ((topBoxes data).map (·.header.size)).sum :=
    List.le_sum_of_mem (List.mem_map_of_mem hmem)
  have hcontents := hall box hmem
  rw [if_neg fun hlarge => absurd hlarge.2 (by omega), hinside box (by omega), Nat.add_zero]

theorem openLarge_of_short (containers : List FourCC) {data : Bytes}
    (h : data.length ≤ maxShortSize) : openLarge containers data = 0 := by
  induction containers generalizing data with
  | nil => exact openLarge_eq_zero h fun box _ => rfl
  | cons name inner ih =>
    refine openLarge_eq_zero h fun box hcontents => ?_
    simp only [openLargeInside, ih hcontents, ite_self]

theorem room_le (data : Bytes) : room [.moof, .traf] data ≤ 2 * data.length := by
  have hfew := openLarge_le [.moof, .traf] data
  simp only [List.length_cons, List.length_nil] at hfew
  unfold room
  omega

/-! ### The boxes at the front -/

theorem room_nil (containers : List FourCC) : room containers [] = 0 := by
  rw [room, openLarge_nil]
  rfl

theorem length_le_room (containers : List FourCC) (data : Bytes) :
    data.length ≤ room containers data :=
  Nat.le_add_right _ _

theorem room_cut (h : BoxHeader.parse data = .ok header) :
    room containers data =
      room containers (data.take header.size) + room containers (data.drop header.size) := by
  obtain ⟨-, -, hfits⟩ := BoxHeader.parse_bounds h
  have hfront := @openLarge_of_parse containers _ _ (BoxHeader.parse_take_size h)
  have hlength : (data.take header.size).length = header.size := by
    rw [List.length_take, Nat.min_eq_left hfits]
  rw [List.drop_of_length_le hlength.le, openLarge_nil, List.take_take, Nat.min_self] at hfront
  unfold room
  rw [hfront, openLarge_of_parse h, hlength, List.length_drop]
  omega

theorem headerSize_add_length (h : BoxHeader.parse data = .ok header) :
    header.headerSize + (header.contents data).length = header.size := by
  obtain ⟨-, hle, hfits⟩ := BoxHeader.parse_bounds h
  rw [BoxHeader.contents, List.length_drop, List.length_take]
  omega

/-- A box grows only if it extends to the end and is too large for a short header. -/
theorem sizeOfBody_le_of_parse {body inside : Nat} (h : BoxHeader.parse data = .ok header)
    (hbody : body ≤ (header.contents data).length + 8 * inside)
    (hinside : header.size ≤ maxShortSize → inside = 0) :
    sizeOfBody body ≤ header.size +
      8 * ((if TopBox.OpenLarge ⟨header, data.take header.size⟩ then 1 else 0) + inside) := by
  obtain ⟨hmin, -, -⟩ := BoxHeader.parse_bounds h
  have hlength := headerSize_add_length h
  have hopen : TopBox.OpenLarge ⟨header, data.take header.size⟩ ↔
      BoxHeader.OpenEnded data ∧ maxShortSize < header.size := by
    unfold TopBox.OpenLarge
    rw [BoxHeader.openEnded_take (by omega)]
  unfold sizeOfBody headerSize largeHeaderSize
  rw [if_congr hopen rfl rfl]
  by_cases hshort : header.size ≤ maxShortSize
  · rw [hinside hshort] at hbody ⊢
    rw [if_pos (by omega)]
    omega
  · rcases BoxHeader.form_of_parse h with ⟨hends, -⟩ | ⟨hsized, hform⟩
    · have hgrows : BoxHeader.OpenEnded data ∧ maxShortSize < header.size :=
        ⟨hends, not_le.1 hshort⟩
      rw [if_pos hgrows]
      split_ifs <;> omega
    · have hkeeps : ¬ (BoxHeader.OpenEnded data ∧ maxShortSize < header.size) :=
        fun hlarge => hsized hlarge.1
      rw [if_neg hkeeps]
      split_ifs <;> omega

theorem openLargeInside_of_short (containers : List FourCC) (h : header.size ≤ maxShortSize) :
    openLargeInside ⟨header, data.take header.size⟩ containers = 0 := by
  cases containers with
  | nil => rfl
  | cons name inner =>
    have hcontents : (TopBox.contents ⟨header, data.take header.size⟩).length ≤ maxShortSize := by
      simp only [TopBox.contents, BoxHeader.contents, List.length_drop, List.length_take]
      omega
    simp only [openLargeInside, openLarge_of_short inner hcontents, ite_self]

/-- A box is written into the room that there was for it, with that of the boxes inside it. -/
theorem sizeOfBody_add_room_le {body : Nat} (h : BoxHeader.parse data = .ok header)
    (hbody : body ≤ (header.contents data).length +
      8 * openLargeInside ⟨header, data.take header.size⟩ containers) :
    sizeOfBody body + room containers (data.drop header.size) ≤ room containers data := by
  have hsize := sizeOfBody_le_of_parse h hbody (openLargeInside_of_short containers)
  obtain ⟨-, -, hfits⟩ := BoxHeader.parse_bounds h
  unfold room
  rw [openLarge_of_parse h, List.length_drop]
  omega

theorem sizeOfBody_add_room_le_of_name {name : FourCC} {inner : List FourCC} {body : Nat}
    (h : BoxHeader.parse data = .ok header) (hname : header.name = name)
    (hbody : body ≤ room inner (header.contents data)) :
    sizeOfBody body + room (name :: inner) (data.drop header.size) ≤ room (name :: inner) data := by
  apply sizeOfBody_add_room_le h
  have hcontents : TopBox.contents ⟨header, data.take header.size⟩ = header.contents data := by
    unfold TopBox.contents BoxHeader.contents
    rw [List.take_take, Nat.min_self]
  simp only [openLargeInside, hname, if_true, hcontents]
  exact hbody

end Box
end FragmentedMp4
