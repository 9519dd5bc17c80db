import FragmentedMp4.Proofs.Box.Exact

/-!
# Written boxes are found again

The header that stands in front of a written box gives its type, its exact size and the
length of the header in use, for sizes on both sides of the 32-bit limit and whatever
follows the box. So a reader gets exactly the body that was written, and a walk over
boxes goes from one written box to the next.
-/
namespace FragmentedMp4

namespace BoxHeader

theorem extent_of_short (name : FourCC) {data : Bytes} {size : Nat}
    (hvalue : bigEndianValue (data.take 4) = size) (hsize : 2 ≤ size) :
    extent name data = .ok (size, Box.headerSize) := by
  unfold extent
  rw [hvalue]
  split <;> first | omega | rfl

theorem extent_of_large (name : FourCC) {data : Bytes}
    (hvalue : bigEndianValue (data.take 4) = 1) (hlen : Box.largeHeaderSize ≤ data.length) :
    extent name data =
      .ok (bigEndianValue ((data.drop 8).take 8), Box.largeHeaderSize) := by
  unfold extent
  rw [hvalue]
  exact if_neg (by omega)

/-- The 32-bit field of a header holds the size, or one if the size stands behind the type. -/
theorem value_sizeField (name : FourCC) (size : Nat) (rest : Bytes) :
    bigEndianValue ((Box.header name size ++ rest).take 4) =
      if size ≤ Box.maxShortSize then size else 1 := by
  unfold Box.header
  split_ifs with hshort
  · have hsize : size < widthLimit 4 := Nat.lt_succ_of_le hshort
    rw [List.append_assoc, List.take_left' (length_bigEndian 4 size),
      bigEndianValue_bigEndian_of_lt hsize]
  · rw [List.append_assoc, List.append_assoc, List.take_left' (length_bigEndian 4 1),
      bigEndianValue_bigEndian_of_lt (by decide)]

theorem name_header (name : FourCC) (size : Nat) (rest : Bytes) :
    FourCC.ofBytes? ((Box.header name size ++ rest).drop 4) = some name := by
  unfold Box.header
  split_ifs
  · rw [List.append_assoc, List.drop_left' (length_bigEndian 4 size),
      FourCC.ofBytes?_bytes_append]
  · rw [List.append_assoc, List.append_assoc, List.drop_left' (length_bigEndian 4 1),
      FourCC.ofBytes?_bytes_append]

theorem extent_header {name : FourCC} {size : Nat} {rest : Bytes}
    (hmin : (Box.header name size).length ≤ size) (hmax : size < UInt64.size) :
    extent name (Box.header name size ++ rest) = .ok (size, (Box.header name size).length) := by
  have hfield := value_sizeField name size rest
  have hlen := Box.length_header name size
  split_ifs at hfield hlen with hshort
  · unfold Box.headerSize at hlen
    rw [extent_of_short name hfield (by omega), hlen]
    rfl
  · have hbehind : Box.header name size ++ rest =
        (bigEndian 4 1 ++ name.bytes) ++ (bigEndian 8 size ++ rest) := by
      simp [Box.header, hshort]
    have hlarge : bigEndianValue (((Box.header name size ++ rest).drop 8).take 8) = size := by
      rw [hbehind, List.drop_left' (by simp), List.take_left' (length_bigEndian 8 size),
        bigEndianValue_bigEndian_of_lt hmax]
    rw [extent_of_large name hfield (by rw [List.length_append]; omega), hlarge, hlen]

/-- The size and type fields of a box are read back, in the short and in the large form. -/
theorem parse_header {name : FourCC} {size : Nat} {rest : Bytes}
    (hmin : (Box.header name size).length ≤ size) (hmax : size < UInt64.size)
    (hfits : size ≤ (Box.header name size ++ rest).length) :
    parse (Box.header name size ++ rest) =
      .ok ⟨name, size, (Box.header name size).length⟩ := by
  unfold parse
  rw [name_header]
  simp only [extent_header hmin hmax, bind, Except.bind]
  rw [if_neg (by omega), if_neg (by omega)]

end BoxHeader

namespace Box

variable {α : Type} [IsBox α]

/-- A box that can be written: its size fits 64 bits and nothing stops its contents. -/
structure Writable (box : α) : Prop where
  size_lt : size box < UInt64.size
  complete : (IsBox.contents box).error = none

/-- Everything behind the size and type fields of a written box. -/
def body (box : α) : Bytes :=
  ((IsBox.word box).map VersionFlags.bytes).getD [] ++ (IsBox.contents box).bytes

def writtenHeader (box : α) : BoxHeader :=
  ⟨IsBox.name box, size box, (header (IsBox.name box) (size box)).length⟩

theorem emission_bytes_eq (box : α) :
    (emission box).bytes = header (IsBox.name box) (size box) ++ body box := by
  rw [emission_bytes, front, body, List.append_assoc]

variable {box : α}

theorem parse_of_length (hlen : (emission box).bytes.length = size box)
    (hmax : size box < UInt64.size) (rest : Bytes) :
    BoxHeader.parse ((emission box).bytes ++ rest) = .ok (writtenHeader box) := by
  rw [emission_bytes_eq] at hlen ⊢
  rw [List.append_assoc]
  rw [List.length_append] at hlen
  apply BoxHeader.parse_header
  · omega
  · exact hmax
  · simp only [List.length_append]
    omega

theorem contents_of_length (hlen : (emission box).bytes.length = size box) (rest : Bytes) :
    (writtenHeader box).contents ((emission box).bytes ++ rest) = body box := by
  have htake :
      ((emission box).bytes ++ rest).take (writtenHeader box).size = (emission box).bytes :=
    List.take_left' hlen
  unfold BoxHeader.contents
  rw [htake, emission_bytes_eq]
  exact List.drop_left' rfl

variable [ExactBox α]

theorem length_emission (h : Writable box) : (emission box).bytes.length = size box :=
  (within_emission box).eq h.complete

theorem parse_emission (h : Writable box) (rest : Bytes) :
    BoxHeader.parse ((emission box).bytes ++ rest) = .ok (writtenHeader box) :=
  parse_of_length (length_emission h) h.size_lt rest

theorem take_emission (h : Writable box) (rest : Bytes) :
    ((emission box).bytes ++ rest).take (writtenHeader box).size = (emission box).bytes :=
  List.take_left' (length_emission h)

theorem drop_emission (h : Writable box) (rest : Bytes) :
    ((emission box).bytes ++ rest).drop (writtenHeader box).size = rest :=
  List.drop_left' (length_emission h)

theorem contents_emission (h : Writable box) (rest : Bytes) :
    (writtenHeader box).contents ((emission box).bytes ++ rest) = body box :=
  contents_of_length (length_emission h) rest

/-- A written box is read as what its body is read as, and takes exactly its size. -/
theorem decodeAs_emission {β : Type} {decodeContents : Bytes → Except Error β} {value : β}
    {name : FourCC} (h : Writable box) (hname : IsBox.name box = name)
    (hbody : decodeContents (body box) = .ok value) (rest : Bytes) :
    decodeAs name decodeContents ((emission box).bytes ++ rest) = .ok (value, size box) := by
  unfold decodeAs
  have hwritten : (writtenHeader box).name = name := hname
  simp only [parse_emission h, bind, Except.bind, hwritten, ne_eq, not_true_eq_false, if_false,
    contents_emission h, hbody, mapError_ok]
  rfl

theorem emission_ne_nil (h : Writable box) : (emission box).bytes ≠ [] := by
  apply List.ne_nil_of_length_pos
  rw [length_emission h]
  exact sizeOfBody_pos _

/-- A walk goes over a written box by one step, with the bytes of that box. -/
theorem walk_emission {σ : Type} {step : σ → BoxHeader → Bytes → Except Error σ}
    {state next : σ} (h : Writable box)
    (hstep : step state (writtenHeader box) (emission box).bytes = .ok next) (rest : Bytes) :
    walk step state ((emission box).bytes ++ rest) = walk step next rest := by
  have hne : ((emission box).bytes ++ rest).isEmpty = false := by
    simp [emission_ne_nil h]
  rw [walk, hne, if_neg Bool.false_ne_true]
  split
  · rename_i error herror
    rw [parse_emission h] at herror
    cases herror
  · rename_i header hheader
    rw [parse_emission h] at hheader
    cases hheader
    rw [take_emission h, hstep, drop_emission h]

theorem walk_nil {σ : Type} (step : σ → BoxHeader → Bytes → Except Error σ) (state : σ) :
    walk step state [] = .ok state := by
  rw [walk]
  exact if_pos rfl

end Box
end FragmentedMp4
