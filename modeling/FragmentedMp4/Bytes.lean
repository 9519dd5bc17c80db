/-!
# Bytes and big-endian numbers

Every number of the file format is stored with its most significant byte
first. `bigEndian` writes a number in a given width and `bigEndianValue` reads
one back: the two are inverse to each other on numbers that fit the width.
`takeExactly` cuts a front of known length off, without measuring the rest.
-/

namespace FragmentedMp4

abbrev Bytes := List UInt8

/-- The numbers below it are those that fit a width. -/
def widthLimit : (width : Nat) → Nat
  | 0 => 1
  | width + 1 => widthLimit width * 256

/-- The `width` low bytes of a number, most significant byte first. -/
def bigEndian : (width : Nat) → (value : Nat) → Bytes
  | 0, _ => []
  | width + 1, value => UInt8.ofNat (value / widthLimit width) :: bigEndian width value

/-- The number that a list of bytes stands for, most significant byte first. -/
def bigEndianValue (bytes : Bytes) : Nat :=
  bytes.foldl (fun value byte => value * 256 + byte.toNat) 0

theorem widthLimit_pos (width : Nat) : 0 < widthLimit width := by
  induction width with
  | zero => exact Nat.one_pos
  | succ width ih => exact Nat.mul_pos ih (by decide)

theorem widthLimit_mono {width more : Nat} (h : width ≤ more) :
    widthLimit width ≤ widthLimit more := by
  induction h with
  | refl => exact Nat.le_refl _
  | step _ ih => exact Nat.le_trans ih (Nat.le_mul_of_pos_right _ (by decide))

@[simp] theorem length_bigEndian (width value : Nat) :
    (bigEndian width value).length = width := by
  induction width with
  | zero => rfl
  | succ width ih => simp [bigEndian, ih]

theorem foldl_bigEndianValue (bytes : Bytes) (start : Nat) :
    bytes.foldl (fun value byte => value * 256 + byte.toNat) start =
      start * widthLimit bytes.length + bigEndianValue bytes := by
  induction bytes generalizing start with
  | nil => simp [bigEndianValue, widthLimit]
  | cons byte bytes ih =>
    simp only [List.foldl_cons, List.length_cons, bigEndianValue, Nat.zero_mul, Nat.zero_add]
    rw [ih, ih byte.toNat, widthLimit, Nat.add_mul, Nat.mul_assoc, Nat.mul_comm 256]
    omega

theorem bigEndianValue_cons (byte : UInt8) (bytes : Bytes) :
    bigEndianValue (byte :: bytes) =
      byte.toNat * widthLimit bytes.length + bigEndianValue bytes := by
  rw [bigEndianValue, List.foldl_cons, foldl_bigEndianValue]
  simp

theorem bigEndianValue_lt (bytes : Bytes) : bigEndianValue bytes < widthLimit bytes.length := by
  induction bytes with
  | nil => decide
  | cons byte bytes ih =>
    rw [bigEndianValue_cons, List.length_cons, widthLimit]
    have hb : byte.toNat < 256 := byte.toNat_lt
    have : (byte.toNat + 1) * widthLimit bytes.length ≤ 256 * widthLimit bytes.length :=
      Nat.mul_le_mul_right _ hb
    rw [Nat.add_mul, Nat.one_mul] at this
    omega

/-- Writing a number and reading it back keeps its low bytes. -/
theorem bigEndianValue_bigEndian (width value : Nat) :
    bigEndianValue (bigEndian width value) = value % widthLimit width := by
  induction width with
  | zero => simp [bigEndian, bigEndianValue, widthLimit, Nat.mod_one]
  | succ width ih =>
    rw [bigEndian, bigEndianValue_cons, ih, length_bigEndian, widthLimit]
    rw [show (UInt8.ofNat (value / widthLimit width)).toNat = value / widthLimit width % 256 from
      UInt8.toNat_ofNat']
    have := Nat.mod_mul (x := value) (a := widthLimit width) (b := 256)
    rw [this, Nat.mul_comm (widthLimit width)]
    omega

/-- A number that fits its width is read back as it was written. -/
theorem bigEndianValue_bigEndian_of_lt {width value : Nat} (h : value < widthLimit width) :
    bigEndianValue (bigEndian width value) = value := by
  rw [bigEndianValue_bigEndian, Nat.mod_eq_of_lt h]

theorem bigEndian_add_mul (width value extra : Nat) :
    bigEndian width (value + extra * widthLimit width) = bigEndian width value := by
  induction width generalizing value extra with
  | zero => rfl
  | succ width ih =>
    have hpos := widthLimit_pos width
    rw [bigEndian, bigEndian, widthLimit,
      show extra * (widthLimit width * 256) = (extra * 256) * widthLimit width by
        rw [Nat.mul_comm (widthLimit width), Nat.mul_assoc], ih]
    congr 1
    rw [Nat.add_mul_div_right _ _ hpos]
    apply UInt8.toNat_inj.1
    rw [UInt8.toNat_ofNat', UInt8.toNat_ofNat']
    omega

/-- The first `count` bytes and the rest, or nothing when there are fewer. -/
def takeExactly : (count : Nat) → Bytes → Option (Bytes × Bytes)
  | 0, bytes => some ([], bytes)
  | _ + 1, [] => none
  | count + 1, byte :: bytes =>
    (takeExactly count bytes).map fun (front, rest) => (byte :: front, rest)

theorem takeExactly_eq (count : Nat) (bytes : Bytes) :
    takeExactly count bytes =
      if count ≤ bytes.length then some (bytes.take count, bytes.drop count) else none := by
  induction count generalizing bytes with
  | zero => simp [takeExactly]
  | succ count ih =>
    cases bytes with
    | nil => simp [takeExactly]
    | cons byte bytes =>
      rw [takeExactly, ih]
      by_cases h : count ≤ bytes.length <;> simp [h]

@[simp] theorem takeExactly_append (front rest : Bytes) :
    takeExactly front.length (front ++ rest) = some (front, rest) := by
  simp [takeExactly_eq]

end FragmentedMp4
