import FragmentedMp4.Proofs.Box.Framing

/-!
# Fields are read back as they were written

`Reads` says that a reader takes certain bytes off the front of some contents, whatever
follows them, and `ReadsAll` that it takes contents as a whole. Both go through `bind`, so
that what holds of the fields of a box adds up to a statement about its contents.
-/
namespace FragmentedMp4

namespace Reader

variable {α β : Type}

/-- The reader takes exactly these bytes, whatever follows, and gives this value. -/
def Reads (read : Reader α) (bytes : Bytes) (value : α) : Prop :=
  ∀ box position rest, read ⟨box, position, bytes ++ rest⟩ =
    .ok (value, ⟨box, position + bytes.length, rest⟩)

/-- The reader takes contents that are exactly these bytes and gives this value. -/
def ReadsAll (read : Reader α) (bytes : Bytes) (value : α) : Prop :=
  ∀ box position, read ⟨box, position, bytes⟩ =
    .ok (value, ⟨box, position + bytes.length, []⟩)

theorem Reads.all {read : Reader α} {bytes : Bytes} {value : α} (h : Reads read bytes value) :
    ReadsAll read bytes value := by
  intro box position
  simpa using h box position []

theorem Reads.pure (value : α) : Reads (pure value) [] value := by
  intro box position rest
  rfl

theorem Reads.bind {read : Reader α} {next : α → Reader β} {front back : Bytes} {a : α} {b : β}
    (hread : Reads read front a) (hnext : Reads (next a) back b) :
    Reads (read >>= next) (front ++ back) b := by
  intro box position rest
  rw [List.append_assoc, bind_of_ok (hread box position (back ++ rest)), hnext,
    List.length_append, Nat.add_assoc]

theorem Reads.bind_all {read : Reader α} {next : α → Reader β} {front back : Bytes} {a : α}
    {b : β} (hread : Reads read front a) (hnext : ReadsAll (next a) back b) :
    ReadsAll (read >>= next) (front ++ back) b := by
  intro box position
  rw [bind_of_ok (hread box position back), hnext, List.length_append, Nat.add_assoc]

theorem Reads.bind_pure {read : Reader α} {bytes : Bytes} {a : α} (f : α → β)
    (h : Reads read bytes a) : Reads (read >>= fun x => Pure.pure (f x)) bytes (f a) := by
  intro box position rest
  rw [bind_of_ok (h box position rest)]
  rfl

theorem Reads.number {width value : Nat} (h : value < widthLimit width) :
    Reads (Reader.number width) (bigEndian width value) value := by
  intro box position rest
  rw [length_bigEndian]
  exact number_append width value rest box position h

theorem Reads.uint32 (value : UInt32) :
    Reads Reader.uint32 (bigEndian 4 value.toNat) value := by
  intro box position rest
  rw [length_bigEndian]
  exact uint32_append value rest box position

theorem Reads.int32 (value : Int32) :
    Reads Reader.int32 (bigEndian 4 value.toUInt32.toNat) value := by
  intro box position rest
  rw [length_bigEndian]
  exact int32_append value rest box position

theorem Reads.uint64 (value : UInt64) :
    Reads Reader.uint64 (bigEndian 8 value.toNat) value := by
  intro box position rest
  rw [length_bigEndian]
  exact uint64_append value rest box position

theorem Reads.fourCC (code : FourCC) : Reads Reader.fourCC code.bytes code := by
  intro box position rest
  exact fourCC_append code rest box position

theorem bytes_eq_bigEndian (word : VersionFlags) :
    word.bytes = bigEndian 4 (word.version.toNat * 256 ^ 3 + word.flags.toNat) := by
  have hlt := word.flags_lt
  have hv := word.version.toNat_lt
  have hlimit : 256 ^ 3 = widthLimit 3 := rfl
  rw [hlimit, bigEndian, Nat.add_comm, bigEndian_add_mul, VersionFlags.bytes, ← hlimit]
  congr 1
  apply UInt8.toNat_inj.1
  rw [UInt8.toNat_ofNat']
  omega

theorem Reads.word (word : VersionFlags) : Reads Reader.word word.bytes word := by
  have hlt := word.flags_lt
  have hv := word.version.toNat_lt
  have hsum : word.version.toNat * 256 ^ 3 + word.flags.toNat < 2 ^ 32 := by omega
  have hread := Reads.uint32 (UInt32.ofNat (word.version.toNat * 256 ^ 3 + word.flags.toNat))
  rw [UInt32.toNat_ofNat_of_lt' hsum, ← bytes_eq_bigEndian] at hread
  have hpair := hread.bind_pure fun value : UInt32 =>
    VersionFlags.of (value >>> 24).toUInt8 value
  have hword : VersionFlags.of
      (UInt32.ofNat (word.version.toNat * 256 ^ 3 + word.flags.toNat) >>> 24).toUInt8
      (UInt32.ofNat (word.version.toNat * 256 ^ 3 + word.flags.toNat)) = word := by
    obtain ⟨version, flags, _⟩ := word
    dsimp only at hlt hv hsum
    simp only [VersionFlags.of, VersionFlags.mk.injEq]
    constructor
    · apply UInt8.toNat_inj.1
      rw [UInt32.toNat_toUInt8, UInt32.toNat_shiftRight, UInt32.toNat_ofNat_of_lt' hsum]
      simp only [UInt32.reduceToNat, Nat.reduceMod, Nat.shiftRight_eq_div_pow]
      omega
    · apply UInt32.toNat_inj.1
      rw [UInt32.toNat_and, UInt32.toNat_ofNat_of_lt' hsum]
      simp only [UInt32.reduceToNat]
      rw [show 16777215 = 2 ^ 24 - 1 by rfl, Nat.and_two_pow_sub_one_eq_mod]
      omega
  rw [hword] at hpair
  exact hpair

/-- A field is read back exactly when it is there, if a flag says whether it is. -/
theorem Reads.optional {read : Reader α} {encode : α → Bytes} {field : Option α} {present : Bool}
    (hpresent : present = field.isSome) (hread : ∀ value, Reads read (encode value) value) :
    Reads (Reader.optional present read) ((field.map encode).getD []) field := by
  subst hpresent
  cases field with
  | none => exact Reads.pure none
  | some value => exact (hread value).bind_pure some

theorem timesOnto_of_ok {read : Reader α} {cursor cursor' : Cursor} {value : α}
    (h : read cursor = .ok (value, cursor')) (done : List α) (count : Nat) :
    timesOnto read done (count + 1) cursor = timesOnto read (value :: done) count cursor' := by
  simp only [timesOnto, h]

theorem Reads.timesOnto {read : Reader α} {encode : α → Bytes} {values : List α}
    (hread : ∀ value ∈ values, Reads read (encode value) value) (done : List α) :
    Reads (Reader.timesOnto read done values.length) (values.flatMap encode)
      (done.reverse ++ values) := by
  induction values generalizing done with
  | nil =>
    intro box position rest
    simp [Reader.timesOnto]
  | cons value values ih =>
    intro box position rest
    have hvalue := hread value (by simp) box position (values.flatMap encode ++ rest)
    have hrest := ih (fun x hx => hread x (by simp [hx])) (value :: done)
      box (position + (encode value).length) rest
    rw [List.length_cons, List.flatMap_cons, List.append_assoc, timesOnto_of_ok hvalue, hrest]
    simp [Nat.add_assoc]

theorem Reads.times {read : Reader α} {encode : α → Bytes} {values : List α}
    (hread : ∀ value ∈ values, Reads read (encode value) value) :
    Reads (Reader.times values.length read) (values.flatMap encode) values := by
  exact Reads.timesOnto hread []

theorem Reads.finish_with {read : Reader α} {bytes : Bytes} {value : α} (f : α → β)
    (h : Reads read bytes value) :
    ReadsAll (read >>= fun x => Reader.finish >>= fun _ => Pure.pure (f x)) bytes (f value) := by
  intro box position
  rw [bind_of_ok (h.all box position)]
  rfl

theorem run_of_readsAll {read : Reader α} {bytes : Bytes} {value : α}
    (h : ReadsAll read bytes value) (box : FourCC) : run box read bytes = .ok value := by
  unfold run
  rw [h box 0]

end Reader

namespace VersionedTime

theorem reads {version : UInt8} {value : UInt64} (h : version = 1 ∨ isWide value = false) :
    Reader.Reads (read version) (bigEndian (width version) value.toNat) value := by
  unfold read width
  split_ifs with hversion
  · exact Reader.Reads.uint64 value
  · have hnarrow : value.toNat < 2 ^ 32 := by
      have hwide := h.resolve_left hversion
      simpa [isWide] using hwide
    have hvalue : (UInt32.ofNat value.toNat).toNat = value.toNat :=
      UInt32.toNat_ofNat_of_lt' hnarrow
    have hread := (Reader.Reads.uint32 (UInt32.ofNat value.toNat)).bind_pure UInt32.toUInt64
    have hback : (UInt32.ofNat value.toNat).toUInt64 = value := by
      apply UInt64.toNat_inj.1
      rw [UInt32.toNat_toUInt64, hvalue]
    rw [hvalue, hback] at hread
    exact hread

end VersionedTime
end FragmentedMp4
