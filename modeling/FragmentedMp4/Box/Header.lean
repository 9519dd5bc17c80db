import FragmentedMp4.Box.Basic

/-!
# Box headers in a byte string

`BoxHeader.parse` reads the size and type fields at the start of some bytes. A
header is accepted only if the whole box lies within the bytes, so a walk over
boxes always moves on and never runs past the end.
-/

namespace FragmentedMp4

/-- The header of a box that was found at the start of some bytes. -/
structure BoxHeader where
  name : FourCC
  /-- The size of the whole box. -/
  size : Nat
  /-- The number of bytes in front of the contents. -/
  headerSize : Nat
deriving DecidableEq

namespace BoxHeader

/-- The size and the header size that the size field gives: zero stands for all
of the bytes, one for a 64-bit field behind the type. -/
def extent (name : FourCC) (data : Bytes) : Except Error (Nat × Nat) :=
  match bigEndianValue (data.take 4) with
  | 0 => .ok (data.length, Box.headerSize)
  | 1 =>
    if data.length < Box.largeHeaderSize then
      .error (.truncated name Box.largeHeaderSize data.length)
    else .ok (bigEndianValue ((data.drop 8).take 8), Box.largeHeaderSize)
  | size => .ok (size, Box.headerSize)

/-- Reads the header at the start of some bytes. -/
def parse (data : Bytes) : Except Error BoxHeader :=
  match FourCC.ofBytes? (data.drop 4) with
  | none => .error (.truncatedHeader data.length)
  | some name => do
    let (size, headerSize) ← extent name data
    if size < headerSize then .error (.invalidBox name (.sizeBelowHeader size))
    else if data.length < size then .error (.truncated name size data.length)
    else .ok ⟨name, size, headerSize⟩

def contents (header : BoxHeader) (data : Bytes) : Bytes :=
  (data.take header.size).drop header.headerSize

theorem extent_headerSize {name : FourCC} {data : Bytes} {size headerSize : Nat}
    (h : extent name data = .ok (size, headerSize)) : headerSize = 8 ∨ headerSize = 16 := by
  unfold extent at h
  split at h
  · cases h
    exact .inl rfl
  · split at h <;> cases h
    exact .inr rfl
  · cases h
    exact .inl rfl

/-- An accepted box has at least the bytes of its header, and all of its bytes
are there. -/
theorem parse_bounds {data : Bytes} {header : BoxHeader} (h : parse data = .ok header) :
    8 ≤ header.headerSize ∧ header.headerSize ≤ header.size ∧ header.size ≤ data.length := by
  unfold parse at h
  split at h
  · cases h
  · rename_i name _
    cases he : extent name data with
    | error e => simp [he, bind, Except.bind] at h
    | ok pair =>
      obtain ⟨size, headerSize⟩ := pair
      simp only [he, bind, Except.bind] at h
      have h16 := extent_headerSize he
      split at h
      · cases h
      · split at h
        · cases h
        · cases h
          simp only
          omega

theorem length_drop_lt {data : Bytes} {header : BoxHeader} (h : parse data = .ok header) :
    (data.drop header.size).length < data.length := by
  have := parse_bounds h
  simp only [List.length_drop]
  omega

end BoxHeader

namespace Box

/-- Goes over the boxes that fill some bytes, one after the other. A step gets the
header of a box and the bytes of that box. -/
def walk {σ : Type} (step : σ → BoxHeader → Bytes → Except Error σ) (state : σ)
    (data : Bytes) : Except Error σ :=
  if data.isEmpty then .ok state
  else
    match _h : BoxHeader.parse data with
    | .error error => .error error
    | .ok header =>
      match step state header (data.take header.size) with
      | .error error => .error error
      | .ok next => walk step next (data.drop header.size)
termination_by data.length
decreasing_by exact BoxHeader.length_drop_lt _h

/-- Reads a box of a known type at the start of some bytes, and the number of
bytes that it takes. An error in its contents names the box. -/
def decodeAs {α : Type} (name : FourCC) (decodeContents : Bytes → Except Error α)
    (data : Bytes) : Except Error (α × Nat) := do
  let header ← BoxHeader.parse data
  if header.name ≠ name then .error (.unexpectedBox header.name .differentType)
  else
    let value ← (decodeContents (header.contents data)).mapError (.inBox name)
    return (value, header.size)

end Box
end FragmentedMp4
