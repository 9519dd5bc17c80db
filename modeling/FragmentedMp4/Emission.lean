import FragmentedMp4.Error

/-!
# Emissions

What a box gives when its contents are written: bytes in order, and the error
that stopped it, if one did. An emission that was stopped keeps the bytes that
came before the error, because a fixed buffer may already hold them.
-/

namespace FragmentedMp4

/-- Bytes in order, and the error that ended them early. -/
structure Emission where
  bytes : Bytes
  error : Option Error
deriving DecidableEq

namespace Emission

def put (bytes : Bytes) : Emission :=
  ⟨bytes, none⟩

def stop (error : Error) : Emission :=
  ⟨[], some error⟩

/-- One emission after another; the second one is lost if the first was stopped. -/
def andThen (first second : Emission) : Emission :=
  match first.error with
  | none => ⟨first.bytes ++ second.bytes, second.error⟩
  | some _ => first

instance : Append Emission := ⟨andThen⟩

def concat (emissions : List Emission) : Emission :=
  emissions.foldr andThen (put [])

def number (width value : Nat) : Emission :=
  put (bigEndian width value)

@[simp] theorem put_append_bytes (first : Bytes) (second : Emission) :
    (put first ++ second).bytes = first ++ second.bytes := rfl

@[simp] theorem concat_nil : concat [] = put [] := rfl

@[simp] theorem concat_cons (emission : Emission) (emissions : List Emission) :
    concat (emission :: emissions) = emission ++ concat emissions := rfl

end Emission
end FragmentedMp4
