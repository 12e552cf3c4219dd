/-! Byte strings: numbers in big-endian order, text in UTF-8, and the hexadecimal spelling of bytes. -/
namespace TaggedWire

abbrev Bytes := List UInt8

namespace Bytes

/-- The `width` low-order digits of `n` in base 256, the highest first. -/
def ofNat : Nat → Nat → Bytes
  | 0, _ => []
  | width + 1, n => ofNat width (n / 256) ++ [UInt8.ofNat n]

@[simp] theorem length_ofNat (width n : Nat) : (ofNat width n).length = width := by
  induction width generalizing n with
  | zero => rfl
  | succ width ih => simp [ofNat, ih]

def toNat (bs : Bytes) : Nat := bs.foldl (fun n b => 256 * n + b.toNat) 0

@[simp] theorem toNat_nil : toNat [] = 0 := rfl

@[simp] theorem toNat_concat (bs : Bytes) (b : UInt8) :
    toNat (bs ++ [b]) = 256 * toNat bs + b.toNat := by
  simp [toNat]

/-- Whether at least `n` bytes are there, found without counting the others. -/
def holds : Nat → Bytes → Bool
  | 0, _ => true
  | _ + 1, [] => false
  | n + 1, _ :: bs => holds n bs

@[simp] theorem holds_iff {n : Nat} {bs : Bytes} : holds n bs = true ↔ n ≤ bs.length := by
  induction n generalizing bs with
  | zero => simp [holds]
  | succ n ih => cases bs <;> simp [holds, ih]

def ofText (s : String) : Bytes := s.toByteArray.data.toList

/-- The text whose UTF-8 form the bytes are, if they are one. -/
def text? (bs : Bytes) : Option String := String.fromUTF8? ⟨bs.toArray⟩

theorem text?_eq_some_iff {bs : Bytes} {s : String} : text? bs = some s ↔ ofText s = bs := by
  constructor
  · intro h
    obtain ⟨_, h⟩ := Option.dite_none_right_eq_some.mp h
    obtain rfl := Option.some.inj h
    rfl
  · rintro rfl
    exact dif_pos (show (ByteArray.mk s.toByteArray.data.toList.toArray).IsValidUTF8 by
      simpa using s.isValidUTF8)

@[simp] theorem text?_ofText (s : String) : text? (ofText s) = some s := text?_eq_some_iff.mpr rfl

def hexPair (b : UInt8) : List Char :=
  [Nat.digitChar (b.toNat / 16), Nat.digitChar (b.toNat % 16)]

/-- Two lower-case digits a byte. -/
def hex (bs : Bytes) : List Char := bs.flatMap hexPair

/-- The byte order: at the first difference the smaller byte comes first, and a shorter string before its
extensions. -/
def le : Bytes → Bytes → Bool
  | [], _ => true
  | _ :: _, [] => false
  | a :: as, b :: bs => a < b || (a == b && le as bs)

end Bytes
end TaggedWire
