import Mathlib.Algebra.Group.Nat.Defs
import Mathlib.Tactic.SplitIfs
import TaggedWire.Bytes

/-! Numbers and their digits in base 256: a number is its digits modulo what they can hold, and digits are those of
their number. Then the bytes of a text: those below 128 are its characters below 128. -/
namespace TaggedWire
namespace Bytes

theorem toNat_ofNat (width n : Nat) : toNat (ofNat width n) = n % 256 ^ width := by
  induction width generalizing n with
  | zero => simp [ofNat, Nat.mod_one]
  | succ width ih =>
    rw [ofNat, toNat_concat, ih, Nat.pow_succ' (n := width), Nat.mod_mul, UInt8.toNat_ofNat']
    omega

theorem ofNat_toNat (bs : Bytes) : ofNat bs.length (toNat bs) = bs := by
  suffices h : ∀ rs : Bytes, ofNat rs.reverse.length (toNat rs.reverse) = rs.reverse by
    simpa using h bs.reverse
  intro rs
  induction rs with
  | nil => rfl
  | cons b rs ih =>
    have hb : b.toNat < 256 := b.toNat_lt
    have hq : (256 * toNat rs.reverse + b.toNat) / 256 = toNat rs.reverse := by omega
    have hr : UInt8.ofNat (256 * toNat rs.reverse + b.toNat) = b := by
      apply UInt8.toNat_inj.mp
      rw [UInt8.toNat_ofNat']
      omega
    simp only [List.reverse_cons, List.length_append, List.length_singleton, toNat_concat, ofNat,
      hq, hr, ih]

theorem toNat_lt (bs : Bytes) : bs.toNat < 256 ^ bs.length := by
  have hmod := toNat_ofNat bs.length bs.toNat
  rw [ofNat_toNat] at hmod
  rw [hmod]
  exact Nat.mod_lt _ (Nat.pow_pos (by decide))

/-- A byte of one of the first 128 characters is that character. -/
theorem toNat_of_mem_utf8EncodeChar {b : UInt8} {c : Char} (hb : b ∈ String.utf8EncodeChar c) (hlt : b.toNat < 128) :
    b.toNat = c.toNat := by
  have hc : c.val.toNat = c.toNat := rfl
  simp only [String.utf8EncodeChar] at hb
  split_ifs at hb <;> simp only [List.mem_cons, List.not_mem_nil, or_false] at hb
  · rw [hb, UInt8.toNat_ofNat']
    omega
  · rcases hb with rfl | rfl <;> rw [UInt8.toNat_ofNat'] at hlt <;> omega
  · rcases hb with rfl | rfl | rfl <;> rw [UInt8.toNat_ofNat'] at hlt <;> omega
  · rcases hb with rfl | rfl | rfl | rfl <;> rw [UInt8.toNat_ofNat'] at hlt <;> omega

theorem ofText_eq_flatMap (s : String) : ofText s = s.toList.flatMap String.utf8EncodeChar := by
  rw [ofText, ← String.utf8Encode_toList, List.utf8Encode, List.data_toByteArray]

end Bytes
end TaggedWire
