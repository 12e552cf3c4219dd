/-! Numbers in base ten: whole numbers, and decimals written out in full, without an exponent. -/
namespace TaggedWire

def digits (n : Nat) : List Char := Nat.toDigits 10 n

def wholeNumber : Int → List Char
  | .ofNat n => digits n
  | .negSucc n => '-' :: digits (n + 1)

/-- The number `mantissa * 10 ^ exponent`. -/
structure Decimal where
  mantissa : Nat
  exponent : Int
deriving DecidableEq

namespace Decimal

/-- Digits with the point put in; zeros fill the places up to the point, on either side. -/
def positional (d : Decimal) : List Char :=
  let ds := digits d.mantissa
  let places := (-d.exponent).toNat
  if places = 0 then ds ++ List.replicate d.exponent.toNat '0'
  else if places < ds.length then
    ds.take (ds.length - places) ++ '.' :: ds.drop (ds.length - places)
  else '0' :: '.' :: (List.replicate (places - ds.length) '0' ++ ds)

end Decimal
end TaggedWire
