import TaggedWire.Decimal.Shortest

/-! The text of a double given by its 64 bits: the fewest digits that read back to the same number, written
out in full, with no point in a whole number. -/
namespace TaggedWire
namespace Double

def negative (bits : UInt64) : Bool := bits.toNat >>> 63 = 1

def exponentField (bits : UInt64) : Nat := bits.toNat >>> 52 % 0x800

def fraction (bits : UInt64) : Nat := bits.toNat % 0x10000000000000

/-- A finite double is this number times `2 ^ scale`. -/
def mantissa (bits : UInt64) : Nat :=
  if exponentField bits = 0 then fraction bits else fraction bits + 0x10000000000000

def scale (bits : UInt64) : Int := max (exponentField bits) 1 - 1075

/-- The reals that round to the number without its sign, in quarters of its last place. Towards zero the next
double is only half as far away where the mantissa is the least of its exponent. -/
def interval (bits : UInt64) : Interval :=
  let m := mantissa bits
  let below := if fraction bits = 0 ∧ 1 < exponentField bits then 1 else 2
  let quarter := 1 <<< (scale bits - 2).toNat
  { low := (4 * m - below) * quarter
    mid := 4 * m * quarter
    high := (4 * m + 2) * quarter
    places := (2 - scale bits).toNat
    closed := m % 2 == 0 }

/-- Signs stand before everything but a NaN, also before a zero. -/
def text (bits : UInt64) : List Char :=
  let sign := if negative bits then ['-'] else []
  if exponentField bits = 2047 then
    if fraction bits = 0 then sign ++ ['i', 'n', 'f'] else ['N', 'a', 'N']
  else if mantissa bits = 0 then sign ++ ['0']
  else sign ++ (interval bits).shortest.positional

end Double
end TaggedWire
