import TaggedWire.Decimal.Notation

/-! The shortest decimal inside an interval: of all powers of ten whose multiples meet the interval take the
largest, and of its multiples there the one nearest to the middle. Everything is exact. -/
namespace TaggedWire

/-- Numerators over the common denominator `2 ^ places`. The interval around `mid` reaches from `low` to
`high`; the ends belong to it if it is closed. -/
structure Interval where
  low : Nat
  mid : Nat
  high : Nat
  places : Nat
  closed : Bool

namespace Interval

def contains (r : Interval) (d : Decimal) : Bool :=
  let n := d.mantissa * Nat.pow 10 d.exponent.toNat <<< r.places
  let unit := Nat.pow 10 (-d.exponent).toNat
  if r.closed then r.low * unit ≤ n && n ≤ r.high * unit
  else r.low * unit < n && n < r.high * unit

/-- The multiple of `10 ^ e` at or next below the middle. -/
def floor (r : Interval) (e : Int) : Decimal :=
  ⟨r.mid * Nat.pow 10 (-e).toNat / (Nat.pow 10 e.toNat <<< r.places), e⟩

/-- The multiple of `10 ^ e` nearest to the middle among those in the interval. Halfway between two of them
the upper one is taken. -/
def nearest? (r : Interval) (e : Int) : Option Decimal :=
  let lower := r.floor e
  let upper : Decimal := ⟨lower.mantissa + 1, e⟩
  match r.contains lower, r.contains upper with
  | true, false => some lower
  | false, true => some upper
  | false, false => none
  | true, true =>
    let unit := Nat.pow 10 e.toNat <<< r.places
    let beyond := r.mid * Nat.pow 10 (-e).toNat - lower.mantissa * unit
    some (if 2 * beyond < unit then lower else upper)

/-- The search from `10 ^ e` down to finer grids. After the last step the floor is exact. -/
def search (r : Interval) : (steps : Nat) → (e : Int) → Decimal
  | 0, e => r.floor e
  | steps + 1, e =>
    match r.nearest? e with
    | some d => d
    | none => r.search steps (e - 1)

/-- From a power of ten above the interval down to the `places`-th place, where the middle itself lies. -/
def shortest (r : Interval) : Decimal :=
  let top := (r.high >>> r.places).log2 / 3 + 1
  r.search (top + r.places) top

end Interval
end TaggedWire
