/-! Decimal text of binary floating-point numbers.

A finite number is written with the fewest decimal digits that read back as the same number, in
positional form whatever its magnitude. All arithmetic is exact. -/

namespace TensorIR

/-- The number `digits * 10 ^ exponent`. -/
structure Decimal where
  digits : Nat
  exponent : Int
deriving DecidableEq

namespace Decimal

/-- The number without an exponent: zeros fill the places up to the point. -/
def positional (d : Decimal) : String :=
  let ds := Nat.toDigits 10 d.digits
  match d.exponent with
  | .ofNat zeros => String.ofList (ds ++ List.replicate zeros '0')
  | .negSucc n =>
    let places := n + 1
    if places < ds.length then
      let whole := ds.length - places
      String.ofList (ds.take whole ++ '.' :: ds.drop whole)
    else
      String.ofList ('0' :: '.' :: List.replicate (places - ds.length) '0' ++ ds)

end Decimal

/-- A positive number together with the reals that round to it, all in units of `2 ^ scale`: from
`low` to `high`, the ends included when `closed` holds. -/
structure RoundingInterval where
  low : Nat
  value : Nat
  high : Nat
  scale : Int
  closed : Bool

namespace RoundingInterval

/-- The interval of `mantissa * 2 ^ exponent`. Its lower half is narrower when `narrow` holds, which
is the case at the least mantissa of a binade. -/
def ofBinary (mantissa : Nat) (exponent : Int) (narrow : Bool) : RoundingInterval where
  low := 4 * mantissa - if narrow then 1 else 2
  value := 4 * mantissa
  high := 4 * mantissa + 2
  scale := exponent - 2
  closed := mantissa % 2 == 0

/-- The multiple of `10 ^ g` inside the interval that is nearest to the value, the larger of two
that are equally near. Only the two multiples next to the value can be nearest. -/
def onGrid? (r : RoundingInterval) (g : Int) : Option Nat :=
  let scaled (k : Nat) : Nat := k * Nat.pow 2 r.scale.toNat * Nat.pow 10 (-g).toNat
  let step := Nat.pow 2 (-r.scale).toNat * Nat.pow 10 g.toNat
  let inside (c : Nat) : Bool :=
    if r.closed then scaled r.low ≤ c * step ∧ c * step ≤ scaled r.high
    else scaled r.low < c * step ∧ c * step < scaled r.high
  let c := scaled r.value / step
  if inside c then
    if inside (c + 1) && step ≤ 2 * (scaled r.value - c * step) then some (c + 1) else some c
  else if inside (c + 1) then some (c + 1)
  else none

/-- The first grid point found on ever finer grids, starting at `10 ^ g`. -/
def onGridsFrom (r : RoundingInterval) : (grids : Nat) → (g : Int) → Decimal
  | 0, g => ⟨(r.onGrid? g).getD 0, g⟩
  | grids + 1, g =>
    match r.onGrid? g with
    | some c => ⟨c, g⟩
    | none => r.onGridsFrom grids (g - 1)

/-- The shortest decimal in the interval. The search starts above the value, and seventeen digits
always suffice for a binary number of up to 64 bits. -/
def shortest (r : RoundingInterval) : Decimal :=
  let bits : Int := r.value.log2 + 1 + r.scale
  r.onGridsFrom 24 (bits * 30103 / 100000 + 2)

end RoundingInterval

/-- The widths of the two fields of a binary interchange format. -/
structure BinaryFormat where
  fractionBits : Nat
  exponentBits : Nat

namespace BinaryFormat

def binary32 : BinaryFormat := ⟨23, 8⟩

def binary64 : BinaryFormat := ⟨52, 11⟩

/-- The text of the number with the given encoding. Zero shows its sign, a NaN does not. -/
def text (f : BinaryFormat) (encoding : Nat) : String :=
  let fraction := encoding % Nat.pow 2 f.fractionBits
  let exponent := encoding / Nat.pow 2 f.fractionBits % Nat.pow 2 f.exponentBits
  let sign := if encoding / Nat.pow 2 (f.fractionBits + f.exponentBits) = 0 then "" else "-"
  let bias : Int := Nat.pow 2 (f.exponentBits - 1) - 1 + f.fractionBits
  if exponent = Nat.pow 2 f.exponentBits - 1 then
    if fraction = 0 then sign ++ "inf" else "NaN"
  else if exponent = 0 then
    if fraction = 0 then sign ++ "0"
    else sign ++ (RoundingInterval.ofBinary fraction (1 - bias) false).shortest.positional
  else
    let mantissa := Nat.pow 2 f.fractionBits + fraction
    let narrow := fraction == 0 && exponent != 1
    sign ++ (RoundingInterval.ofBinary mantissa (exponent - bias) narrow).shortest.positional

end BinaryFormat

end TensorIR
