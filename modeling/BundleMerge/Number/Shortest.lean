import BundleMerge.Number.Binary64

/-! The shortest decimals that name a binary64 number: no decimal with fewer digits reads back as
the number, and of those with as few digits the chosen one is nearest to it. -/
namespace BundleMerge

structure Decimal where
  digits : Nat
  exponent : Int
  deriving Repr, DecidableEq

namespace Binary64

/-- Whether `d · 10^s` reads back as a number with `u` units: it lies between the midpoints to
the neighbours, which count if the last bit of the number is even. -/
def namedBy (u : Nat) (d : Nat) (s : Int) : Bool :=
  let step := lastBit u
  let below := if u = Nat.pow 2 u.log2 && step > 1 then step else 2 * step
  let grid := d * (Nat.pow 2 1076 * Nat.pow 10 s.toNat)
  let low := (4 * u - below) * Nat.pow 10 (-s).toNat
  let high := (4 * u + 2 * step) * Nat.pow 10 (-s).toNat
  if (u / step) % 2 = 0 then low ≤ grid && grid ≤ high else low < grid && grid < high

/-- The multiple of `10^s` that names the number, the nearer one if two do. -/
def onGrid? (u : Nat) (s : Int) : Option Nat :=
  let one := Nat.pow 2 1074 * Nat.pow 10 s.toNat
  let all := u * Nat.pow 10 (-s).toNat
  let d := all / one
  let lower := d > 0 && namedBy u d s
  let upper := namedBy u (d + 1) s
  let nearLower := 2 * (all % one) < one || (2 * (all % one) == one && d % 2 == 0)
  if lower && upper then some (if nearLower then d else d + 1)
  else if lower then some d
  else if upper then some (d + 1)
  else none

/-- Tries ever finer grids. Seventeen digits always suffice. -/
def shortestFrom (u : Nat) (s : Int) : Nat → Decimal
  | 0 => ⟨0, 0⟩
  | tries + 1 =>
    match onGrid? u s with
    | some d => ⟨d, s⟩
    | none => shortestFrom u (s - 1) tries

def shortest (a : Binary64) : Decimal :=
  if a.units = 0 then ⟨0, 0⟩
  else
    let bits : Int := a.units.log2 + 1 - 1074
    shortestFrom a.units (bits * 30103 / 100000 + 2) 24

end Binary64

namespace Decimal

/-- Which powers of ten are written positionally: those of the first digit from `least` to
`most`. -/
structure Layout where
  least : Int
  most : Int

def digitChars (n : Nat) : List Char :=
  Nat.toDigits 10 n

def zeros (n : Nat) : List Char :=
  List.replicate n '0'

/-- Digits, a point, and at least one digit on each side of it. -/
def positional (d : Decimal) : List Char :=
  let ds := digitChars d.digits
  let point : Int := ds.length + d.exponent
  if 0 ≤ d.exponent then ds ++ zeros d.exponent.toNat ++ ['.', '0']
  else if 0 < point then ds.take point.toNat ++ '.' :: ds.drop point.toNat
  else '0' :: '.' :: zeros (-point).toNat ++ ds

/-- One digit before the point and a signed power of ten. -/
def scientific (d : Decimal) : List Char :=
  let ds := digitChars d.digits
  let power : Int := ds.length + d.exponent - 1
  let mantissa := match ds with
    | first :: [] => [first]
    | first :: rest => first :: '.' :: rest
    | [] => []
  mantissa ++ 'e' :: (if power < 0 then '-' else '+') :: digitChars power.natAbs

def write (layout : Layout) (d : Decimal) : List Char :=
  let power : Int := (digitChars d.digits).length + d.exponent - 1
  if layout.least ≤ power ∧ power ≤ layout.most then d.positional else d.scientific

end Decimal

namespace Binary64

def write (layout : Decimal.Layout) (a : Binary64) : List Char :=
  (if a.negative then ['-'] else []) ++ a.shortest.write layout

def writePositional (a : Binary64) : List Char :=
  (if a.negative then ['-'] else []) ++ a.shortest.positional

end Binary64
end BundleMerge
