/-! Finite binary64 numbers as exact values: every one of them is a whole number of units of
2^-1074, with a sign. Arithmetic is done on exact ratios and rounded once, to the nearest number
and from halfway to the one with the even last bit. -/
namespace BundleMerge

/-- `units · 2^-1074`, negated if `negative`. -/
structure Binary64 where
  negative : Bool
  units : Nat
  deriving Repr, DecidableEq

namespace Binary64

/-- The weight of the last bit, in units, of a number with `u` units. -/
def lastBit (u : Nat) : Nat :=
  if u < Nat.pow 2 53 then 1 else Nat.pow 2 (u.log2 - 52)

/-- `num / den` rounded to a whole multiple of the last bit that it can have. -/
def roundRatio (num den : Nat) : Nat :=
  let step := den * lastBit (num / den)
  let whole := num / step
  let rest := num % step
  let up := 2 * rest > step || (2 * rest == step && whole % 2 == 1)
  (if up then whole + 1 else whole) * lastBit (num / den)

/-- What lies at or beyond 2^1024 is not finite. -/
def finite? (negative : Bool) (units : Nat) : Option Binary64 :=
  if units < Nat.pow 2 2098 then some ⟨negative, units⟩ else none

def ofRatio? (negative : Bool) (num den : Nat) : Option Binary64 :=
  finite? negative (roundRatio (num * Nat.pow 2 1074) den)

def mul? (a b : Binary64) : Option Binary64 :=
  finite? (a.negative != b.negative) (roundRatio (a.units * b.units) (Nat.pow 2 1074))

def div? (a b : Binary64) : Option Binary64 :=
  if b.units = 0 then none
  else finite? (a.negative != b.negative) (roundRatio (a.units * Nat.pow 2 1074) b.units)

def neg (a : Binary64) : Binary64 :=
  { a with negative := !a.negative }

def zero : Binary64 := ⟨false, 0⟩

def isZero (a : Binary64) : Bool :=
  a.units = 0

/-- Numerical equality; the two zeros are equal. -/
def sameAs (a b : Binary64) : Bool :=
  a.units = b.units && (a.units = 0 || a.negative = b.negative)

end Binary64
end BundleMerge
