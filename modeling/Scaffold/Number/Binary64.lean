/-! # Binary floating-point numbers

Numbers of the binary format of 64 bits as integers times powers of two. A ratio is rounded to the
nearest such number, and of two that are equally near to the one with the even significand. All the
arithmetic is exact.
-/

namespace Scaffold.Number

/-- A binary floating-point number of 64 bits. A finite one is `significand * 2 ^ exponent`. -/
inductive Binary64 where
  | finite (negative : Bool) (significand : Nat) (exponent : Int)
  | infinite (negative : Bool)
  | notANumber
  deriving DecidableEq, Repr, Inhabited

namespace Binary64

/-- The exponent of the smallest numbers. -/
def minExponent : Int := -1074

/-- The exponent of the largest numbers. -/
def maxExponent : Int := 971

/-- A ratio times a power of two, as a ratio. -/
def scaled (num den : Nat) (exponent : Int) : Nat × Nat :=
  if 0 ≤ exponent then (num * Nat.pow 2 exponent.toNat, den) else (num, den * Nat.pow 2 (-exponent).toNat)

/-- The quotient rounded to the nearest integer, a half to the even one. -/
def roundedQuotient (num den : Nat) : Nat :=
  let floor := num / den
  let twice := 2 * (num % den)
  if twice < den then floor
  else if den < twice then floor + 1
  else floor + floor % 2

/-- The exponent that gives a ratio a significand of 53 bits. -/
def fittingExponent (num den : Nat) : Int :=
  let guess : Int := (num.log2 : Int) - (den.log2 : Int) - 52
  let (top, bottom) := scaled num den (-guess)
  max minExponent (if top < bottom * Nat.pow 2 52 then guess - 1 else guess)

/-- The number nearest to a ratio. -/
def ofRatio (negative : Bool) (num den : Nat) : Binary64 :=
  if num = 0 then finite negative 0 minExponent
  else
    let exponent := fittingExponent num den
    let (top, bottom) := scaled num den (-exponent)
    let rounded := roundedQuotient top bottom
    let (significand, exponent) :=
      if rounded = Nat.pow 2 53 then (Nat.pow 2 52, exponent + 1) else (rounded, exponent)
    if maxExponent < exponent then infinite negative else finite negative significand exponent

/-- The number nearest to `digits * 10 ^ scale`. -/
def ofDecimal (negative : Bool) (digits : Nat) (scale : Int) : Binary64 :=
  let magnitude := (toString digits).length + scale
  if digits = 0 || magnitude < -400 then finite negative 0 minExponent
  else if 400 < magnitude then infinite negative
  else if 0 ≤ scale then ofRatio negative (digits * Nat.pow 10 scale.toNat) 1
  else ofRatio negative digits (Nat.pow 10 (-scale).toNat)

/-- The magnitude of a finite number as a ratio. -/
def magnitude (significand : Nat) (exponent : Int) : Nat × Nat := scaled significand 1 exponent

/-- The number nearest to an integer. -/
def ofInt (value : Int) : Binary64 := ofRatio (value < 0) value.natAbs 1

/-- The number after adding one. -/
def succ : Binary64 → Binary64
  | finite negative significand exponent =>
    let (num, den) := magnitude significand exponent
    if !negative then ofRatio false (num + den) den
    else if num ≤ den then ofRatio false (den - num) den
    else ofRatio true (num - den) den
  | other => other

/-- The integer that a number is, if it is one. -/
def toInt? : Binary64 → Option Int
  | finite negative significand exponent =>
    let (num, den) := magnitude significand exponent
    if num % den = 0 then some (if negative then -(num / den : Nat) else (num / den : Nat)) else none
  | _ => none

/-- The number with the opposite sign. -/
def neg : Binary64 → Binary64
  | finite negative significand exponent => finite (!negative) significand exponent
  | infinite negative => infinite (!negative)
  | notANumber => notANumber

end Binary64

end Scaffold.Number
