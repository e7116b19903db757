import Scaffold.Number.Binary64

/-! # The shortest decimal text of a number

Of the decimals that are rounded to a given number, the text shows one with the fewest digits, and of
those the nearest. Magnitudes from `10 ^ -4` up to `10 ^ 16` are written positionally.
-/

namespace Scaffold.Number.Binary64

/-- The power of ten of the first digit of a ratio that is not zero. -/
def decimalExponent (num den : Nat) : Int :=
  if den ≤ num then ((toString (num / den)).length : Int) - 1
  else
    let length := (toString (den / num)).length
    if den ≤ num * Nat.pow 10 (length - 1) then -((length : Int) - 1) else -(length : Int)

/-- Whether `digits * 10 ^ scale` is rounded to `significand * 2 ^ exponent`. The two numbers halfway
to the neighbours go to an even significand. -/
def readsBack (significand : Nat) (exponent : Int) (digits : Nat) (scale : Int) : Bool :=
  let (num, den) := if 0 ≤ scale then (digits * Nat.pow 10 scale.toNat, 1) else (digits, Nat.pow 10 (-scale).toNat)
  -- in quarters of the last place
  let (top, bottom) := scaled num den (2 - exponent)
  let narrow := significand = Nat.pow 2 52 && minExponent < exponent
  let low := (if narrow then 4 * significand - 1 else 4 * significand - 2) * bottom
  let high := (4 * significand + 2) * bottom
  if significand % 2 = 0 then low ≤ top && top ≤ high else low < top && top < high

/-- The decimal with a given number of digits that is nearest to a number, if it is rounded to it. -/
def decimalWith (significand : Nat) (exponent : Int) (count : Nat) : Option (Nat × Int) :=
  let (num, den) := magnitude significand exponent
  let scale := decimalExponent num den - (count : Int) + 1
  let (top, bottom) := if 0 ≤ scale then (num, den * Nat.pow 10 scale.toNat)
    else (num * Nat.pow 10 (-scale).toNat, den)
  let floor := top / bottom
  let nearest := roundedQuotient top bottom
  let other := if nearest = floor then floor + 1 else floor
  if readsBack significand exponent nearest scale then some (nearest, scale)
  else if readsBack significand exponent other scale then some (other, scale)
  else none

/-- A decimal without zeros at its end; `fuel` bounds their number. -/
def trimZeros : Nat → Nat → Int → Nat × Int
  | 0, digits, scale => (digits, scale)
  | fuel + 1, digits, scale =>
    if digits ≠ 0 && digits % 10 = 0 then trimZeros fuel (digits / 10) (scale + 1) else (digits, scale)

/-- The shortest decimal that is rounded to a number other than zero. Seventeen digits always do. -/
def shortestDecimal (significand : Nat) (exponent : Int) : Nat × Int :=
  let found := ((List.range 17).map (· + 1)).findSome? (decimalWith significand exponent)
  let (digits, scale) := found.getD (0, 0)
  trimZeros 20 digits scale

/-- The text of `digits * 10 ^ scale`. -/
def decimalText (digits : Nat) (scale : Int) : String :=
  let shown := (toString digits).toList
  let exponent := (shown.length : Int) - 1 + scale
  if -4 ≤ exponent && exponent < 16 then
    if 0 ≤ scale then String.ofList (shown ++ List.replicate scale.toNat '0') ++ ".0"
    else if 0 ≤ exponent then
      String.ofList (shown.take (exponent.toNat + 1) ++ '.' :: shown.drop (exponent.toNat + 1))
    else String.ofList ("0.".toList ++ List.replicate ((-exponent).toNat - 1) '0' ++ shown)
  else
    let mantissa := match shown with
      | [] => []
      | [digit] => [digit]
      | digit :: others => digit :: '.' :: others
    let size := toString exponent.natAbs
    let padded := if size.length < 2 then "0" ++ size else size
    String.ofList mantissa ++ "e" ++ (if exponent < 0 then "-" else "+") ++ padded

/-- The text of a finite number without its sign. -/
def magnitudeText (significand : Nat) (exponent : Int) : String :=
  if significand = 0 then "0.0"
  else
    let (digits, scale) := shortestDecimal significand exponent
    decimalText digits scale

end Scaffold.Number.Binary64
