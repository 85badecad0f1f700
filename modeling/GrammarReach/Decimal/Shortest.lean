import GrammarReach.Decimal.Binary64

/-!
The shortest decimal text that reads back as a given number.

For each count of digits in turn, the two neighbours of the number on the decimal grid of that count
are tried; the first grid with a neighbour that reads back wins, and of two such neighbours the
nearer one.
-/

namespace GrammarReach.Decimal

/-- Decimal digits, read as a whole number, and the power of ten that they count. -/
structure Digits where
  digits : Nat
  scale : Int

namespace Digits

/-- The power of ten of the leading digit of a positive quotient. -/
def leadingScale (numerator denominator : Nat) : Int :=
  if denominator ≤ numerator then (digitCount (numerator / denominator) : Int) - 1
  else -(digitCount ((denominator - 1) / numerator) : Int)

/-- A neighbour of a positive finite number on the grid of `count` digits that reads back as the
number; of two, the nearer one, and of two at one distance the even one. -/
def onGrid? (significand : Nat) (exponent : Int) (count : Nat) : Option Digits :=
  let (numerator, denominator) := Binary64.ratio significand exponent
  let scale := leadingScale numerator denominator - count + 1
  let top := numerator * Nat.pow 10 (-scale).toNat
  let bottom := denominator * Nat.pow 10 scale.toNat
  let nearest := roundHalfEven top bottom
  let other := if nearest = top / bottom then nearest + 1 else top / bottom
  let readsBack (digits : Nat) : Bool :=
    Binary64.ofDecimal false digits scale == .finite false significand exponent
  if readsBack nearest then some ⟨nearest, scale⟩
  else if readsBack other then some ⟨other, scale⟩
  else none

/-- The fewest digits that read back as a positive finite number; seventeen always do. -/
def ofFinite (significand : Nat) (exponent : Int) : Digits :=
  ((List.range 17).findSome? fun count => onGrid? significand exponent (count + 1)).getD
    ⟨significand, exponent⟩

/-- The digits without trailing zeros. -/
def trimmed (digits : Digits) : Digits :=
  let text := Nat.toDigits 10 digits.digits
  let zeros := (text.reverse.takeWhile (· == '0')).length
  ⟨digits.digits / Nat.pow 10 zeros, digits.scale + zeros⟩

end Digits

/-- The text of digits: positional from 10^-5 up to below 10^16, and always with a point there;
otherwise one digit before the point and a power of ten behind an `e`. -/
def Digits.render (digits : Digits) : String :=
  let text := toString digits.digits
  let point : Int := text.length + digits.scale
  let zeros (count : Int) : String := "".pushn '0' count.toNat
  if 0 ≤ digits.scale ∧ point ≤ 16 then text ++ zeros digits.scale ++ ".0"
  else if 0 < point ∧ point ≤ 16 then
    String.ofList (text.toList.take point.toNat) ++ "." ++
      String.ofList (text.toList.drop point.toNat)
  else if -5 < point ∧ point ≤ 0 then "0." ++ zeros (-point) ++ text
  else
    let first := String.ofList (text.toList.take 1)
    let rest := String.ofList (text.toList.drop 1)
    first ++ (if rest.isEmpty then "" else "." ++ rest) ++ "e" ++ toString (point - 1)

/-- The shortest text that reads back as a finite number; nothing for the others. -/
def Binary64.shortest? : Binary64 → Option String
  | .finite negative significand exponent =>
    let sign := if negative then "-" else ""
    if significand = 0 then some (sign ++ "0.0")
    else some (sign ++ (Digits.ofFinite significand exponent).trimmed.render)
  | _ => none

end GrammarReach.Decimal
