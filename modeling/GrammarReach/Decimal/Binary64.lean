import GrammarReach.Decimal.Rounding
import GrammarReach.Text.Numeral

/-!
Binary floating-point numbers of 64 bits, held exactly.

A finite number is a whole significand below 2^53 times a power of two. Decimal text is read to the
nearest such number, halfway cases going to the even significand.
-/

namespace GrammarReach.Decimal

/-- A floating-point number: not a number, an infinity, or `± significand · 2 ^ exponent`. -/
inductive Binary64 where
  | nan
  | infinite (negative : Bool)
  | finite (negative : Bool) (significand : Nat) (exponent : Int)
deriving DecidableEq

namespace Binary64

def leastExponent : Int := -1074

def greatestExponent : Int := 971

def zero : Binary64 := .finite false 0 leastExponent

instance : Inhabited Binary64 := ⟨zero⟩

/-- A numerator and a denominator of `significand · 2 ^ exponent`. -/
def ratio (significand : Nat) (exponent : Int) : Nat × Nat :=
  (significand * Nat.pow 2 exponent.toNat, Nat.pow 2 (-exponent).toNat)

/-- The number nearest to `± numerator / denominator`. -/
def ofRatio (negative : Bool) (numerator denominator : Nat) : Binary64 :=
  if numerator = 0 then .finite negative 0 leastExponent
  else
    let guess : Int := numerator.log2 - denominator.log2 - 52
    let scaled (exponent : Int) : Nat × Nat :=
      (numerator * Nat.pow 2 (-exponent).toNat, denominator * Nat.pow 2 exponent.toNat)
    let (top, bottom) := scaled guess
    let exponent := max leastExponent (if top / bottom < Nat.pow 2 52 then guess - 1 else guess)
    let (top, bottom) := scaled exponent
    let significand := roundHalfEven top bottom
    let (significand, exponent) :=
      if significand = Nat.pow 2 53 then (Nat.pow 2 52, exponent + 1) else (significand, exponent)
    if greatestExponent < exponent then .infinite negative
    else .finite negative significand exponent

/-- The number nearest to `± digits · 10 ^ scale`. Scales that can only give zero or an infinity are
cut short before any power is taken. -/
def ofDecimal (negative : Bool) (digits : Nat) (scale : Int) : Binary64 :=
  let magnitude := scale + digitCount digits
  if digits = 0 ∨ magnitude < -330 then .finite negative 0 leastExponent
  else if 330 < magnitude then .infinite negative
  else ofRatio negative (digits * Nat.pow 10 scale.toNat) (Nat.pow 10 (-scale).toNat)

/-- Reads a scale: an optional sign and at least one digit. -/
def scale? (text : List Char) : Option Int :=
  let read (digits : List Char) : Option Nat :=
    if digits.isEmpty then none else Text.digitsValue? 10 0 digits
  match text with
  | '-' :: digits => (read digits).map fun value => -(value : Int)
  | '+' :: digits => (read digits).map Int.ofNat
  | digits => (read digits).map Int.ofNat

/-- Reads digits with at most one point among them, at least one digit, and an optional scale. -/
def decimal? (negative : Bool) (text : List Char) : Option Binary64 := do
  let isScaleMark (c : Char) : Bool := c == 'e' || c == 'E'
  let body := text.takeWhile (!isScaleMark ·)
  let scale ← match text.dropWhile (!isScaleMark ·) with
    | [] => some 0
    | _ :: rest => scale? rest
  let whole := body.takeWhile (· != '.')
  let fraction := (body.dropWhile (· != '.')).tail
  if whole.isEmpty && fraction.isEmpty then none
  else
    let digits ← Text.digitsValue? 10 0 (whole ++ fraction)
    return ofDecimal negative digits (scale - fraction.length)

/-- Reads a number: an optional sign, then the word for an infinity or for no number, in letters of
either case, or a decimal. -/
def parse? (text : String) : Option Binary64 :=
  let read (negative : Bool) (body : List Char) : Option Binary64 :=
    match String.ofList (body.map Char.toLower) with
    | "inf" | "infinity" => some (.infinite negative)
    | "nan" => some .nan
    | _ => decimal? negative body
  match text.toList with
  | '-' :: body => read true body
  | '+' :: body => read false body
  | body => read false body

end Binary64

end GrammarReach.Decimal
