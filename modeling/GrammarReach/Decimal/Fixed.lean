import GrammarReach.Decimal.Binary64

namespace GrammarReach.Decimal

/-- A whole number of units of the last place, with a point before the last `places` digits. -/
def pointed (units places : Nat) : String :=
  let digits := toString (units % Nat.pow 10 places)
  let fraction := "".pushn '0' (places - digits.length) ++ digits
  toString (units / Nat.pow 10 places) ++ "." ++ fraction

/-- The number with two places, rounded from its exact value, a half going to the even neighbour. A
minus sign is kept even before zero. -/
def Binary64.twoPlaces : Binary64 → String
  | .nan => "NaN"
  | .infinite negative => if negative then "-inf" else "inf"
  | .finite negative significand exponent =>
    let (numerator, denominator) := Binary64.ratio significand exponent
    (if negative then "-" else "") ++ pointed (roundHalfEven (100 * numerator) denominator) 2

end GrammarReach.Decimal
