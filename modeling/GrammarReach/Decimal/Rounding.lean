namespace GrammarReach.Decimal

/-- The whole number nearest to `numerator / denominator`; halfway between two, the even one. -/
def roundHalfEven (numerator denominator : Nat) : Nat :=
  let below := numerator / denominator
  let rest := 2 * (numerator % denominator)
  if rest < denominator then below
  else if denominator < rest then below + 1
  else if below % 2 = 0 then below
  else below + 1

def digitCount (number : Nat) : Nat := (Nat.toDigits 10 number).length

end GrammarReach.Decimal
