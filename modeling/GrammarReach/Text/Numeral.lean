namespace GrammarReach.Text

/-- The number of node numbers and indices: they fit in 32 bits. -/
def wordBound : Nat := Nat.pow 2 32

/-- The number of counter values: they fit in 64 bits. -/
def longBound : Nat := Nat.pow 2 64

/-- The value of a digit of the given base, letters of either case standing for ten and above. -/
def digitValue? (base : Nat) (c : Char) : Option Nat :=
  let value? :=
    if '0' ≤ c ∧ c ≤ '9' then some (c.toNat - '0'.toNat)
    else if 'a' ≤ c ∧ c ≤ 'z' then some (c.toNat - 'a'.toNat + 10)
    else if 'A' ≤ c ∧ c ≤ 'Z' then some (c.toNat - 'A'.toNat + 10)
    else none
  value?.filter (· < base)

/-- The value of a run of digits, the most significant one first, above `high`. -/
def digitsValue? (base high : Nat) : List Char → Option Nat
  | [] => some high
  | c :: rest => do digitsValue? base (high * base + (← digitValue? base c)) rest

/-- Reads a numeral of one digit or more and refuses a value at or above the bound. -/
def numeral? (base bound : Nat) (digits : List Char) : Option Nat :=
  if digits.isEmpty then none else (digitsValue? base 0 digits).filter (· < bound)

/-- Reads a decimal numeral, which may follow a plus sign, below the bound. -/
def natural? (bound : Nat) (text : String) : Option Nat :=
  match text.toList with
  | '+' :: digits => numeral? 10 bound digits
  | digits => numeral? 10 bound digits

end GrammarReach.Text
