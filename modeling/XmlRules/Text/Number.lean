namespace XmlRules.Text

inductive NumberFault where
  | empty
  | badDigit
  | tooLarge
deriving DecidableEq, Repr

def NumberFault.message : NumberFault → String
  | .empty => "cannot parse integer from empty string"
  | .badDigit => "invalid digit found in string"
  | .tooLarge => "number too large to fit in target type"

def digitValue? (base : Nat) (c : Char) : Option Nat :=
  let value :=
    if '0' ≤ c ∧ c ≤ '9' then c.toNat - '0'.toNat
    else if 'a' ≤ c ∧ c ≤ 'z' then c.toNat - 'a'.toNat + 10
    else if 'A' ≤ c ∧ c ≤ 'Z' then c.toNat - 'A'.toNat + 10
    else base
  if value < base then some value else none

-- Read from the left; the first digit that is bad or takes the value to `limit` decides.
def readDigits (base limit : Nat) (value : Nat) : List Char → Except NumberFault Nat
  | [] => .ok value
  | c :: cs =>
    match digitValue? base c with
    | none => .error .badDigit
    | some digit =>
      let next := value * base + digit
      if next < limit then readDigits base limit next cs else .error .tooLarge

def readNumber (base limit : Nat) : List Char → Except NumberFault Nat
  | [] => .error .empty
  | ['+'] => .error .badDigit
  | '+' :: cs => readDigits base limit 0 cs
  | cs => readDigits base limit 0 cs

def wordLimit : Nat := 0x100000000

def scalar? (n : Nat) : Option Char :=
  if n < 0xD800 ∨ (0xDFFF < n ∧ n < 0x110000) then some (Char.ofNat n) else none

end XmlRules.Text
