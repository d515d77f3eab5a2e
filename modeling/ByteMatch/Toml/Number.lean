import ByteMatch.Toml.Value
import ByteMatch.Toml.Text

/-!
# ByteMatch.Toml.Number

Numbers and dates.

Integers are words of 64 bits with a sign. A positive number with a fraction or an exponent must
not be too large for a floating-point number of 64 bits.

* `Reader.integer`, `Reader.float`, `Reader.dateTime`: numbers and dates.
-/

namespace ByteMatch
namespace Toml
namespace Reader

/-! ## Digits -/

/-- The digits after the first one, with single underscores between them. -/
def moreDigits (p : Char → Bool) : Reader (List Char) :=
  many (satisfy p <|> (char '_' *> satisfy p))

/-- Digits with single underscores between them. -/
def digitRun (p : Char → Bool) : Reader (List Char) := do
  let first ← satisfy p
  let more ← moreDigits p
  pure (first :: more)

def digitValue (c : Char) : Nat :=
  if c.isDigit then c.toNat - '0'.toNat else c.toLower.toNat - 'a'.toNat + 10

def ofDigits (base : Nat) (digits : List Char) : Nat :=
  digits.foldl (fun n c => base * n + digitValue c) 0

/-- Whether a sign says that a number is negative. -/
def sign : Reader Bool := do
  match ← optional (satisfy fun c => c == '+' || c == '-') with
  | some '-' => pure true
  | _ => pure false

/-- The digits of a number in base ten without leading zeros. -/
def decimalDigits : Reader (List Char) :=
  (do
    let first ← satisfy fun c => c.isDigit && c != '0'
    let more ← moreDigits Char.isDigit
    pure (first :: more)) <|>
  (do return [← satisfy Char.isDigit])

/-! ## Integers -/

/-- A number in a base that its first two characters tell. -/
def inBase (start : String) (base : Nat) (p : Char → Bool) : Reader Int := do
  text start
  return ofDigits base (← digitRun p)

def decimal : Reader Int := do
  let negative ← sign
  let n : Int := ofDigits 10 (← decimalDigits)
  pure (if negative then -n else n)

def integer : Reader Int := do
  let n ←
    inBase "0x" 16 (fun c => c.isDigit || ('a' ≤ c.toLower && c.toLower ≤ 'f')) <|>
    inBase "0o" 8 (fun c => '0' ≤ c && c ≤ '7') <|>
    inBase "0b" 2 (fun c => c == '0' || c == '1') <|>
    decimal
  if -0x8000000000000000 ≤ n ∧ n < 0x8000000000000000 then pure n else failure

/-! ## Floating-point numbers -/

/-- Whether `digits * 10 ^ exponent` is rounded to infinity as a floating-point number of 64 bits.
The bound lies halfway between the largest such number and the next power of two. -/
def overflows (digits : Nat) (exponent : Int) : Bool :=
  let bound := Nat.pow 2 1024 - Nat.pow 2 970
  let width : Int := (Nat.toDigits 10 digits).length + exponent
  if digits = 0 ∨ width < 309 then false
  else if 309 < width then true
  else if 0 ≤ exponent then bound ≤ digits * Nat.pow 10 exponent.toNat
  else bound * Nat.pow 10 (-exponent).toNat ≤ digits

def fraction : Reader (List Char) := do
  char '.'
  digitRun Char.isDigit

def exponent : Reader Int := do
  let _ ← satisfy fun c => c == 'e' || c == 'E'
  let negative ← sign
  let n : Int := ofDigits 10 (← digitRun Char.isDigit)
  pure (if negative then -n else n)

/-- A number with a fraction or an exponent. -/
def fractional : Reader Unit := do
  let negative ← sign
  let whole ← decimalDigits
  let (part, power) ←
    (do
      let power ← exponent
      pure ([], power)) <|>
    (do
      let part ← fraction
      let power ← optional exponent
      pure (part, power.getD 0))
  if !negative && overflows (ofDigits 10 (whole ++ part)) (power - part.length) then failure

/-- A floating-point number, as it is written. -/
def float : Reader String := do
  let (_, written) ← withText
    (fractional <|>
      (do
        let _ ← sign
        text "inf" <|> text "nan"))
  pure written

/-! ## Dates -/

def digits : Nat → Nat → Reader Nat
  | 0, value => pure value
  | count + 1, value => do
    digits count (10 * value + digitValue (← satisfy Char.isDigit))

/-- A number with two digits and bounds. -/
def twoDigits (least most : Nat) : Reader Nat := do
  let n ← digits 2 0
  if least ≤ n ∧ n ≤ most then pure n else failure

def daysOf (year month : Nat) : Nat :=
  match month with
  | 2 => if year % 4 = 0 ∧ (year % 100 ≠ 0 ∨ year % 400 = 0) then 29 else 28
  | 4 | 6 | 9 | 11 => 30
  | _ => 31

def date : Reader Unit := do
  let year ← digits 4 0
  char '-'
  let month ← twoDigits 1 12
  char '-'
  let _ ← twoDigits 1 (daysOf year month)

def time : Reader Unit := do
  let _ ← twoDigits 0 23
  char ':'
  let _ ← twoDigits 0 59
  char ':'
  let _ ← twoDigits 0 60
  let _ ← optional do
    char '.'
    many1 (satisfy Char.isDigit)

def offset : Reader Unit :=
  (do
    let _ ← satisfy fun c => c == 'Z' || c == 'z') <|>
  (do
    let _ ← satisfy fun c => c == '+' || c == '-'
    let _ ← twoDigits 0 23
    char ':'
    let _ ← twoDigits 0 59)

def timeOfDay : Reader Unit := do
  let _ ← satisfy fun c => c == 'T' || c == 't' || c == ' '
  time
  let _ ← optional offset

/-- A date, a time or both, as it is written. -/
def dateTime : Reader String := do
  let (_, written) ← withText
    ((do
      date
      let _ ← optional timeOfDay) <|>
    time)
  pure written

end Reader
end Toml
end ByteMatch
