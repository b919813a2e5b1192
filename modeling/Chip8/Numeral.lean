/-!
# Numerals

Numbers are written in upper-case hexadecimal, filled with zeros to a least width (`hex`), and
those of single precision in decimal notation with three places (`thousandths`). They are read in
any base up to 36 (`read`). Reading goes from left to right and stops at the first fault: a
character that is no digit is reported before the size of the number is looked at, so `99z` is no
numeral while `256z`, read as a number up to 255, is too large.
-/

namespace Chip8.Numeral

/-! ## Writing -/

/-- The digits of `n` in base sixteen, letters in upper case, with zeros in front up to `width`. -/
def hex (width n : Nat) : String :=
  String.ofList (((Nat.toDigits 16 n).map Char.toUpper).leftpad width '0')

/-- The whole number nearest to `n / d`, and of two that are as near the even one. -/
def roundDiv (n d : Nat) : Nat :=
  let q := n / d
  let twice := 2 * (n % d)
  if d < twice ∨ d = twice ∧ q % 2 = 1 then q + 1 else q

/-- So many thousandths in decimal notation. -/
def ofThousandths (n : Nat) : String :=
  String.ofList (Nat.toDigits 10 (n / 1000) ++ '.' :: (Nat.toDigits 10 (n % 1000)).leftpad 3 '0')

/-- What is written before a number of the sign. -/
def signText : Float.Model.UnpackedFloat.Sign → String
  | .negative => "-"
  | .positive => ""

/-- A number of single precision with three decimal places. The exact value is rounded, and all
digits before the point are written. -/
def thousandths (x : Float32) : String :=
  match x.toModel.unpack with
  | .finite sign m e _ =>
    -- the size is `m` times the power `e` of two
    signText sign ++ ofThousandths (roundDiv ((1000 * m) <<< e.toNat) (1 <<< (-e).toNat))
  | .zero sign => signText sign ++ ofThousandths 0
  | .infinity sign => signText sign ++ "inf"
  | .notANumber => "NaN"

/-! ## Reading -/

/-- Why a text is not the numeral of an admissible number. -/
inductive ReadError where
  | empty
  /-- A character that is no digit of the base, or a sign alone. -/
  | invalidDigit
  | tooLarge
deriving DecidableEq, Repr

/-- The text shown for a numeral that was refused. -/
def ReadError.message : ReadError → String
  | .empty => "cannot parse integer from empty string"
  | .invalidDigit => "invalid digit found in string"
  | .tooLarge => "number too large to fit in target type"

/-- The value of an ASCII letter or digit as a digit; letters count from ten in either case. -/
def alphanumeric? (c : Char) : Option Nat :=
  if '0' ≤ c ∧ c ≤ '9' then some (c.toNat - '0'.toNat)
  else if 'a' ≤ c ∧ c ≤ 'z' then some (c.toNat - 'a'.toNat + 10)
  else if 'A' ≤ c ∧ c ≤ 'Z' then some (c.toNat - 'A'.toNat + 10)
  else none

def digit? (base : Nat) (c : Char) : Option Nat :=
  (alphanumeric? c).filter (· < base)

/-- Appends digits to the number `acc`, as long as it stays at most `limit`. -/
def readDigits (base limit acc : Nat) : List Char → Except ReadError Nat
  | [] => .ok acc
  | c :: cs =>
    match digit? base c with
    | none => .error .invalidDigit
    | some d =>
      if base * acc + d ≤ limit then readDigits base limit (base * acc + d) cs
      else .error .tooLarge

/-- Reads a number of at most `limit`: an optional plus sign, then one or more digits. -/
def read (base limit : Nat) : List Char → Except ReadError Nat
  | [] => .error .empty
  | ['+'] => .error .invalidDigit
  | '+' :: cs => readDigits base limit 0 cs
  | cs => readDigits base limit 0 cs

end Chip8.Numeral
