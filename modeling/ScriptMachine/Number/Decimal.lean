import ScriptMachine.Number.Rounding

namespace ScriptMachine

/-- The value `digits * 10 ^ exponent`. -/
structure Decimal where
  digits : Nat
  exponent : Int
deriving DecidableEq

namespace Decimal

def toNumber (negative : Bool) (d : Decimal) : Number :=
  let (num, den) := scaleFraction 10 d.exponent d.digits 1
  Number.ofQuotient negative num den

/-- The power of ten of the leading digit of `num / den`. -/
def leadingPower (num den : Nat) : Int :=
  let guess : Int := ((Text.decimal num).length : Int) - (Text.decimal den).length
  let (n, d) := scaleFraction 10 (-guess) num den
  if d ≤ n then guess else guess - 1

/-- The decimal of `precision` significant digits nearest to a positive `num / den`. -/
def ofQuotient (precision num den : Nat) : Decimal :=
  let last := leadingPower num den - precision + 1
  let (n, d) := scaleFraction 10 (-last) num den
  let digits := roundQuotient n d
  if digits = 10 ^ precision then ⟨10 ^ (precision - 1), last + 1⟩ else ⟨digits, last⟩

def dropTrailingZeros (t : Text) : Text := (t.reverse.dropWhile (· = 0x30)).reverse

/-- Digits with a point after the first `whole` of them, or none when nothing follows. -/
def withPoint (whole : Nat) (digits : Text) : Text :=
  if digits.length ≤ whole then digits ++ List.replicate (whole - digits.length) 0x30
  else digits.take whole ++ Text.concat [".", digits.drop whole]

/-- A decimal of `precision` digits without trailing zeros, positional or with an exponent of at
least two digits. -/
def layout (precision : Nat) (d : Decimal) : Text :=
  let power := d.exponent + precision - 1
  let digits := dropTrailingZeros (Text.decimal d.digits)
  if power < -4 ∨ (precision : Int) ≤ power then
    Text.concat [withPoint 1 digits, if power < 0 then "e-" else "e+",
      Text.padLeft 2 0x30 (Text.decimal power.natAbs)]
  else if power < 0 then
    Text.concat ["0.", List.replicate (power.natAbs - 1) 0x30, digits]
  else withPoint (power.toNat + 1) digits

end Decimal

namespace Number

def fraction (x : Number) : Nat × Nat := scaleFraction 2 x.scale x.mantissa 1

/-- The first precision from 15 to 17 at which the number reads back, else 17. -/
def significantDigits (x : Number) : Nat :=
  let readsBack (precision : Nat) : Bool :=
    let (num, den) := x.fraction
    ((Decimal.ofQuotient precision num den).toNumber x.negative).equal x
  if readsBack 15 then 15 else if readsBack 16 then 16 else 17

def scientific (x : Number) : Text :=
  let (num, den) := x.fraction
  let precision := x.significantDigits
  let text := Decimal.layout precision (Decimal.ofQuotient precision num den)
  if x.negative then 0x2d :: text else text

def format (x : Number) : Text :=
  if x.isNaN then "NaN"
  else if x.isInfinite then if x.negative then "-inf" else "inf"
  else
    match x.toInt? with
    | some i => if i.natAbs < 10 ^ 15 then Text.integer i else x.scientific
    | none => x.scientific

def fixed (places : Nat) (x : Number) : Text :=
  let sign : Text := if x.negative then "-" else ""
  if x.isNaN then sign ++ "nan"
  else if x.isInfinite then sign ++ "inf"
  else
    let (num, den) := x.fraction
    let digits := Text.padLeft (places + 1) 0x30
      (Text.decimal (roundQuotient (num * 10 ^ places) den))
    let whole := digits.length - places
    Text.concat [sign, Decimal.withPoint whole digits]

end Number
end ScriptMachine
