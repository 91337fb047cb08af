import ScriptMachine.Number.Basic

namespace ScriptMachine

/-- The integer nearest to `num / den`, the even one of two. -/
def roundQuotient (num den : Nat) : Nat :=
  let low := num / den
  let rest := num % den
  if 2 * rest < den then low
  else if den < 2 * rest then low + 1
  else low + low % 2

/-- The fraction `num / den * base ^ power`, for any sign of `power`. -/
def scaleFraction (base : Nat) (power : Int) (num den : Nat) : Nat × Nat :=
  if 0 ≤ power then (num * base ^ power.toNat, den) else (num, den * base ^ (-power).toNat)

namespace Number

/-- The exponent of the last mantissa bit that the size of `num / den` asks for. -/
def exponentFor (num den : Nat) : Int :=
  let guess : Int := (num.log2 : Int) - den.log2
  let (n, d) := scaleFraction 2 (-guess) num den
  max (-1074) (if d ≤ n then guess - 52 else guess - 53)

/-- The number nearest to `num / den`, which is an infinity beyond the largest finite number. -/
def ofQuotient (negative : Bool) (num den : Nat) : Number :=
  let size :=
    if num = 0 then 0
    else
      let e := exponentFor num den
      let (n, d) := scaleFraction 2 (-e) num den
      min topMagnitude ((e + 1074).toNat * 2 ^ 52 + roundQuotient n d)
  ⟨(size + if negative then 2 ^ 63 else 0).toUInt64⟩

def ofNat (n : Nat) : Number := ofQuotient false n 1

def ofInt (i : Int) : Number := ofQuotient (i < 0) i.natAbs 1

end Number
end ScriptMachine
