import ScriptMachine.Number.Rounding

namespace ScriptMachine
namespace Number

def toFloat (x : Number) : Float := Float.ofBits x.bits

def ofFloat (f : Float) : Number := ⟨f.toBits⟩

def add (x y : Number) : Number := ofFloat (x.toFloat + y.toFloat)

def sub (x y : Number) : Number := ofFloat (x.toFloat - y.toFloat)

def mul (x y : Number) : Number := ofFloat (x.toFloat * y.toFloat)

def div (x y : Number) : Number := ofFloat (x.toFloat / y.toFloat)

/-- What is left of `x` after taking away `y` as often as it fits; the sign is that of `x`. -/
def rem (x y : Number) : Number :=
  if x.isNaN || y.isNaN || x.isInfinite || y.isZero then nan
  else if y.isInfinite then x
  else
    let low := min x.scale y.scale
    let left := x.mantissa * 2 ^ (x.scale - low).toNat % (y.mantissa * 2 ^ (y.scale - low).toNat)
    let (num, den) := scaleFraction 2 low left 1
    ofQuotient x.negative num den

end Number
end ScriptMachine
