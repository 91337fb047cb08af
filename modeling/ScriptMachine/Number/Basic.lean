import ScriptMachine.Text

namespace ScriptMachine

-- Powers and sums of naturals are the core ones, whatever else a module imports.
attribute [scoped instance (high)] instPowNat Zero.ofOfNat0
attribute [default_instance high + 1] instPowNat

structure Number where
  bits : UInt64
deriving DecidableEq, Inhabited

namespace Number

def zero : Number := ⟨0⟩

def one : Number := ⟨0x3ff0000000000000⟩

def nan : Number := ⟨0x7ff8000000000000⟩

def negative (x : Number) : Bool := x.bits >>> 63 != 0

/-- The pattern without its sign bit; among numbers that are not NaN it grows with `|x|`. -/
def magnitude (x : Number) : Nat := (x.bits &&& 0x7fffffffffffffff).toNat

/-- The magnitude of the infinities, above every finite one. -/
def topMagnitude : Nat := 0x7ff0000000000000

def isNaN (x : Number) : Bool := topMagnitude < x.magnitude

def isInfinite (x : Number) : Bool := x.magnitude == topMagnitude

def isFinite (x : Number) : Bool := x.magnitude < topMagnitude

def isZero (x : Number) : Bool := x.magnitude == 0

def mantissa (x : Number) : Nat :=
  if x.magnitude < 2 ^ 52 then x.magnitude else x.magnitude % 2 ^ 52 + 2 ^ 52

def scale (x : Number) : Int := (max (x.magnitude / 2 ^ 52) 1 : Nat) - 1075

def negate (x : Number) : Number := ⟨x.bits ^^^ 0x8000000000000000⟩

/-- The position of a number in the order of values; both zeros have position 0. -/
def rank (x : Number) : Int := if x.negative then -(x.magnitude : Int) else x.magnitude

/-- Equality of values: a NaN equals nothing and the two zeros are equal. -/
def equal (x y : Number) : Bool := !x.isNaN && !y.isNaN && x.rank == y.rank

/-- `none` when a NaN is involved. -/
def order? (x y : Number) : Option Ordering :=
  if x.isNaN || y.isNaN then none else some (compare x.rank y.rank)

/-- The integer that a finite number without fraction stands for. -/
def toInt? (x : Number) : Option Int :=
  if !x.isFinite then none
  else
    let size? : Option Nat :=
      if 0 ≤ x.scale then some (x.mantissa * 2 ^ x.scale.toNat)
      else if x.mantissa % 2 ^ (-x.scale).toNat = 0 then some (x.mantissa / 2 ^ (-x.scale).toNat)
      else none
    size?.map fun n => if x.negative then -(n : Int) else n

end Number
end ScriptMachine
