import ScriptMachine.Text

namespace ScriptMachine
namespace Image

/-- The lowest `width` bytes of a natural number. -/
def littleEndian : Nat → Nat → Text
  | 0, _ => []
  | width + 1, n => (n % 256).toUInt8 :: littleEndian width (n / 256)

def ofLittleEndian : Text → Nat
  | [] => 0
  | b :: rest => b.toNat + 256 * ofLittleEndian rest

@[simp] theorem length_littleEndian (width n : Nat) : (littleEndian width n).length = width := by
  induction width generalizing n with
  | zero => rfl
  | succ width ih => simp [littleEndian, ih]

/-- The bytes every image starts with. -/
def magic : Text := "POHC"

end Image
end ScriptMachine
