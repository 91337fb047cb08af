import ScriptMachine.Instruction
import ScriptMachine.Number.Arithmetic

namespace ScriptMachine

structure Stats where
  instructions : Nat := 0
  /-- How often each operation was executed, in the order of the operation codes. -/
  counts : Array Nat := Array.replicate Opcode.all.size 0
  calls : Nat := 0
  maxStack : Nat := 0
  maxFrames : Nat := 0
deriving DecidableEq, Inhabited

namespace Stats

def countInstruction (s : Stats) (op : Opcode) (stackSize : Nat) : Stats :=
  { s with
    instructions := s.instructions + 1
    counts := s.counts.modify op.ctorIdx (· + 1)
    maxStack := max s.maxStack stackSize }

def countCall (s : Stats) (frames : Nat) : Stats :=
  { s with calls := s.calls + 1, maxFrames := max s.maxFrames frames }

def count (s : Stats) (op : Opcode) : Nat := s.counts.getD op.ctorIdx 0

/-- The executed operations, most frequent first and otherwise in the order of their codes. -/
def ranking (s : Stats) : List Opcode :=
  let used := Opcode.all.toList.filter fun op => 0 < s.count op
  used.mergeSort fun a b => s.count b ≤ s.count a

/-- The share of an operation in per cent, with one decimal place. -/
def share (s : Stats) (op : Opcode) : Text :=
  let hundredfold := (Number.ofNat 100).mul (Number.ofNat (s.count op))
  (hundredfold.div (Number.ofNat s.instructions)).fixed 1

/-- Whole instructions per second, for an execution that took a positive number of nanoseconds; a
rate that does not fit 64 bits shows as 0. -/
def rate? (s : Stats) (nanoseconds : Int) : Option Nat :=
  if 0 < s.instructions ∧ 0 < nanoseconds then
    let seconds := (Number.ofInt nanoseconds).div (Number.ofNat 1000000000)
    let rate := (Number.ofNat s.instructions).div seconds
    let (num, den) := rate.fraction
    let whole := num / den
    some (if rate.isFinite ∧ whole < 2 ^ 64 then whole else 0)
  else none

def reportLine (label : Text) (value : Text) : Text := Text.concat [label, ": ", value, "\n"]

/-- The report on an execution that took the given time. -/
def report (s : Stats) (nanoseconds : Int) : Text :=
  let top := (s.ranking.take 10).map fun op =>
    Text.concat ["  ", Text.padRight 16 0x20 op.mnemonic, " ",
      Text.padLeft 8 0x20 (Text.decimal (s.count op)), " (", s.share op, "%)\n"]
  Text.concat [
    "=== VM Execution Statistics ===\n",
    reportLine "Total Instructions" (Text.decimal s.instructions),
    reportLine "Execution Time" (Text.integer (nanoseconds.tdiv 1000) ++ "us"),
    match s.rate? nanoseconds with
    | some rate => reportLine "Instructions/sec" (Text.decimal rate)
    | none => [],
    reportLine "Function Calls" (Text.decimal s.calls),
    reportLine "Max Stack Depth" (Text.decimal s.maxStack),
    reportLine "Max Frame Depth" (Text.decimal s.maxFrames),
    "Top Instructions:\n",
    Text.concat top]

end Stats
end ScriptMachine
