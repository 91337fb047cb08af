import ScriptMachine.Machine.Stats
import ScriptMachine.Program
import ScriptMachine.Storage
import ScriptMachine.Value.Index

/-!
The state of a running program. Frames share one operand stack: a frame's locals start at its base
and its operands follow them. Guards are the try constructs that are open, and a pending completion
is what goes on when a finally block reaches its end.
-/

namespace ScriptMachine
namespace Machine

structure Limits where
  maxFrames : Nat := 256
  maxStack : Nat := 65536
  collectStats : Bool := false

/-- What outlasts an execution. -/
structure World where
  heap : Heap := {}
  /-- The globals of the program, `none` while unset. -/
  globals : Array (Option Value) := #[]
  /-- The input that has not been read. -/
  input : Text := []
  /-- The text printed so far. -/
  output : Array UInt8 := #[]
  files : Storage := {}
deriving DecidableEq, Inhabited

structure Frame where
  function : Nat
  /-- The address of the next instruction. -/
  ip : Nat
  /-- The place of local slot 0 in the operand stack. -/
  base : Nat
deriving DecidableEq, Inhabited

inductive Phase where
  | body
  | handling
deriving DecidableEq

/-- An open try construct: where its frame stands among the frames, and how much of the operand
stack and of the pending completions there was when it was entered. -/
structure Guard where
  table : Nat
  frame : Nat
  stackSize : Nat
  pendingSize : Nat
  phase : Phase
deriving DecidableEq

inductive Completion where
  | jump (target : Nat)
  | rethrow (e : ScriptError)
  | result (v : Value)
deriving DecidableEq

structure Pending where
  frame : Nat
  completion : Completion
deriving DecidableEq

structure State where
  stack : Array Value
  /-- The frame that is executing. -/
  frame : Frame
  /-- The frames that wait for it, outermost first. -/
  callers : Array Frame
  /-- The open try constructs, innermost first. -/
  guards : List Guard
  pending : Array Pending
  world : World
  stats : Option Stats
deriving DecidableEq

inductive Outcome where
  | returned (v : Value)
  | failed (e : ScriptError)
deriving DecidableEq

structure Finished where
  outcome : Outcome
  world : World
  stats : Option Stats
deriving DecidableEq

inductive Progress where
  | next (s : State)
  | done (f : Finished)
deriving DecidableEq

/-- Exactly `n` elements: the first ones, followed by `fill` where there are too few. -/
def resize (xs : Array α) (n : Nat) (fill : α) : Array α :=
  if n ≤ xs.size then xs.shrink n else xs ++ Array.replicate (n - xs.size) fill

namespace State

/-- The position of the executing frame among the frames. -/
def depth (s : State) : Nat := s.callers.size

def push (s : State) (v : Value) : State := { s with stack := s.stack.push v }

def pop? (s : State) : Option (Value × State) :=
  match s.stack.back? with
  | some v => some (v, { s with stack := s.stack.pop })
  | none => none

def jump (s : State) (target : Nat) : State := { s with frame := { s.frame with ip := target } }

def setHeap (s : State) (h : Heap) : State := { s with world := { s.world with heap := h } }

def pushNew (s : State) (alloc : Heap → Value × Heap) : State :=
  let (v, heap) := alloc s.world.heap
  { s with stack := s.stack.push v, world := { s.world with heap } }

def print (s : State) (t : Text) : State :=
  { s with world := { s.world with output := s.world.output ++ t } }

def finish (s : State) (outcome : Outcome) : Progress := .done ⟨outcome, s.world, s.stats⟩

def backTo? (s : State) (position : Nat) : Option State :=
  if position = s.callers.size then some s
  else
    match s.callers[position]? with
    | some frame => some { s with frame, callers := s.callers.shrink position }
    | none => none

def fetched (s : State) (op : Opcode) : State :=
  { s with
    frame := { s.frame with ip := s.frame.ip + 1 }
    stats := s.stats.map fun stats => stats.countInstruction op s.stack.size }

def frames (s : State) : List Frame := s.frame :: s.callers.toList.reverse

end State

/-- The first line of a text without its newline, and what follows it. -/
def firstLine (input : Text) : Text × Text :=
  (input.takeWhile (· ≠ 0x0a), (input.dropWhile (· ≠ 0x0a)).drop 1)

end Machine
end ScriptMachine
