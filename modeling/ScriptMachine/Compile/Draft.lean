import ScriptMachine.Compile.Error
import ScriptMachine.Program

namespace ScriptMachine
namespace Compile

structure Draft where
  constants : Array Constant := #[]
  globals : Array Text := #[]
  /-- The local names of the current function, in the order of their slots. -/
  locals : List Text := []
  counters : Nat := 0
  tables : Nat := 0

abbrev Build := StateT Draft (Except CompileError)

/-- Where the code to be generated stands. -/
structure Context where
  /-- The current function; the main program keeps its variables in globals. -/
  function : Text
  isMain : Bool
  functions : Array Function
  knownGlobals : List Text
  /-- Inside a block, where no function can be defined. -/
  nested : Bool := false
  /-- The open try constructs and finally blocks. -/
  tries : Nat := 0
  cleanups : Nat := 0
  /-- The open try constructs and finally blocks when the innermost loop was entered. -/
  loop : Option (Nat × Nat) := none
  line : UInt32 := 0

def fail (e : CompileError) : Build α := fun _ => .error e

def operand (n : Nat) (what : Text) : Build (BitVec 24) :=
  if n ≤ maxOperand then return BitVec.ofNat 24 n else fail (.tooMany what)

def address (n : Nat) : Build (BitVec 24) := operand n "instructions"

def constantIndex (c : Constant) : Build (BitVec 24) := do
  let draft ← get
  match draft.constants.findIdx? (· == c) with
  | some i => return BitVec.ofNat 24 i
  | none =>
    let index ← operand draft.constants.size "constants"
    set { draft with constants := draft.constants.push c }
    return index

def globalIndex (name : Text) : Build (BitVec 24) := do
  let draft ← get
  match draft.globals.findIdx? (· == name) with
  | some i => return BitVec.ofNat 24 i
  | none =>
    let index ← operand draft.globals.size "global names"
    set { draft with globals := draft.globals.push name }
    return index

def localSlot (cx : Context) (name : Text) : Build (BitVec 24) := do
  let draft ← get
  match draft.locals.findIdx? (· == name) with
  | some i => return BitVec.ofNat 24 i
  | none =>
    if draft.locals.length < maxLocals then
      set { draft with locals := draft.locals ++ [name] }
      return BitVec.ofNat 24 draft.locals.length
    else fail (.tooManyLocals cx.function)

/-- The slot of a new loop counter, under a name that scripts do not spell. -/
def counterSlot (cx : Context) : Build (BitVec 24) := do
  let n := (← get).counters
  modify fun draft => { draft with counters := n + 1 }
  localSlot cx (Text.concat ["$repeat", Text.decimal n])

def tableIndex : Build (BitVec 24) := do
  let n := (← get).tables
  let index ← operand n "try blocks"
  modify fun draft => { draft with tables := n + 1 }
  return index

/-- Stores the top of the stack in a variable: the main program writes globals, a function writes
its locals unless the name is a known global only. -/
def store (cx : Context) (name : Text) : Build Instruction := do
  let isLocal := (← get).locals.contains name
  if cx.isMain || (!isLocal && cx.knownGlobals.contains name) then
    return .of .storeGlobal (← globalIndex name)
  else return .of .storeLocal (← localSlot cx name)

def load (cx : Context) (name : Text) : Build Instruction := do
  match (← get).locals.findIdx? (· == name) with
  | some slot => return .of .loadLocal (BitVec.ofNat 24 slot)
  | none =>
    if cx.knownGlobals.contains name then return .of .loadGlobal (← globalIndex name)
    else fail (.undefinedReference name)

/-- The index of a function that takes the given number of arguments. -/
def callee (cx : Context) (name : Text) (given : Nat) : Build (BitVec 24) := do
  match cx.functions.findIdx? (·.name == name) with
  | none => fail (.undefinedReference name)
  | some i =>
    let f := cx.functions.getD i default
    if f.arity < given then fail (.tooManyArguments name f.arity given)
    else if given < f.requiredArity then fail (.tooFewArguments name f.requiredArity given)
    else return BitVec.ofNat 24 (i + 1)

end Compile
end ScriptMachine
