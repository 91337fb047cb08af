import ScriptMachine.Image.Bytes
import ScriptMachine.Verify.Basic

namespace ScriptMachine

inductive LoadError where
  | header
  | version (found : UInt32)
  | truncated (offset : Nat)
  | count (what : Text) (n : Nat)
  | booleanFlag (flag : UInt8)
  | constantTag (tag : UInt8)
  | parameters (function : Text)
  | handlerAddress (address : Nat)
  | opcode (code : UInt8) (index : Nat)
  | operand (index : Nat)
  | debugFlag (flag : UInt8)
  | trailing (bytes : Nat)
  | verification (e : VerifyError)
  | file (path : Text)
  | content (path : Text)
deriving DecidableEq

def LoadError.wording : LoadError → Text
  | header => "Invalid bytecode header"
  | version found =>
    Text.concat ["Unsupported bytecode version ", Text.decimal found.toNat, " (expected ",
      Text.decimal formatVersion.toNat, ")"]
  | truncated offset => Text.concat ["Truncated bytecode at offset ", Text.decimal offset]
  | count what n =>
    Text.concat ["Truncated bytecode: ", what, " count ", Text.decimal n,
      " exceeds remaining data"]
  | booleanFlag flag => Text.concat ["Invalid boolean constant ", Text.decimal flag.toNat]
  | constantTag tag => Text.concat ["Unknown constant tag ", Text.decimal tag.toNat]
  | parameters f => Text.concat ["Function '", f, "' declares too many parameters"]
  | handlerAddress address =>
    Text.concat ["Handler address ", Text.decimal address, " exceeds the operand range"]
  | opcode code index =>
    Text.concat ["Unknown opcode ", Text.decimal code.toNat, " at instruction ",
      Text.decimal index]
  | operand index => Text.concat ["Operand out of range at instruction ", Text.decimal index]
  | debugFlag flag => Text.concat ["Invalid debug info flag ", Text.decimal flag.toNat]
  | trailing bytes => Text.concat ["Trailing bytes after bytecode: ", Text.decimal bytes]
  | verification e => Text.concat ["Bytecode failed verification: ", e.message]
  | file path => Text.concat ["Failed to open bytecode file: ", path]
  | content path => Text.concat ["Failed to read bytecode file: ", path]

/-- The wording up to its first zero byte. -/
def LoadError.message (e : LoadError) : Text := e.wording.untilZero

namespace Image

/-- The bytes still to be read, and how many came before. -/
structure Cursor where
  rest : Text
  offset : Nat

abbrev Reader := StateT Cursor (Except LoadError)

namespace Reader

def fail (e : LoadError) : Reader α := fun _ => .error e

def bytes (n : Nat) : Reader Text := fun c =>
  let part := c.rest.take n
  if part.length < n then .error (.truncated c.offset)
  else .ok (part, ⟨c.rest.drop n, c.offset + n⟩)

def byte : Reader UInt8 := do
  return (← bytes 1).headD 0

def word : Reader Nat := do
  return ofLittleEndian (← bytes 4)

def signedWord : Reader Int32 := do
  return (← word).toUInt32.toInt32

def number : Reader Number := do
  return ⟨(ofLittleEndian (← bytes 8)).toUInt64⟩

def string : Reader Text := do
  bytes (← word)

/-- A number of elements that take at least `least` bytes each. -/
def count (least : Nat) (what : Text) : Reader Nat := do
  let n ← word
  if n * least > (← get).rest.length then fail (.count what n) else return n

/-- As many elements as asked for; `item` is told the index of each. -/
def repeated (item : Nat → Reader α) : Nat → Nat → Reader (List α)
  | _, 0 => return []
  | index, n + 1 => do
    let x ← item index
    let xs ← repeated item (index + 1) n
    return x :: xs

def table (least : Nat) (what : Text) (item : Nat → Reader α) : Reader (List α) := do
  let n ← count least what
  repeated item 0 n

def constant : Reader Constant := do
  let tag ← byte
  if tag = 0 then return .number (← number)
  else if tag = 1 then return .string (← string)
  else if tag = 2 then
    let flag ← byte
    if flag > 1 then fail (.booleanFlag flag) else return .boolean (flag = 1)
  else if tag = 3 then return .nil
  else fail (.constantTag tag)

def function : Reader Function := do
  let name ← string
  let entry ← word
  let stop ← word
  let arity ← word
  let localCount ← word
  if arity > maxArguments then fail (.parameters name)
  else
    let defaults ← repeated (fun _ => signedWord) 0 arity
    return { name, entry, stop, arity, localCount, defaults }

def clause : Reader CatchClause := do
  let filter ← signedWord
  let handler ← word
  if handler > maxOperand then fail (.handlerAddress handler)
  else return ⟨filter, handler.toUInt32.toInt32⟩

def tryTable : Reader TryTable := do
  let cleanup ← signedWord
  let clauses ← table 8 "catch clause" fun _ => clause
  return ⟨clauses, cleanup⟩

def isOperand (w : Int32) : Bool := -(maxOperand : Int) - 1 ≤ w.toInt && w.toInt ≤ maxOperand

def operand (present : Bool) : Reader Int32 := if present then signedWord else return 0

def instruction (index : Nat) : Reader Instruction := do
  let code ← byte
  match Opcode.ofCode? code with
  | none => fail (.opcode code index)
  | some op =>
    let a ← operand (0 < op.operandCount)
    let b ← operand (1 < op.operandCount)
    if isOperand a && isOperand b then return Instruction.make code a.toInt b.toInt
    else fail (.operand index)

def debugInfo : Reader (Option DebugInfo) := do
  let flag ← byte
  if flag > 1 then fail (.debugFlag flag)
  else if flag = 0 then return none
  else
    let source ← string
    let lines ← table 4 "line entry" fun _ => do return (← word).toUInt32
    let locals ← table 4 "local name table" fun _ => do
      return (← table 4 "local name" fun _ => string).toArray
    return some ⟨source, lines.toArray, locals.toArray⟩

def program : Reader Program := do
  if (← bytes 4) ≠ magic then fail .header
  else
    let version := (← word).toUInt32
    if version ≠ formatVersion then fail (.version version)
    else
      let constants ← table 1 "constant" fun _ => constant
      let globals ← table 4 "global name" fun _ => string
      let functions ← table 20 "function" fun _ => function
      let tries ← table 8 "try table" fun _ => tryTable
      let code ← table 1 "instruction" instruction
      let debug ← debugInfo
      return { version, constants := constants.toArray, globals := globals.toArray,
               functions := functions.toArray, tries := tries.toArray, code := code.toArray,
               debug }

end Reader

/-- The tables of an image, before verification. -/
def parse (image : Text) : Except LoadError Program :=
  if image.length < 4 then .error .header
  else
    match Reader.program ⟨image, 0⟩ with
    | .error e => .error e
    | .ok (p, c) => if c.rest.isEmpty then .ok p else .error (.trailing c.rest.length)

def read (image : Text) : Except LoadError Program := do
  let p ← parse image
  match p.verify with
  | .ok verified => .ok verified
  | .error e => .error (.verification e)

end Image
end ScriptMachine
