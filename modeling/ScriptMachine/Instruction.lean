import ScriptMachine.Constant

namespace ScriptMachine

inductive Opcode where
  | loadConst
  | loadLocal
  | storeLocal
  | loadGlobal
  | storeGlobal
  | add
  | sub
  | mul
  | div
  | mod
  | negate
  | not
  | equal
  | notEqual
  | less
  | lessEqual
  | greater
  | greaterEqual
  | jump
  | jumpIfFalse
  | pop
  | call
  | ret
  | makeList
  | makeDict
  | indexGet
  | indexSet
  | pushTry
  | popTry
  | endFinally
  | throw
  | makeError
  | errorMessage
  | errorType
  | print
  | input
  | readFile
  | writeFile
  | halt
deriving DecidableEq, Inhabited

/-- What an operand is an index into. -/
inductive OperandKind where
  | none
  | constant
  | slot
  | global
  | target
  | function
  | count
  | tryTable
deriving DecidableEq

namespace OperandKind

def name : OperandKind → Text
  | none => "None"
  | constant => "Constant"
  | slot => "Local"
  | global => "Global"
  | target => "Target"
  | function => "Function"
  | count => "Count"
  | tryTable => "TryTable"

end OperandKind

namespace Opcode

def all : Array Opcode :=
  #[loadConst, loadLocal, storeLocal, loadGlobal, storeGlobal, add, sub, mul, div, mod, negate, not,
    equal, notEqual, less, lessEqual, greater, greaterEqual, jump, jumpIfFalse, pop, call, ret,
    makeList, makeDict, indexGet, indexSet, pushTry, popTry, endFinally, throw, makeError,
    errorMessage, errorType, print, input, readFile, writeFile, halt]

def code (op : Opcode) : UInt8 := op.ctorIdx.toUInt8

def ofCode? (code : UInt8) : Option Opcode := all[code.toNat]?

@[simp] theorem ofCode?_code (op : Opcode) : ofCode? op.code = some op := by cases op <;> rfl

def mnemonic : Opcode → Text
  | loadConst => "LOAD_CONST"
  | loadLocal => "LOAD_LOCAL"
  | storeLocal => "STORE_LOCAL"
  | loadGlobal => "LOAD_GLOBAL"
  | storeGlobal => "STORE_GLOBAL"
  | add => "ADD"
  | sub => "SUB"
  | mul => "MUL"
  | div => "DIV"
  | mod => "MOD"
  | negate => "NEGATE"
  | not => "NOT"
  | equal => "EQUAL"
  | notEqual => "NOT_EQUAL"
  | less => "LESS"
  | lessEqual => "LESS_EQUAL"
  | greater => "GREATER"
  | greaterEqual => "GREATER_EQUAL"
  | jump => "JUMP"
  | jumpIfFalse => "JUMP_IF_FALSE"
  | pop => "POP"
  | call => "CALL"
  | ret => "RETURN"
  | makeList => "MAKE_LIST"
  | makeDict => "MAKE_DICT"
  | indexGet => "INDEX_GET"
  | indexSet => "INDEX_SET"
  | pushTry => "PUSH_TRY"
  | popTry => "POP_TRY"
  | endFinally => "END_FINALLY"
  | throw => "THROW"
  | makeError => "MAKE_ERROR"
  | errorMessage => "ERROR_MESSAGE"
  | errorType => "ERROR_TYPE"
  | print => "PRINT"
  | input => "INPUT"
  | readFile => "READ_FILE"
  | writeFile => "WRITE_FILE"
  | halt => "HALT"

def kindA : Opcode → OperandKind
  | loadConst | makeError => .constant
  | loadLocal | storeLocal => .slot
  | loadGlobal | storeGlobal => .global
  | jump | jumpIfFalse | popTry => .target
  | call => .function
  | makeList | makeDict => .count
  | pushTry => .tryTable
  | _ => .none

def kindB : Opcode → OperandKind
  | call => .count
  | _ => .none

def operandCount (op : Opcode) : Nat :=
  if op.kindB ≠ .none then 2 else if op.kindA ≠ .none then 1 else 0

/-- Control never goes on to the next instruction. -/
def isTerminator : Opcode → Bool
  | jump | popTry | ret | endFinally | throw | halt => true
  | _ => false

end Opcode

structure Instruction where
  code : UInt8
  a : BitVec 24 := 0
  b : BitVec 24 := 0
deriving DecidableEq, Inhabited

structure UnknownOpcode where
  code : UInt8
deriving DecidableEq

def UnknownOpcode.message (e : UnknownOpcode) : Text :=
  Text.concat ["Unknown opcode ", Text.decimal e.code.toNat]

namespace Instruction

/-- Operands are kept to 24 bits, wrapping around. -/
def make (code : UInt8) (a b : Int) : Instruction := ⟨code, BitVec.ofInt 24 a, BitVec.ofInt 24 b⟩

def of (op : Opcode) (a : BitVec 24 := 0) (b : BitVec 24 := 0) : Instruction := ⟨op.code, a, b⟩

def op? (ins : Instruction) : Option Opcode := Opcode.ofCode? ins.code

@[simp] theorem op?_of (op : Opcode) (a b : BitVec 24) : (of op a b).op? = some op := by
  simp [of, op?]

def op (ins : Instruction) : Except UnknownOpcode Opcode :=
  match ins.op? with
  | some op => .ok op
  | none => .error ⟨ins.code⟩

/-- The number of values taken from the operand stack. -/
def popsOf (op : Opcode) (a b : Int) : Int :=
  match op with
  | .loadConst | .loadLocal | .loadGlobal | .jump | .pushTry | .popTry | .endFinally | .input
  | .halt => 0
  | .storeLocal | .storeGlobal | .negate | .not | .jumpIfFalse | .pop | .ret | .throw
  | .makeError | .errorMessage | .errorType | .print | .readFile => 1
  | .add | .sub | .mul | .div | .mod | .equal | .notEqual | .less | .lessEqual | .greater
  | .greaterEqual | .indexGet | .writeFile => 2
  | .indexSet => 3
  | .call => b
  | .makeList => a
  | .makeDict => a * 2

/-- The number of values left on the operand stack in their place. -/
def pushesOf : Opcode → Int
  | .storeLocal | .storeGlobal | .jump | .jumpIfFalse | .pop | .ret | .indexSet | .pushTry
  | .popTry | .endFinally | .throw | .print | .writeFile | .halt => 0
  | _ => 1

def pops (ins : Instruction) : Int :=
  match ins.op? with
  | some op => popsOf op ins.a.toInt ins.b.toInt
  | none => 0

def pushes (ins : Instruction) : Int :=
  match ins.op? with
  | some op => pushesOf op
  | none => 0

def delta (ins : Instruction) : Int := ins.pushes - ins.pops

def isTerminator (ins : Instruction) : Bool :=
  match ins.op? with
  | some op => op.isTerminator
  | none => false

end Instruction
end ScriptMachine
