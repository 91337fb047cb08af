import ScriptMachine.Instruction

namespace ScriptMachine

def formatVersion : UInt32 := 1

def maxOperand : Nat := 2 ^ 23 - 1

def maxLocals : Nat := 256

def maxArguments : Nat := 255

/-- The word that stands for "no constant" and "no finally block". -/
def noIndex : Int32 := -1

def mainName : Text := "<main>"

structure Function where
  name : Text
  entry : Nat
  /-- The address after the last instruction. -/
  stop : Nat
  arity : Nat
  localCount : Nat
  /-- For each parameter the constant it defaults to, or `noIndex` for a required one. -/
  defaults : List Int32
  /-- The deepest operand stack above the locals, found by verification. -/
  maxStackDepth : Nat := 0
deriving DecidableEq, Inhabited

structure CatchClause where
  /-- The constant that names the error type, or `noIndex` to catch every error. -/
  filter : Int32
  handler : Int32
deriving DecidableEq, Inhabited

structure TryTable where
  clauses : List CatchClause := []
  /-- The address of the finally block, or `noIndex`. -/
  cleanup : Int32 := noIndex
deriving DecidableEq, Inhabited

structure DebugInfo where
  source : Text
  /-- The source line of each instruction, 0 where none is known. -/
  lines : Array UInt32
  /-- The names of the local slots of each function. -/
  locals : Array (Array Text)
deriving DecidableEq, Inhabited

structure Program where
  version : UInt32 := formatVersion
  constants : Array Constant := #[]
  globals : Array Text := #[]
  functions : Array Function := #[]
  tries : Array TryTable := #[]
  code : Array Instruction := #[]
  debug : Option DebugInfo := none
deriving DecidableEq, Inhabited

inductive LookupError where
  | function (name : Text)
  | global (name : Text)
  | address (address : Nat)
  | entry (index : Nat)
deriving DecidableEq

def LookupError.wording : LookupError → Text
  | function name => Text.concat ["Script function not found: ", name]
  | global name => Text.concat ["Global not found: ", name]
  | address place =>
    Text.concat ["Address ", Text.decimal place, " is outside every function"]
  | entry index => Text.concat ["Entry function index out of range: ", Text.decimal index]

def LookupError.message (e : LookupError) : Text := e.wording.untilZero

namespace Function

def contains (f : Function) (address : Nat) : Bool := f.entry ≤ address && address < f.stop

theorem contains_iff {f : Function} {address : Nat} :
    f.contains address ↔ f.entry ≤ address ∧ address < f.stop := by
  simp [contains]

/-- One more than the last parameter without a default. -/
def requiredArity (f : Function) : Nat :=
  let required := (f.defaults.take f.arity).reverse.dropWhile (· != noIndex)
  required.length

end Function

namespace TryTable

def cleanup? (t : TryTable) : Option Int32 := if t.cleanup = noIndex then none else some t.cleanup

end TryTable

namespace Program

def functionIndex? (p : Program) (name : Text) : Option Nat :=
  p.functions.findIdx? fun f => f.name == name

def findFunction (p : Program) (name : Text) : Except LookupError Nat :=
  match p.functionIndex? name with
  | some i => .ok i
  | none => .error (.function name)

def hasFunction (p : Program) (name : Text) : Bool := (p.functionIndex? name).isSome

def globalIndex? (p : Program) (name : Text) : Option Nat := p.globals.findIdx? (· == name)

def findGlobal (p : Program) (name : Text) : Except LookupError Nat :=
  match p.globalIndex? name with
  | some i => .ok i
  | none => .error (.global name)

def functionAt? (p : Program) (address : Nat) : Option Nat :=
  p.functions.findIdx? (·.contains address)

/-- The first function whose range holds an address. -/
def functionAt (p : Program) (address : Nat) : Except LookupError Nat :=
  match p.functionAt? address with
  | some i => .ok i
  | none => .error (.address address)

/-- The source line of an instruction, 0 when it is not known. -/
def lineAt (p : Program) (address : Nat) : UInt32 :=
  match p.debug with
  | some debug => debug.lines.getD address 0
  | none => 0

def localName (p : Program) (function slot : Nat) : Text :=
  match p.debug with
  | some debug => (debug.locals.getD function #[]).getD slot []
  | none => []

def sourceFile (p : Program) : Text :=
  match p.debug with
  | some debug => debug.source
  | none => []

def constant? (p : Program) (index : Int32) : Option Constant :=
  if 0 ≤ index.toInt then p.constants[index.toInt.toNat]? else none

end Program
end ScriptMachine
