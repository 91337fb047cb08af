import ScriptMachine.Image.Bytes
import ScriptMachine.Program

namespace ScriptMachine
namespace Image

inductive WriteError where
  | tooMany (what : Text)
  | unknownOpcode (e : UnknownOpcode)
deriving DecidableEq

def WriteError.message : WriteError → Text
  | tooMany what => Text.concat ["Too many ", what, " to serialize"]
  | unknownOpcode e => e.message

abbrev Written := Except WriteError Text

def word (n : Nat) : Text := littleEndian 4 n

def signedWord (w : Int32) : Text := word w.toUInt32.toNat

/-- An operand, extended to 32 bits with its sign. -/
def operand (a : BitVec 24) : Text := word (a.signExtend 32).toNat

def size (n : Nat) (what : Text) : Written :=
  if n < 2 ^ 32 then .ok (word n) else .error (.tooMany what)

def string (t : Text) : Written := do
  return (← size t.length "string bytes") ++ t

def each (xs : List α) (f : α → Written) : Written := do
  return Text.concat (← xs.mapM f)

def table (xs : List α) (what : Text) (f : α → Written) : Written := do
  let count ← size xs.length what
  return count ++ (← each xs f)

def constant : Constant → Written
  | .number x => .ok (0 :: littleEndian 8 x.bits.toNat)
  | .string t => do return 1 :: (← string t)
  | .boolean b => .ok [2, if b then 1 else 0]
  | .nil => .ok [3]

def function (f : Function) : Written := do
  let name ← string f.name
  let entry ← size f.entry "instructions"
  let stop ← size f.stop "instructions"
  let arity ← size f.arity "parameters"
  let locals ← size f.localCount "locals"
  let defaults := (List.range f.arity).map fun i => signedWord (f.defaults.getD i noIndex)
  return Text.concat ([name, entry, stop, arity, locals] ++ defaults)

def clause (c : CatchClause) : Written := .ok (signedWord c.filter ++ signedWord c.handler)

def tryTable (t : TryTable) : Written := do
  return signedWord t.cleanup ++ (← table t.clauses "catch clauses" clause)

def instruction (ins : Instruction) : Written :=
  match ins.op with
  | .error e => .error (.unknownOpcode e)
  | .ok op =>
    .ok (ins.code :: Text.concat ([operand ins.a, operand ins.b].take op.operandCount))

def debugInfo : Option DebugInfo → Written
  | none => .ok [0]
  | some debug => do
    let source ← string debug.source
    let lines ← table debug.lines.toList "line entries" fun line => .ok (word line.toNat)
    let locals ← table debug.locals.toList "local name tables" fun names =>
      table names.toList "local names" string
    return 1 :: Text.concat [source, lines, locals]

def write (p : Program) : Written := do
  let constants ← table p.constants.toList "constants" constant
  let globals ← table p.globals.toList "global names" string
  let functions ← table p.functions.toList "functions" function
  let tries ← table p.tries.toList "try tables" tryTable
  let code ← table p.code.toList "instructions" instruction
  let debug ← debugInfo p.debug
  return Text.concat
    [magic, word p.version.toNat, constants, globals, functions, tries, code, debug]

end Image
end ScriptMachine
