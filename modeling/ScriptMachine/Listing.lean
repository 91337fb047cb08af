import ScriptMachine.Program

namespace ScriptMachine
namespace Listing

def describeIndex (p : Program) (none? : Text) (index : Int32) : Text :=
  if index = noIndex then none?
  else
    match p.constant? index with
    | some c => c.describe
    | none => "?"

def localComment (p : Program) (address : Nat) (slot : Int) : Text :=
  if slot < 0 then []
  else
    match p.functionAt? address with
    | some f => p.localName f slot.toNat
    | none => []

def lookup (xs : Array α) (index : Int) : Option α :=
  if 0 ≤ index then xs[index.toNat]? else none

def operandComment (p : Program) (address : Nat) (op : Opcode) (ins : Instruction) : Text :=
  match op with
  | .loadLocal | .storeLocal => localComment p address ins.a.toInt
  | .loadConst | .makeError =>
    match lookup p.constants ins.a.toInt with
    | some c => c.describe
    | none => "<bad constant>"
  | .loadGlobal | .storeGlobal =>
    match lookup p.globals ins.a.toInt with
    | some name => name
    | none => "<bad global>"
  | .call =>
    match lookup p.functions ins.a.toInt with
    | some f => Text.concat [f.name, "/", Text.integer ins.b.toInt]
    | none => "<bad function>"
  | _ => []

def instruction (p : Program) (address : Nat) (ins : Instruction) : Except UnknownOpcode Text := do
  let op ← ins.op
  let operands := ([ins.a, ins.b].take op.operandCount).flatMap fun v =>
    Text.concat [" ", Text.integer v.toInt]
  let comment := operandComment p address op ins
  return Text.concat ["  ", Text.padLeft 4 0x30 (Text.decimal address), " ", op.mnemonic, operands,
    if comment.isEmpty then [] else Text.concat [" ; ", comment]]

/-- The number of elements under a title, then a numbered text for each. -/
def numbered (title : Text) (texts : List Text) : Text :=
  Text.concat [title, " ", Text.decimal texts.length, "\n",
    Text.concat (texts.mapIdx fun i t => Text.concat ["  [", Text.decimal i, "] ", t, "\n"])]

def function (p : Program) (f : Function) : Text :=
  Text.concat [f.name, " entry=", Text.decimal f.entry, " end=", Text.decimal f.stop, " arity=",
    Text.decimal f.arity, " locals=", Text.decimal f.localCount, " stack=",
    Text.decimal f.maxStackDepth,
    if f.defaults.isEmpty then []
    else
      Text.concat [" defaults=[", Text.join ", " (f.defaults.map (describeIndex p "-")), "]"]]

def tryTable (p : Program) (t : TryTable) : Text :=
  let head := Text.concat ["finally=",
    match t.cleanup? with | some address => Text.integer address.toInt | none => "none"]
  let clause (c : CatchClause) := Text.concat ["\n    catch ", describeIndex p "*" c.filter, " -> ",
    Text.integer c.handler.toInt]
  head ++ t.clauses.flatMap clause

/-- The labels of the functions that start at an address, and the functions after them. -/
def labels (address : Nat) : List Function → Text × List Function
  | [] => ([], [])
  | f :: rest =>
    if f.entry = address then
      let (text, later) := labels address rest
      (Text.concat [f.name, ":\n", text], later)
    else ([], f :: rest)

/-- The lines for the code from an address on, given the functions that have not started yet and the
source line of the instruction before. -/
def code (p : Program) : Nat → List Function → UInt32 → List Instruction →
    Except UnknownOpcode Text
  | _, _, _, [] => .ok []
  | address, functions, lastLine, ins :: rest => do
    let (label, later) := labels address functions
    let lastLine := if label.isEmpty then lastLine else 0
    let line := p.lineAt address
    let marker : Text :=
      if line ≠ 0 ∧ line ≠ lastLine then
        Text.concat ["  ; line ", Text.decimal line.toNat, "\n"]
      else []
    let text ← instruction p address ins
    let more ← code p (address + 1) later line rest
    return Text.concat [label, marker, text, "\n"] ++ more

def tables (p : Program) : Text :=
  Text.concat [
    "version ", Text.decimal p.version.toNat, "\n",
    match p.debug with
    | some debug => Text.concat ["source ", debug.source.quoted, "\n"]
    | none => [],
    numbered "constants" (p.constants.toList.map Constant.describe),
    numbered "globals" p.globals.toList,
    numbered "functions" (p.functions.toList.map (function p)),
    numbered "try_tables" (p.tries.toList.map (tryTable p))]

end Listing

def Program.listing (p : Program) : Except UnknownOpcode Text := do
  let code ← Listing.code p 0 p.functions.toList 0 p.code.toList
  return Text.concat [Listing.tables p, "code ", Text.decimal p.code.size, "\n", code]

def Program.instructionListing? (p : Program) (address : Nat) :
    Option (Except UnknownOpcode Text) :=
  (p.code[address]?).map (Listing.instruction p address)

end ScriptMachine
