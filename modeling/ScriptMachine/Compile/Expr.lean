import ScriptMachine.Compile.Draft

namespace ScriptMachine

def UnaryOp.opcode : UnaryOp → Opcode
  | .not => .not
  | .negate => .negate

def BinaryOp.opcode : BinaryOp → Opcode
  | .plus => .add
  | .minus => .sub
  | .times => .mul
  | .dividedBy => .div
  | .modulo => .mod
  | .equal => .equal
  | .notEqual => .notEqual
  | .less => .less
  | .lessEqual => .lessEqual
  | .greater => .greater
  | .greaterEqual => .greaterEqual

/-- The literal that an expression is, where a literal is asked for. -/
def Expr.literal? : Expr → Option Constant
  | .number x => some (.number x)
  | .string t => some (.string t)
  | .boolean b => some (.boolean b)
  | .nil => some .nil
  | .unary .negate (.number x) => some (.number x.negate)
  | _ => none

namespace Compile

def loadConstant (c : Constant) : Build Instruction := do
  return .of .loadConst (← constantIndex c)

/-- For `or` the operands are inverted, so that both operators jump when an operand is decisive. -/
def logicalTest : LogicalOp → List Instruction
  | .and => []
  | .or => [.of .not]

mutual

/-- Code of an expression that starts at an address. -/
def expr (cx : Context) (start : Nat) : Expr → Build (List Instruction)
  | .number x => return [← loadConstant (.number x)]
  | .string t => return [← loadConstant (.string t)]
  | .boolean b => return [← loadConstant (.boolean b)]
  | .nil => return [← loadConstant .nil]
  | .identifier name => return [← load cx name]
  | .unary op e => return (← expr cx start e) ++ [.of op.opcode]
  | .binary op l r => do
    let left ← expr cx start l
    let right ← expr cx (start + left.length) r
    return left ++ right ++ [.of op.opcode]
  | .logical op l r => do
    let left ← expr cx start l
    let left := left ++ logicalTest op
    let right ← expr cx (start + left.length + 1) r
    let right := right ++ logicalTest op
    let decisive := start + left.length + right.length + 4
    let otherwise ← loadConstant (.boolean (op = .and))
    let short ← address decisive
    let decided ← loadConstant (.boolean (op = .or))
    let stop ← address (decisive + 1)
    return left ++ [.of .jumpIfFalse short] ++ right ++
      [.of .jumpIfFalse short, otherwise, .of .jump stop, decided]
  | .call name args => do
    let index ← callee cx name args.length
    let code ← exprs cx start args
    return code ++ [.of .call index (BitVec.ofNat 24 args.length)]
  | .list items => do
    let code ← exprs cx start items
    return code ++ [.of .makeList (← operand items.length "list elements")]
  | .dict entries => do
    let code ← dictEntries cx start entries
    return code ++ [.of .makeDict (← operand entries.length "dictionary entries")]
  | .index c i => do
    let collection ← expr cx start c
    let position ← expr cx (start + collection.length) i
    return collection ++ position ++ [.of .indexGet]
  | .newError typeName m => do
    let message ← expr cx start m
    return message ++ [.of .makeError (← constantIndex (.string typeName))]
  | .errorMessage e => return (← expr cx start e) ++ [.of .errorMessage]
  | .errorType e => return (← expr cx start e) ++ [.of .errorType]
  | .fileText e => return (← expr cx start e) ++ [.of .readFile]

def exprs (cx : Context) (start : Nat) : List Expr → Build (List Instruction)
  | [] => return []
  | e :: rest => do
    let first ← expr cx start e
    let more ← exprs cx (start + first.length) rest
    return first ++ more

def dictEntries (cx : Context) (start : Nat) : List (Text × Expr) → Build (List Instruction)
  | [] => return []
  | (key, e) :: rest => do
    let key ← loadConstant (.string key)
    let value ← expr cx (start + 1) e
    let more ← dictEntries cx (start + 1 + value.length) rest
    return key :: value ++ more

end

end Compile
end ScriptMachine
