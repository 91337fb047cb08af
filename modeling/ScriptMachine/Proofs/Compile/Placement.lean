import ScriptMachine.Compile.Basic

namespace ScriptMachine
namespace Compile

/-- What the names in a function can stand for. -/
structure Names where
  isMain : Bool
  known : List Text
  functions : Array Function

def Context.names (cx : Context) : Names := ⟨cx.isMain, cx.knownGlobals, cx.functions⟩

/-- The place of one function in a program, and the names of its slots. -/
structure Layout where
  program : Program
  names : Names
  entry : Nat
  parameters : List Text
  locals : List Text

/-- How a loop is left: through the try constructs inside of it, to one of two addresses. -/
structure Exits where
  leave : Nat
  stop : Nat
  skip : Nat

def Exits.target (x : Exits) : LoopExit → Nat
  | .stop => x.stop
  | .skip => x.skip

def Exits.inTry (x : Exits) : Exits := { x with leave := x.leave + 1 }

/-- An address, and the first try table and loop counter that are not in use before it. -/
structure Mark where
  pc : Nat
  table : Nat
  counter : Nat

def Mark.to (m : Mark) (pc : Nat) : Mark := { m with pc }

def counterName (n : Nat) : Text := Text.concat ["$repeat", Text.decimal n]

namespace Layout

def At (L : Layout) (pc : Nat) (op : Opcode) (a b : Nat := 0) : Prop :=
  L.program.code[pc]? = some (.of op (BitVec.ofNat 24 a) (BitVec.ofNat 24 b)) ∧
    a ≤ maxOperand ∧ b ≤ maxOperand

theorem At.congr {L : Layout} {pc a a' b : Nat} {op : Opcode} (h : L.At pc op a b) (ha : a = a') :
    L.At pc op a' b := ha ▸ h

def Loads (L : Layout) (pc : Nat) (c : Constant) : Prop :=
  ∃ i, L.At pc .loadConst i ∧ L.program.constants[i]? = some c

/-- A name that stands for a global wherever it is read. -/
def Shared (L : Layout) (name : Text) : Prop :=
  L.names.isMain ∨ (name ∈ L.names.known ∧ name ∉ L.parameters)

def Reads (L : Layout) (pc : Nat) (name : Text) : Prop :=
  (∃ i, L.At pc .loadLocal i ∧ L.locals[i]? = some name) ∨
    ∃ i, L.At pc .loadGlobal i ∧ L.program.globals[i]? = some name ∧ L.Shared name

def Writes (L : Layout) (pc : Nat) (name : Text) : Prop :=
  (∃ i, L.At pc .storeLocal i ∧ L.locals[i]? = some name ∧ ¬ L.names.isMain) ∨
    ∃ i, L.At pc .storeGlobal i ∧ L.program.globals[i]? = some name ∧ L.Shared name

def Calls (L : Layout) (pc : Nat) (name : Text) (given : Nat) : Prop :=
  ∃ i f, L.At pc .call (i + 1) given ∧ L.names.functions.findIdx? (·.name == name) = some i ∧
    L.names.functions[i]? = some f ∧ f.requiredArity ≤ given ∧ given ≤ f.arity

/-- The test of an operand of a logical operator, from one address to another. -/
def Tests (L : Layout) : LogicalOp → Nat → Nat → Prop
  | .and, pc, pc' => pc' = pc
  | .or, pc, pc' => L.At pc .not ∧ pc' = pc + 1

/-- A row of exits from try constructs, each going on to the next. -/
def Leaves (L : Layout) (count pc : Nat) : Prop :=
  ∀ i < count, L.At (pc + i) .popTry (pc + i + 1)

def Filters (L : Layout) (typeName : Text) (w : Int32) : Prop :=
  if typeName.isEmpty then w = noIndex
  else ∃ i : Nat, w.toInt = i ∧ L.program.constants[i]? = some (.string typeName)

def Takes (L : Layout) (pc : Nat) (binder : Text) : Prop :=
  if binder.isEmpty then L.At pc .pop else L.Writes pc binder

end Layout

mutual

/-- The code of an expression stands from one address to another. -/
def ExprAt (L : Layout) : Expr → Nat → Nat → Prop
  | .number x, pc, pc' => L.Loads pc (.number x) ∧ pc' = pc + 1
  | .string t, pc, pc' => L.Loads pc (.string t) ∧ pc' = pc + 1
  | .boolean b, pc, pc' => L.Loads pc (.boolean b) ∧ pc' = pc + 1
  | .nil, pc, pc' => L.Loads pc .nil ∧ pc' = pc + 1
  | .identifier name, pc, pc' => L.Reads pc name ∧ pc' = pc + 1
  | .unary op e, pc, pc' => ∃ q, ExprAt L e pc q ∧ L.At q op.opcode ∧ pc' = q + 1
  | .binary op l r, pc, pc' =>
    ∃ q s, ExprAt L l pc q ∧ ExprAt L r q s ∧ L.At s op.opcode ∧ pc' = s + 1
  | .logical op l r, pc, pc' =>
    ∃ q t s u, ExprAt L l pc q ∧ L.Tests op q t ∧ L.At t .jumpIfFalse (u + 3) ∧
      ExprAt L r (t + 1) s ∧ L.Tests op s u ∧ L.At u .jumpIfFalse (u + 3) ∧
      L.Loads (u + 1) (.boolean (op = .and)) ∧ L.At (u + 2) .jump (u + 4) ∧
      L.Loads (u + 3) (.boolean (op = .or)) ∧ pc' = u + 4
  | .call name args, pc, pc' =>
    ∃ q, ExprsAt L args pc q ∧ L.Calls q name args.length ∧ pc' = q + 1
  | .list items, pc, pc' =>
    ∃ q, ExprsAt L items pc q ∧ L.At q .makeList items.length ∧ pc' = q + 1
  | .dict entries, pc, pc' =>
    ∃ q, EntriesAt L entries pc q ∧ L.At q .makeDict entries.length ∧ pc' = q + 1
  | .index c i, pc, pc' => ∃ q s, ExprAt L c pc q ∧ ExprAt L i q s ∧ L.At s .indexGet ∧ pc' = s + 1
  | .newError typeName e, pc, pc' =>
    ∃ q i, ExprAt L e pc q ∧ L.At q .makeError i ∧
      L.program.constants[i]? = some (.string typeName) ∧ pc' = q + 1
  | .errorMessage e, pc, pc' => ∃ q, ExprAt L e pc q ∧ L.At q .errorMessage ∧ pc' = q + 1
  | .errorType e, pc, pc' => ∃ q, ExprAt L e pc q ∧ L.At q .errorType ∧ pc' = q + 1
  | .fileText e, pc, pc' => ∃ q, ExprAt L e pc q ∧ L.At q .readFile ∧ pc' = q + 1

def ExprsAt (L : Layout) : List Expr → Nat → Nat → Prop
  | [], pc, pc' => pc' = pc
  | e :: rest, pc, pc' => ∃ q, ExprAt L e pc q ∧ ExprsAt L rest q pc'

def EntriesAt (L : Layout) : List (Text × Expr) → Nat → Nat → Prop
  | [], pc, pc' => pc' = pc
  | (key, e) :: rest, pc, pc' =>
    ∃ q, L.Loads pc (.string key) ∧ ExprAt L e (pc + 1) q ∧ EntriesAt L rest q pc'

end

mutual

/-- The code of an action stands from one mark to another, inside a loop with the given exits. -/
def ActionAt (L : Layout) : Action → Option Exits → Mark → Mark → Prop
  | .write e, _, m, m' => ∃ q, ExprAt L e m.pc q ∧ L.At q .print ∧ m' = m.to (q + 1)
  | .ask name, _, m, m' =>
    L.At m.pc .input ∧ L.Writes (m.pc + 1) name ∧ m' = m.to (m.pc + 2)
  | .set name e, _, m, m' => ∃ q, ExprAt L e m.pc q ∧ L.Writes q name ∧ m' = m.to (q + 1)
  | .setIndex c i e, _, m, m' =>
    ∃ q s t, ExprAt L c m.pc q ∧ ExprAt L i q s ∧ ExprAt L e s t ∧ L.At t .indexSet ∧
      m' = m.to (t + 1)
  | .branch c yes no, x, m, m' =>
    ∃ q, ExprAt L c m.pc q ∧
      if no.isEmpty then L.At q .jumpIfFalse m'.pc ∧ BlockAt L yes x (m.to (q + 1)) m'
      else ∃ y : Mark, L.At q .jumpIfFalse (y.pc + 1) ∧ BlockAt L yes x (m.to (q + 1)) y ∧
        L.At y.pc .jump m'.pc ∧ BlockAt L no x (y.to (y.pc + 1)) m'
  | .whileLoop c b, _, m, m' =>
    ∃ q, ∃ y : Mark, ExprAt L c m.pc q ∧ L.At q .jumpIfFalse (y.pc + 1) ∧
      BlockAt L b (some ⟨0, y.pc + 1, m.pc⟩) (m.to (q + 1)) y ∧ L.At y.pc .jump m.pc ∧
      m' = y.to (y.pc + 1)
  | .repeatLoop n b, _, m, m' =>
    ∃ slot q, ∃ y : Mark, L.locals[slot]? = some (counterName m.counter) ∧ ExprAt L n m.pc q ∧
      L.At q .storeLocal slot ∧ L.At (q + 1) .loadLocal slot ∧
      L.Loads (q + 2) (.number .zero) ∧ L.At (q + 3) .greater ∧
      L.At (q + 4) .jumpIfFalse (y.pc + 5) ∧
      BlockAt L b (some ⟨0, y.pc + 5, y.pc⟩) ⟨q + 5, m.table, m.counter + 1⟩ y ∧
      L.At y.pc .loadLocal slot ∧ L.Loads (y.pc + 1) (.number .one) ∧ L.At (y.pc + 2) .sub ∧
      L.At (y.pc + 3) .storeLocal slot ∧ L.At (y.pc + 4) .jump (q + 1) ∧ m' = y.to (y.pc + 5)
  | .exit way, x, m, m' =>
    ∃ e, x = some e ∧ L.Leaves e.leave m.pc ∧ L.At (m.pc + e.leave) .jump (e.target way) ∧
      m' = m.to (m.pc + e.leave + 1)
  | .function _ _ _, _, m, m' => m' = m
  | .use name args, _, m, m' =>
    ∃ q, ExprsAt L args m.pc q ∧ L.Calls q name args.length ∧ L.At (q + 1) .pop ∧
      m' = m.to (q + 2)
  | .ret none, _, m, m' => L.Loads m.pc .nil ∧ L.At (m.pc + 1) .ret ∧ m' = m.to (m.pc + 2)
  | .ret (some e), _, m, m' => ∃ q, ExprAt L e m.pc q ∧ L.At q .ret ∧ m' = m.to (q + 1)
  | .guard b hs c, x, m, m' =>
    ∃ t, ∃ y z : Mark, L.At m.pc .pushTry m.table ∧ L.program.tries[m.table]? = some t ∧
      BlockAt L b (x.map Exits.inTry) ⟨m.pc + 1, m.table + 1, m.counter⟩ y ∧
      L.At y.pc .popTry m'.pc ∧
      CatchesAt L hs (x.map Exits.inTry) m'.pc t.clauses (y.to (y.pc + 1)) z ∧
      CleanupAt L c t.cleanup z m'
  | .throw e, _, m, m' => ∃ q, ExprAt L e m.pc q ∧ L.At q .throw ∧ m' = m.to (q + 1)
  | .writeFile c e, _, m, m' =>
    ∃ q s, ExprAt L c m.pc q ∧ ExprAt L e q s ∧ L.At s .writeFile ∧ m' = m.to (s + 1)

def HandlerAt (L : Layout) : Handler → Option Exits → CatchClause → Mark → Mark → Prop
  | .mk typeName binder b, x, clause, m, m' =>
    L.Filters typeName clause.filter ∧ clause.handler.toInt = m.pc ∧ L.Takes m.pc binder ∧
      BlockAt L b x (m.to (m.pc + 1)) m'

/-- The handlers of a try construct, each of which leaves it for the address `out`. -/
def CatchesAt (L : Layout) :
    List Handler → Option Exits → Nat → List CatchClause → Mark → Mark → Prop
  | [], _, _, clauses, m, m' => clauses = [] ∧ m' = m
  | h :: rest, x, out, clauses, m, m' =>
    ∃ clause later, ∃ y : Mark, clauses = clause :: later ∧ HandlerAt L h x clause m y ∧
      L.At y.pc .popTry out ∧ CatchesAt L rest x out later (y.to (y.pc + 1)) m'

/-- A finally block with the word that points to it. No exit of a loop leads out of it. -/
def CleanupAt (L : Layout) : Option (List Stmt) → Int32 → Mark → Mark → Prop
  | none, w, m, m' => w = noIndex ∧ m' = m
  | some b, w, m, m' =>
    w.toInt = m.pc ∧ ∃ y : Mark, BlockAt L b none m y ∧ L.At y.pc .endFinally ∧ m' = y.to (y.pc + 1)

def BlockAt (L : Layout) : List Stmt → Option Exits → Mark → Mark → Prop
  | [], _, m, m' => m' = m
  | .mk _ a :: rest, x, m, m' => ∃ y : Mark, ActionAt L a x m y ∧ BlockAt L rest x y m'

end

end Compile
end ScriptMachine
