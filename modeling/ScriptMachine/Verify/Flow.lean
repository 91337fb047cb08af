import ScriptMachine.Verify.Error

/-!
What one instruction demands of the analysis. Control arrives at an address with an operand depth
and a list of open try constructs. The instruction either refuses that state or passes states on to
its successors, in the order in which they are looked at.
-/

namespace ScriptMachine
namespace Verify

structure FlowState where
  depth : Nat
  /-- The open constructs, innermost first. -/
  scopes : List Scope
deriving DecidableEq

inductive Demand where
  | refuse (e : VerifyError)
  /-- The try table is used by this function and by no other. -/
  | own (table : Nat)
  /-- Control arrives at the address in exactly this state. -/
  | reach (target : Nat) (state : FlowState)
deriving DecidableEq

def inRange (index : Int) (size : Nat) : Bool := 0 ≤ index && index < size

def isTarget (f : Function) (target : Int) : Bool :=
  0 ≤ target && (f.entry : Int) ≤ target && target < f.stop

def operandProblem? (p : Program) (f : Function) (kind : OperandKind) (v : Int) :
    Option FlowProblem :=
  let check (condition : Bool) (problem : FlowProblem) := if condition then none else some problem
  match kind with
  | .none => none
  | .constant => check (inRange v p.constants.size) (.constantIndex v)
  | .slot => check (inRange v f.localCount) (.localSlot v)
  | .global => check (inRange v p.globals.size) (.globalIndex v)
  | .target => check (isTarget f v) (.jumpTarget v)
  | .function => check (inRange v p.functions.size) (.functionIndex v)
  | .count => check (0 ≤ v) .negativeCount
  | .tryTable => check (inRange v p.tries.size) (.tryTable v)

/-- A call passes at least the required and at most the declared arguments. -/
def callProblem? (p : Program) (op : Opcode) (ins : Instruction) : Option FlowProblem :=
  match op, p.functions[ins.a.toNat]? with
  | .call, some callee =>
    if callee.arity < ins.b.toNat ∨ ins.b.toNat < callee.requiredArity then
      some (.argumentCount callee.name ins.b.toInt)
    else none
  | _, _ => none

def errorTypeProblem? (p : Program) (op : Opcode) (ins : Instruction) : Option FlowProblem :=
  match op, (p.constants[ins.a.toNat]?).bind Constant.string? with
  | .makeError, none => some .errorTypeName
  | _, _ => none

/-- The first problem with an instruction that does not depend on where control goes next. -/
def instructionProblem? (p : Program) (f : Function) (op : Opcode) (ins : Instruction)
    (depth : Nat) : Option FlowProblem :=
  operandProblem? p f op.kindA ins.a.toInt
    <|> operandProblem? p f op.kindB ins.b.toInt
    <|> callProblem? p op ins
    <|> errorTypeProblem? p op ins
    <|> if (depth : Int) < ins.pops then some .underflow else none

/-- A handler starts inside its try construct with the error on top of the entry depth. -/
def clauseDemand (p : Program) (f : Function) (pc table : Nat) (outer : FlowState)
    (clause : CatchClause) : Demand :=
  let refuse problem := Demand.refuse (.flow f.name pc problem)
  if clause.filter ≠ noIndex ∧ ((p.constant? clause.filter).bind Constant.string?).isNone then
    refuse .catchFilter
  else if isTarget f clause.handler.toInt then
    .reach clause.handler.toInt.toNat
      ⟨outer.depth + 1, ⟨table, .guarded, outer.depth⟩ :: outer.scopes⟩
  else refuse (.jumpTarget clause.handler.toInt)

def cleanupDemands (f : Function) (pc table : Nat) (outer : FlowState) (t : TryTable) :
    List Demand :=
  match t.cleanup? with
  | none => []
  | some address =>
    if isTarget f address.toInt then
      [.reach address.toInt.toNat
        ⟨outer.depth, ⟨table, .cleanup, outer.depth⟩ :: outer.scopes⟩]
    else [.refuse (.flow f.name pc (.jumpTarget address.toInt))]

def tryDemands (p : Program) (f : Function) (pc table : Nat) (outer : FlowState) : List Demand :=
  let t := p.tries.getD table {}
  .own table :: t.clauses.map (clauseDemand p f pc table outer) ++ cleanupDemands f pc table outer t

def fallThrough (f : Function) (pc : Nat) (state : FlowState) : List Demand :=
  if f.stop ≤ pc + 1 then [.refuse (.flow f.name pc .fallsOffEnd)] else [.reach (pc + 1) state]

def successorDemands (p : Program) (f : Function) (pc : Nat) (op : Opcode) (ins : Instruction)
    (state : FlowState) : List Demand :=
  let refuse problem := [Demand.refuse (.flow f.name pc problem)]
  let next : FlowState := ⟨(state.depth - ins.pops + ins.pushes).toNat, state.scopes⟩
  match op with
  | .jump => [.reach ins.a.toNat next]
  | .popTry =>
    match state.scopes with
    | ⟨table, .guarded, entered⟩ :: outer =>
      if state.depth = entered then [.reach ins.a.toNat ⟨next.depth, outer⟩]
      else refuse (.tryDepth table state.depth entered)
    | _ => refuse .noOpenTry
  | .endFinally =>
    match state.scopes with
    | ⟨_, .cleanup, entered⟩ :: _ =>
      if state.depth = entered then [] else refuse (.finallyDepth state.depth entered)
    | _ => refuse .noOpenFinally
  | .jumpIfFalse => .reach ins.a.toNat next :: fallThrough f pc next
  | .pushTry =>
    tryDemands p f pc ins.a.toNat next ++
      fallThrough f pc ⟨next.depth, ⟨ins.a.toNat, .guarded, state.depth⟩ :: state.scopes⟩
  | .ret => if state.depth = 1 then [] else refuse (.returnDepth state.depth)
  | .throw | .halt => []
  | _ => fallThrough f pc next

def demands (p : Program) (f : Function) (pc : Nat) (state : FlowState) : List Demand :=
  match p.code[pc]? with
  | none => [.refuse (.flow f.name pc .fallsOffEnd)]
  | some ins =>
    match ins.op with
    | .error e => [.refuse (.unknownOpcode e)]
    | .ok op =>
      match instructionProblem? p f op ins state.depth with
      | some problem => [.refuse (.flow f.name pc problem)]
      | none => successorDemands p f pc op ins state

end Verify
end ScriptMachine
