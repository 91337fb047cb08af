import Mathlib.Data.List.Forall2
import ScriptMachine.Proofs.Compile.Slots

namespace ScriptMachine
namespace Compile

/-- What the operand of an instruction was asked for. -/
inductive Operand where
  /-- A constant to load. -/
  | literal (c : Constant)
  /-- The type of a new error. -/
  | errorType (typeName : Text)
  | read (name : Text)
  | write (name : Text)
  /-- Neither a constant nor a global. -/
  | other
deriving DecidableEq

/-- The operands of the instructions of a text, and the types that the handlers of each of its try
constructs catch, both in the order of the text. -/
structure Requests where
  operands : List Operand := []
  filters : List (List Text) := []
deriving DecidableEq

def Requests.append (r r' : Requests) : Requests :=
  ⟨r.operands ++ r'.operands, r.filters ++ r'.filters⟩

instance : Append Requests := ⟨Requests.append⟩

def testOperands : LogicalOp → List Operand
  | .and => []
  | .or => [.other]

mutual

def exprOperands : Expr → List Operand
  | .number x => [.literal (.number x)]
  | .string t => [.literal (.string t)]
  | .boolean b => [.literal (.boolean b)]
  | .nil => [.literal .nil]
  | .identifier name => [.read name]
  | .unary _ e => exprOperands e ++ [.other]
  | .binary _ l r => exprOperands l ++ exprOperands r ++ [.other]
  | .logical op l r =>
    exprOperands l ++ testOperands op ++ [.other] ++ (exprOperands r ++ testOperands op) ++
      [.other, .literal (.boolean (op = .and)), .other, .literal (.boolean (op = .or))]
  | .call _ args => exprsOperands args ++ [.other]
  | .list items => exprsOperands items ++ [.other]
  | .dict entries => entriesOperands entries ++ [.other]
  | .index c i => exprOperands c ++ exprOperands i ++ [.other]
  | .newError typeName e => exprOperands e ++ [.errorType typeName]
  | .errorMessage e => exprOperands e ++ [.other]
  | .errorType e => exprOperands e ++ [.other]
  | .fileText e => exprOperands e ++ [.other]

def exprsOperands : List Expr → List Operand
  | [] => []
  | e :: rest => exprOperands e ++ exprsOperands rest

def entriesOperands : List (Text × Expr) → List Operand
  | [] => []
  | (key, e) :: rest => .literal (.string key) :: exprOperands e ++ entriesOperands rest

end

def handlerTypes (hs : List Handler) : List Text := hs.map fun | .mk typeName _ _ => typeName

mutual

/-- What a statement asks for that stands `leave` try constructs inside of the innermost loop. -/
def actionRequests (leave : Nat) : Action → Requests
  | .write e => ⟨exprOperands e ++ [.other], []⟩
  | .ask name => ⟨[.other, .write name], []⟩
  | .set name e => ⟨exprOperands e ++ [.write name], []⟩
  | .setIndex c i e => ⟨exprOperands c ++ exprOperands i ++ exprOperands e ++ [.other], []⟩
  | .branch c yes no =>
    let first : Requests := ⟨exprOperands c ++ [.other], []⟩ ++ blockRequests leave yes
    if no.isEmpty then first else first ++ ⟨[.other], []⟩ ++ blockRequests leave no
  | .whileLoop c b => ⟨exprOperands c ++ [.other], []⟩ ++ blockRequests 0 b ++ ⟨[.other], []⟩
  | .repeatLoop n b =>
    ⟨exprOperands n ++ [.other, .other, .literal (.number .zero), .other, .other], []⟩ ++
      blockRequests 0 b ++ ⟨[.other, .literal (.number .one), .other, .other, .other], []⟩
  | .exit _ => ⟨List.replicate leave .other ++ [.other], []⟩
  | .function _ _ _ => {}
  | .use _ args => ⟨exprsOperands args ++ [.other, .other], []⟩
  | .ret none => ⟨[.literal .nil, .other], []⟩
  | .ret (some e) => ⟨exprOperands e ++ [.other], []⟩
  | .guard b hs c =>
    ⟨[.other], [handlerTypes hs]⟩ ++ blockRequests (leave + 1) b ++ ⟨[.other], []⟩ ++
      handlersRequests (leave + 1) hs ++ cleanupRequests c
  | .throw e => ⟨exprOperands e ++ [.other], []⟩
  | .writeFile c e => ⟨exprOperands c ++ exprOperands e ++ [.other], []⟩

/-- A handler stores the error first, or drops it. -/
def handlersRequests (leave : Nat) : List Handler → Requests
  | [] => {}
  | .mk _ binder b :: rest =>
    ⟨[if binder.isEmpty then .other else .write binder], []⟩ ++ blockRequests leave b ++
      ⟨[.other], []⟩ ++ handlersRequests leave rest

def cleanupRequests : Option (List Stmt) → Requests
  | none => {}
  | some b => blockRequests 0 b ++ ⟨[.other], []⟩

def blockRequests (leave : Nat) : List Stmt → Requests
  | [] => {}
  | .mk _ a :: rest => actionRequests leave a ++ blockRequests leave rest

end

/-- An instruction with the operand that was asked for, given the pools of its program. -/
def Denotes (constants : Array Constant) (globals : Array Text) : Operand → Instruction → Prop
  | .literal c, ins => ins.op? = some .loadConst ∧ constants[ins.a.toNat]? = some c
  | .errorType typeName, ins =>
    ins.op? = some .makeError ∧ constants[ins.a.toNat]? = some (.string typeName)
  | .read name, ins =>
    ins.op? = some .loadLocal ∨ (ins.op? = some .loadGlobal ∧ globals[ins.a.toNat]? = some name)
  | .write name, ins =>
    ins.op? = some .storeLocal ∨ (ins.op? = some .storeGlobal ∧ globals[ins.a.toNat]? = some name)
  | .other, ins => ∃ op, ins.op? = some op ∧ op.kindA ≠ .constant ∧ op.kindA ≠ .global

def SlotDenotes (constants : Array Constant) (globals : Array Text) (o : Operand) : Slot → Prop
  | .fixed ins => Denotes constants globals o ins
  | .unclosed _ => o = .other

/-- The filter of a clause for a type. An empty name catches everything. -/
def FilterAt (constants : Array Constant) (typeName : Text) (w : Int32) : Prop :=
  if typeName.isEmpty then w = noIndex
  else ∃ i : Nat, w.toInt = i ∧ constants[i]? = some (.string typeName)

def TableAt (constants : Array Constant) (types : List Text) (t : TryTable) : Prop :=
  List.Forall₂ (FilterAt constants) types (t.clauses.map CatchClause.filter)

structure Keeps (d d' : Draft) : Prop where
  constants {i : Nat} {c : Constant} : d.constants[i]? = some c → d'.constants[i]? = some c
  globals {i : Nat} {name : Text} : d.globals[i]? = some name → d'.globals[i]? = some name
  bounded : d.Bounded → d'.Bounded

theorem Keeps.refl (d : Draft) : Keeps d d := ⟨id, id, id⟩

theorem Keeps.trans {d d' d'' : Draft} (h : Keeps d d') (h' : Keeps d' d'') : Keeps d d'' :=
  ⟨fun hi => h'.constants (h.constants hi), fun hi => h'.globals (h.globals hi),
    fun hd => h'.bounded (h.bounded hd)⟩

theorem Grows.keeps {N : Names} {d d' : Draft} (h : Grows N d d') : Keeps d d' :=
  ⟨h.constants, h.globals, h.bounded⟩

section

variable {constants constants' : Array Constant} {globals globals' : Array Text}
variable (hconstants : ∀ {i : Nat} {c : Constant}, constants[i]? = some c → constants'[i]? = some c)
variable (hglobals : ∀ {i : Nat} {name : Text}, globals[i]? = some name → globals'[i]? = some name)

include hconstants hglobals in
theorem Denotes.mono {o : Operand} {ins : Instruction} (h : Denotes constants globals o ins) :
    Denotes constants' globals' o ins := by
  cases o with
  | literal c => exact ⟨h.1, hconstants h.2⟩
  | errorType typeName => exact ⟨h.1, hconstants h.2⟩
  | read name => exact h.imp id fun h => ⟨h.1, hglobals h.2⟩
  | write name => exact h.imp id fun h => ⟨h.1, hglobals h.2⟩
  | other => exact h

include hconstants hglobals in
theorem SlotDenotes.mono {o : Operand} {slot : Slot} (h : SlotDenotes constants globals o slot) :
    SlotDenotes constants' globals' o slot := by
  cases slot with
  | fixed ins => exact Denotes.mono hconstants hglobals h
  | unclosed way => exact h

include hconstants in
theorem FilterAt.mono {typeName : Text} {w : Int32} (h : FilterAt constants typeName w) :
    FilterAt constants' typeName w := by
  unfold FilterAt at h ⊢
  split
  · next hempty => rwa [if_pos hempty] at h
  · next hempty =>
    rw [if_neg hempty] at h
    obtain ⟨i, hw, hi⟩ := h
    exact ⟨i, hw, hconstants hi⟩

include hconstants in
theorem TableAt.mono {types : List Text} {t : TryTable} (h : TableAt constants types t) :
    TableAt constants' types t := List.Forall₂.imp (fun _ _ => FilterAt.mono hconstants) h

end

/-- Code and try tables that were generated from one draft to another for what a text asks for. -/
structure Asks (d : Draft) (code : List Slot) (tables : List TryTable) (d' : Draft) (r : Requests) :
    Prop where
  keeps : Keeps d d'
  operands : d.Bounded → List.Forall₂ (SlotDenotes d'.constants d'.globals) r.operands code
  filters : d.Bounded → List.Forall₂ (TableAt d'.constants) r.filters tables

namespace Asks

variable {d c d' : Draft} {code more : List Slot} {tables tables' : List TryTable} {r r' : Requests}

theorem append (h : Asks d code tables c r) (h' : Asks c more tables' d' r') :
    Asks d (code ++ more) (tables ++ tables') d' (r ++ r') := by
  refine ⟨h.keeps.trans h'.keeps, fun hd => ?_, fun hd => ?_⟩
  · have hcode := (h.operands hd).imp fun _ _ =>
      SlotDenotes.mono h'.keeps.constants h'.keeps.globals
    exact List.rel_append hcode (h'.operands (h.keeps.bounded hd))
  · have htables := (h.filters hd).imp fun _ _ => TableAt.mono h'.keeps.constants
    exact List.rel_append htables (h'.filters (h.keeps.bounded hd))

theorem nil (h : Keeps d d') : Asks d [] [] d' {} := ⟨h, fun _ => .nil, fun _ => .nil⟩

theorem before (hkeeps : Keeps d c) (h : Asks c code tables d' r) : Asks d code tables d' r :=
  ⟨hkeeps.trans h.keeps, fun hd => h.operands (hkeeps.bounded hd),
    fun hd => h.filters (hkeeps.bounded hd)⟩

/-- The table of a try construct comes before those of its parts, which are known first. -/
theorem table (h : Asks d code tables d' r) {types : List Text} {t : TryTable}
    (ht : d.Bounded → TableAt d'.constants types t) :
    Asks d code (t :: tables) d' ⟨r.operands, types :: r.filters⟩ :=
  ⟨h.keeps, h.operands, fun hd => .cons (ht hd) (h.filters hd)⟩

theorem single (h : Keeps d d') {o : Operand} {slot : Slot}
    (hslot : d.Bounded → SlotDenotes d'.constants d'.globals o slot) :
    Asks d [slot] [] d' ⟨[o], []⟩ :=
  ⟨h, fun hd => .cons (hslot hd) .nil, fun _ => .nil⟩

end Asks

abbrev AsksCode (d : Draft) (code : List Instruction) (d' : Draft) (os : List Operand) : Prop :=
  Asks d (code.map .fixed) [] d' ⟨os, []⟩

namespace AsksCode

variable {d c d' : Draft} {code more : List Instruction} {os os' : List Operand}

theorem append (h : AsksCode d code c os) (h' : AsksCode c more d' os') :
    AsksCode d (code ++ more) d' (os ++ os') := by
  rw [AsksCode, List.map_append]
  exact Asks.append h h'

theorem nil (d : Draft) : AsksCode d [] d [] := Asks.nil (Keeps.refl d)

theorem single (h : Keeps d d') {o : Operand} {ins : Instruction}
    (hins : d.Bounded → Denotes d'.constants d'.globals o ins) : AsksCode d [ins] d' [o] :=
  Asks.single h hins

theorem other (d : Draft) {op : Opcode} (hconstant : op.kindA ≠ .constant)
    (hglobal : op.kindA ≠ .global) (a b : BitVec 24) : AsksCode d [.of op a b] d [.other] :=
  single (Keeps.refl d) fun _ => ⟨op, Instruction.op?_of .., hconstant, hglobal⟩

theorem snoc (h : AsksCode d code d' os) {op : Opcode} (hconstant : op.kindA ≠ .constant)
    (hglobal : op.kindA ≠ .global) (a b : BitVec 24) :
    AsksCode d (code ++ [.of op a b]) d' (os ++ [.other]) :=
  h.append (other d' hconstant hglobal a b)

end AsksCode

theorem asks_constant (c : Constant) : Yields (constantIndex c) fun d i d' =>
    Keeps d d' ∧ (d.Bounded → i.toNat ≤ maxOperand ∧ d'.constants[i.toNat]? = some c) := by
  refine (yields_constantIndex ⟨true, [], #[]⟩ c).mono ?_
  rintro d _ d' ⟨hquiet, n, rfl, hn⟩
  refine ⟨hquiet.toGrows.keeps, fun hd => ?_⟩
  obtain ⟨hlt, -⟩ := Array.getElem?_eq_some_iff.1 hn
  have hle : n ≤ maxOperand :=
    Nat.le_of_lt_succ (Nat.lt_of_lt_of_le hlt (hquiet.bounded hd).constants)
  rw [toNat_ofNat hle]
  exact ⟨hle, hn⟩

theorem asks_global (name : Text) : Yields (globalIndex name) fun d i d' =>
    Keeps d d' ∧ (d.Bounded → d'.globals[i.toNat]? = some name) := by
  refine (yields_globalIndex ⟨true, [], #[]⟩ name).mono ?_
  rintro d _ d' ⟨hquiet, -, n, rfl, hn⟩
  refine ⟨hquiet.toGrows.keeps, fun hd => ?_⟩
  obtain ⟨hlt, -⟩ := Array.getElem?_eq_some_iff.1 hn
  rwa [toNat_ofNat (Nat.le_of_lt_succ (Nat.lt_of_lt_of_le hlt (hquiet.bounded hd).globals))]

theorem asks_loadConstant (c : Constant) :
    Yields (loadConstant c) fun d ins d' => AsksCode d [ins] d' [.literal c] := by
  refine ((asks_constant c).bind fun _ => Yields.pure).mono ?_
  rintro d _ d' ⟨i, _, ⟨hkeeps, hi⟩, rfl, rfl⟩
  exact .single hkeeps fun hd => ⟨Instruction.op?_of .., (hi hd).2⟩

theorem asks_load (cx : Context) (name : Text) :
    Yields (load cx name) fun d ins d' => AsksCode d [ins] d' [.read name] := by
  refine Yields.get fun draft => ?_
  split
  · refine Yields.pure.mono ?_
    rintro _ _ d ⟨rfl, rfl⟩ rfl
    exact .single (o := .read name) (Keeps.refl d) fun _ => .inl (Instruction.op?_of ..)
  · split
    · refine ((asks_global name).bind fun _ => Yields.pure).mono ?_
      rintro _ _ d' ⟨i, _, ⟨hkeeps, hi⟩, rfl, rfl⟩ rfl
      exact .single (o := .read name) hkeeps fun hd => .inr ⟨Instruction.op?_of .., hi hd⟩
    · exact .fail ⟨nofun, nofun⟩

theorem asks_store (cx : Context) (name : Text) :
    Yields (store cx name) fun d ins d' => AsksCode d [ins] d' [.write name] := by
  have hkeeps := (yields_store cx name).mono fun d _ d' h => (h 0).quiet.toGrows.keeps
  have hstored : Yields (store cx name) fun d ins d' =>
      d.Bounded → Denotes d'.constants d'.globals (.write name) ins := by
    refine Yields.get fun draft => ?_
    dsimp only
    split
    · refine ((asks_global name).bind fun _ => Yields.pure).mono ?_
      rintro _ _ d' ⟨i, _, ⟨-, hi⟩, rfl, rfl⟩ rfl hd
      exact .inr ⟨Instruction.op?_of .., hi hd⟩
    · refine ((yields_localSlot_cases cx name).bind fun _ => Yields.pure).mono ?_
      rintro d _ d' ⟨i, _, -, rfl, rfl⟩ - -
      exact .inl (Instruction.op?_of ..)
  exact (hkeeps.and hstored).mono fun d ins d' h => .single h.1 h.2

theorem asks_logicalTest (d : Draft) (op : LogicalOp) :
    AsksCode d (logicalTest op) d (testOperands op) := by
  cases op with
  | and => exact .nil d
  | or => exact .other d (by decide) (by decide) _ _

theorem asks_literal (c : Constant) :
    Yields (do return [← loadConstant c]) fun d code d' => AsksCode d code d' [.literal c] := by
  refine ((asks_loadConstant c).bind fun _ => Yields.pure).mono ?_
  rintro d _ d' ⟨ins, _, h, rfl, rfl⟩
  exact h

theorem asks_snoc {x : Build (List Instruction)} {os : List Operand} {op : Opcode}
    (hx : Yields x fun d code d' => AsksCode d code d' os) (hconstant : op.kindA ≠ .constant)
    (hglobal : op.kindA ≠ .global) :
    Yields (do return (← x) ++ [.of op]) fun d code d' => AsksCode d code d' (os ++ [.other]) := by
  refine (hx.bind fun _ => Yields.pure).mono ?_
  rintro d _ d' ⟨code, _, h, rfl, rfl⟩
  exact h.snoc hconstant hglobal 0 0

mutual

theorem asks_expr (cx : Context) (start : Nat) : (e : Expr) →
    Yields (expr cx start e) fun d code d' => AsksCode d code d' (exprOperands e)
  | .number x => asks_literal (.number x)
  | .string t => asks_literal (.string t)
  | .boolean b => asks_literal (.boolean b)
  | .nil => asks_literal .nil
  | .identifier name => by
    refine ((asks_load cx name).bind fun _ => Yields.pure).mono ?_
    rintro d _ d' ⟨ins, _, h, rfl, rfl⟩
    exact h
  | .unary op e => asks_snoc (asks_expr cx start e) (by cases op <;> decide)
      (by cases op <;> decide)
  | .binary op l r => by
    refine ((asks_expr cx start l).bind fun left =>
      (asks_expr cx (start + left.length) r).bind fun _ => Yields.pure).mono ?_
    rintro d _ d' ⟨left, _, hl, right, _, hr, rfl, rfl⟩
    exact (hl.append hr).snoc (by cases op <;> decide) (by cases op <;> decide) 0 0
  | .logical op l r => by
    refine ((asks_expr cx start l).bind fun left =>
      (asks_expr cx (start + (left ++ logicalTest op).length + 1) r).bind fun right =>
      (asks_loadConstant _).bind fun _ => yields_operand.bind fun _ =>
      (asks_loadConstant _).bind fun _ => yields_operand.bind fun _ => Yields.pure).mono ?_
    rintro d _ d' ⟨left, d₁, hl, right, d₂, hr, otherwise, d₃, hother, short, _, ⟨rfl, -⟩,
      decided, _, hdecided, stop, _, ⟨rfl, -⟩, rfl, rfl⟩
    have hjump (c : Draft) : AsksCode c [.of .jumpIfFalse short] c [.other] :=
      .other c (by decide) (by decide) short 0
    have hstop (c : Draft) : AsksCode c [.of .jump stop] c [.other] :=
      .other c (by decide) (by decide) stop 0
    have htail := (hjump d₂).append (hother.append ((hstop _).append hdecided))
    exact (((hl.append (asks_logicalTest d₁ op)).append (hjump d₁)).append
      (hr.append (asks_logicalTest d₂ op))).append htail
  | .call name args => by
    refine ((uses_callee cx name args.length).bind fun _ =>
      (asks_exprs cx start args).bind fun _ => Yields.pure).mono ?_
    rintro d _ d' ⟨i, _, rfl, code, _, h, rfl, rfl⟩
    exact h.snoc (by decide) (by decide) _ _
  | .list items => by
    refine ((asks_exprs cx start items).bind fun _ =>
      yields_operand.bind fun _ => Yields.pure).mono ?_
    rintro d _ d' ⟨code, _, h, _, _, ⟨rfl, -⟩, rfl, rfl⟩
    exact h.snoc (by decide) (by decide) _ _
  | .dict entries => by
    refine ((asks_entries cx start entries).bind fun _ =>
      yields_operand.bind fun _ => Yields.pure).mono ?_
    rintro d _ d' ⟨code, _, h, _, _, ⟨rfl, -⟩, rfl, rfl⟩
    exact h.snoc (by decide) (by decide) _ _
  | .index c i => by
    refine ((asks_expr cx start c).bind fun collection =>
      (asks_expr cx (start + collection.length) i).bind fun _ => Yields.pure).mono ?_
    rintro d _ d' ⟨collection, _, hc, position, _, hi, rfl, rfl⟩
    exact (hc.append hi).snoc (by decide) (by decide) _ _
  | .newError typeName e => by
    refine ((asks_expr cx start e).bind fun _ =>
      (asks_constant (.string typeName)).bind fun _ => Yields.pure).mono ?_
    rintro d _ d' ⟨code, _, h, i, _, ⟨hkeeps, hi⟩, rfl, rfl⟩
    have htype : AsksCode _ [.of .makeError i] d' [.errorType typeName] :=
      .single hkeeps fun hd => ⟨Instruction.op?_of .., (hi hd).2⟩
    exact h.append htype
  | .errorMessage e => asks_snoc (asks_expr cx start e) (by decide) (by decide)
  | .errorType e => asks_snoc (asks_expr cx start e) (by decide) (by decide)
  | .fileText e => asks_snoc (asks_expr cx start e) (by decide) (by decide)

theorem asks_exprs (cx : Context) (start : Nat) : (es : List Expr) →
    Yields (exprs cx start es) fun d code d' => AsksCode d code d' (exprsOperands es)
  | [] => by
    refine Yields.pure.mono ?_
    rintro _ _ d ⟨rfl, rfl⟩
    exact .nil d
  | e :: rest => by
    refine ((asks_expr cx start e).bind fun first =>
      (asks_exprs cx (start + first.length) rest).bind fun _ => Yields.pure).mono ?_
    rintro d _ d' ⟨first, _, he, more, _, hrest, rfl, rfl⟩
    exact he.append hrest

theorem asks_entries (cx : Context) (start : Nat) : (entries : List (Text × Expr)) →
    Yields (dictEntries cx start entries) fun d code d' =>
      AsksCode d code d' (entriesOperands entries)
  | [] => by
    refine Yields.pure.mono ?_
    rintro _ _ d ⟨rfl, rfl⟩
    exact .nil d
  | (key, e) :: rest => by
    refine ((asks_loadConstant (.string key)).bind fun _ =>
      (asks_expr cx (start + 1) e).bind fun value =>
      (asks_entries cx (start + 1 + value.length) rest).bind fun _ => Yields.pure).mono ?_
    rintro d _ d' ⟨ins, _, hkey, value, _, he, more, _, hrest, rfl, rfl⟩
    exact (hkey.append he).append hrest

end

def AsksText (d : Draft) (g : Fragment) (d' : Draft) (r : Requests) : Prop :=
  Asks d g.slots g.tables d' r

namespace AsksText

variable {d c d' : Draft} {g h : Fragment} {r r' : Requests}

theorem append (hg : AsksText d g c r) (hh : AsksText c h d' r') :
    AsksText d (g ++ h) d' (r ++ r') := by
  rw [AsksText, Fragment.slots_append]
  exact Asks.append hg hh

theorem ofCode (cx : Context) {code : List Instruction} {os : List Operand}
    (h : AsksCode d code d' os) : AsksText d (emit cx code) d' ⟨os, []⟩ := by
  rw [AsksText, slots_emit]
  exact h

theorem nil (d : Draft) : AsksText d {} d {} := Asks.nil (Keeps.refl d)

theorem before (hkeeps : Keeps d c) (h : AsksText c g d' r) : AsksText d g d' r :=
  Asks.before hkeeps h

theorem other (d : Draft) (cx : Context) {op : Opcode} (hconstant : op.kindA ≠ .constant)
    (hglobal : op.kindA ≠ .global) (a b : BitVec 24) :
    AsksText d (emit cx [.of op a b]) d ⟨[.other], []⟩ := ofCode cx (.other d hconstant hglobal a b)

theorem closeExits (hg : AsksText d g d' r) (stop skip : BitVec 24) :
    AsksText d (g.closeExits stop skip) d' r := by
  refine ⟨hg.keeps, fun hd => ?_, hg.filters⟩
  have hcode := hg.operands hd
  rw [Fragment.slots, List.forall₂_map_right_iff] at hcode ⊢
  rw [Fragment.closeExits, List.forall₂_map_right_iff]
  refine hcode.imp ?_
  rintro o ⟨slot, line⟩ hslot
  have hjump (target : BitVec 24) : Denotes d'.constants d'.globals .other (.of .jump target) :=
    ⟨.jump, Instruction.op?_of .., by decide, by decide⟩
  rcases slot with ins | (_ | _)
  · exact hslot
  · obtain rfl : o = .other := hslot
    exact hjump stop
  · obtain rfl : o = .other := hslot
    exact hjump skip

end AsksText

theorem asks_leaveTries (start count : Nat) : Yields (leaveTries start count) fun d code d' =>
    AsksCode d code d' (List.replicate count .other) := by
  induction count generalizing start with
  | zero =>
    refine Yields.pure.mono ?_
    rintro _ _ d ⟨rfl, rfl⟩
    exact .nil d
  | succ count ih =>
    refine (yields_operand.bind fun _ => (ih (start + 1)).bind fun _ => Yields.pure).mono ?_
    rintro d _ d' ⟨target, _, ⟨rfl, -⟩, code, _, hrest, rfl, rfl⟩
    exact (AsksCode.other _ (by decide) (by decide) target 0).append hrest

theorem asks_loopExit (cx : Context) {leave : Nat} (hleave : cx.LeavesBy leave) (start : Nat)
    (way : LoopExit) : Yields (loopExit cx start way) fun d g d' =>
      AsksText d g d' (actionRequests leave (.exit way)) := by
  unfold loopExit
  split
  · exact .fail ⟨nofun, nofun⟩
  · next tries cleanups hloop =>
    split
    · exact .fail ⟨nofun, nofun⟩
    · next hsame =>
      refine ((asks_leaveTries start (cx.tries - tries)).bind fun _ => Yields.pure).mono ?_
      rintro d _ d' ⟨code, _, hcode, rfl, rfl⟩
      rw [hleave _ (Context.leave?_of_same hloop hsame)] at hcode
      have hopen : AsksText d' ⟨[⟨.unclosed way, cx.line⟩], []⟩ d' ⟨[.other], []⟩ :=
        Asks.single (Keeps.refl d') fun _ => rfl
      exact (AsksText.ofCode cx hcode).append hopen

theorem asks_catchStart (cx : Context) (binder : Text) :
    Yields (catchStart cx binder) fun d ins d' =>
      AsksCode d [ins] d' [if binder.isEmpty then .other else .write binder] := by
  unfold catchStart
  split
  · refine Yields.pure.mono ?_
    rintro _ _ d ⟨rfl, rfl⟩
    exact .other d (by decide) (by decide) 0 0
  · exact asks_store cx binder

theorem asks_filterIndex (typeName : Text) : Yields (filterIndex typeName) fun d w d' =>
    Keeps d d' ∧ (d.Bounded → FilterAt d'.constants typeName w) := by
  unfold filterIndex FilterAt
  split
  · refine Yields.pure.mono ?_
    rintro _ _ d ⟨rfl, rfl⟩
    exact ⟨Keeps.refl d, fun _ => rfl⟩
  · refine ((asks_constant _).bind fun _ => Yields.pure).mono ?_
    rintro d _ d' ⟨i, _, ⟨hkeeps, hi⟩, rfl, rfl⟩
    exact ⟨hkeeps, fun hd => ⟨i.toNat, toInt_ofNat (hi hd).1, (hi hd).2⟩⟩

theorem asks_emit {x : Build (List Instruction)} {os : List Operand} {op : Opcode} (cx : Context)
    (hx : Yields x fun d code d' => AsksCode d code d' os) (hconstant : op.kindA ≠ .constant)
    (hglobal : op.kindA ≠ .global) :
    Yields (do return emit cx ((← x) ++ [.of op])) fun d g d' =>
      AsksText d g d' ⟨os ++ [.other], []⟩ := by
  refine (hx.bind fun _ => Yields.pure).mono ?_
  rintro d _ d' ⟨code, _, h, rfl, rfl⟩
  exact .ofCode cx (h.snoc hconstant hglobal 0 0)

/-- A block asks for the constants and globals of its text, wherever it starts. -/
def Context.AsksBlock (cx : Context) (leave : Nat) (b : List Stmt) : Prop :=
  ∀ start, Yields (block cx start b) fun d g d' => AsksText d g d' (blockRequests leave b)

def Context.AsksCatches (cx : Context) (leave : Nat) (hs : List Handler) : Prop :=
  ∀ start, Yields (catches cx start hs) fun d rs d' =>
    (d.Bounded → List.Forall₂ (FilterAt d'.constants) (handlerTypes hs) (rs.map (·.1.filter))) ∧
      ∀ cx' out, AsksText d (joinHandlers (emit cx' [.of .popTry out]) rs) d'
      (handlersRequests leave hs)

def Context.AsksCleanup (cx : Context) (c : Option (List Stmt)) : Prop :=
  ∀ start, Yields (cleanupBlock cx start c) fun d r d' => AsksText d r.2 d' (cleanupRequests c)

def Context.AsksAction (cx : Context) (leave : Nat) (a : Action) : Prop :=
  ∀ start, Yields (action cx start a) fun d g d' => AsksText d g d' (actionRequests leave a)

section

variable {cx : Context} {leave : Nat} {b yes no : List Stmt} {hs : List Handler}
variable {c : Option (List Stmt)}

theorem asks_branch (hyes : cx.inBlock.AsksBlock leave yes) (hno : cx.inBlock.AsksBlock leave no)
    (c : Expr) : cx.AsksAction leave (.branch c yes no) := by
  intro start
  refine ((asks_expr cx start c).bind fun condition => (hyes _).bind fun whenTrue =>
    (yields_operand.bind fun _ => Yields.pure).ite (yields_operand.bind fun _ =>
      (hno _).bind fun _ => yields_operand.bind fun _ => Yields.pure)).mono ?_
  rintro d _ d' ⟨condition, d₁, hc, whenTrue, d₂, hyes, hrest⟩
  have hfirst (target : BitVec 24) := (AsksText.ofCode cx
    (hc.snoc (by decide : Opcode.jumpIfFalse.kindA ≠ .constant) (by decide) target 0)).append hyes
  rw [actionRequests]
  split at hrest
  · next hempty =>
    obtain ⟨target, _, ⟨rfl, -⟩, rfl, rfl⟩ := hrest
    rw [if_pos hempty]
    exact hfirst target
  · next hfull =>
    obtain ⟨target, _, ⟨rfl, -⟩, whenFalse, _, hno, out, _, ⟨rfl, -⟩, rfl, rfl⟩ := hrest
    rw [if_neg hfull]
    exact ((hfirst target).append (.other _ cx (by decide) (by decide) out 0)).append hno

theorem asks_whileLoop (hb : cx.inLoop.AsksBlock 0 b) (c : Expr) :
    cx.AsksAction leave (.whileLoop c b) := by
  intro start
  refine ((asks_expr cx start c).bind fun condition =>
    (hb (start + condition.length + 1)).bind fun _ => yields_operand.bind fun _ =>
    yields_operand.bind fun _ => Yields.pure).mono ?_
  rintro d _ d' ⟨condition, d₁, hc, body, _, hb, again, _, ⟨rfl, -⟩, stop, _, ⟨rfl, -⟩, rfl, rfl⟩
  have htest := AsksText.ofCode cx
    (hc.snoc (by decide : Opcode.jumpIfFalse.kindA ≠ .constant) (by decide) stop 0)
  exact (htest.append (hb.closeExits stop again)).append
    (.other d' cx (by decide) (by decide) again 0)

theorem asks_repeatLoop (hb : cx.inLoop.AsksBlock 0 b) (n : Expr) :
    cx.AsksAction leave (.repeatLoop n b) := by
  intro start
  refine ((yields_counterSlot cx.names cx).bind fun _ =>
    (asks_expr cx start n).bind fun count => (asks_loadConstant _).bind fun _ =>
    (hb (start + count.length + 1 + 4)).bind fun _ => (asks_loadConstant _).bind fun _ =>
    yields_operand.bind fun _ =>
    yields_operand.bind fun _ => yields_operand.bind fun _ => Yields.pure).mono ?_
  rintro d _ d' ⟨counter, d₀, ⟨hgrow, -⟩, count, d₁, hn, zero, d₂, hzero, body, d₃, hb, one, _,
    hone, again, _, ⟨rfl, -⟩, skip, _, ⟨rfl, -⟩, stop, _, ⟨rfl, -⟩, rfl, rfl⟩
  have hother (op : Opcode) (hconstant : op.kindA ≠ .constant) (hglobal : op.kindA ≠ .global)
      (a : BitVec 24) (c : Draft) : AsksCode c [.of op a] c [.other] :=
      .other c hconstant hglobal a 0
  have hslot (op : Opcode) (hkind : op.kindA = .slot) (c : Draft) :
      AsksCode c [.of op counter] c [.other] :=
        hother op (by simp [hkind]) (by simp [hkind]) counter c
  have htest := hn.append ((hslot .storeLocal rfl d₁).append ((hslot .loadLocal rfl d₁).append
    (hzero.append ((hother .greater (by decide) (by decide) 0 d₂).append
      (hother .jumpIfFalse (by decide) (by decide) stop d₂)))))
  have hstep := (hslot .loadLocal rfl d₃).append (hone.append
    ((hother .sub (by decide) (by decide) 0 d').append ((hslot .storeLocal rfl d').append
      (hother .jump (by decide) (by decide) again d'))))
  exact .before hgrow.keeps (((AsksText.ofCode cx htest).append (hb.closeExits stop skip)).append
    (.ofCode cx hstep))

theorem asks_guard (hb : cx.inTry.AsksBlock (leave + 1) b)
    (hhs : cx.inTry.AsksCatches (leave + 1) hs) (hc : cx.AsksCleanup c) :
    cx.AsksAction leave (.guard b hs c) := by
  intro start
  refine (yields_tableIndex.bind fun _ =>
    (hb (start + 1)).bind fun body => (hhs (start + 1 + body.size + 1)).bind fun handlers =>
    (hc (start + 1 + body.size + 1 +
      (handlers.map fun handler => handler.2.size + 1).sum)).bind fun _ =>
    yields_operand.bind fun _ => Yields.pure).mono ?_
  rintro d _ d' ⟨index, _, ⟨-, hle, rfl⟩, body, d₂, hb, handlers, d₃, hhs, cleanup, _, hc, out, _,
    ⟨rfl, -⟩, rfl, rfl⟩
  obtain ⟨hfilters, hcatches⟩ := hhs
  have hstart : Keeps d { d with tables := d.tables + 1 } :=
    ⟨id, id, fun hd => { hd with tables := Nat.succ_le_succ hle }⟩
  have hpush : AsksText d (emit cx [.of .pushTry index]) _ ⟨[.other], []⟩ :=
    .before hstart (.other _ cx (by decide) (by decide) index 0)
  have hexit : AsksText d₂ (emit cx [.of .popTry out]) d₂ ⟨[.other], []⟩ :=
    .other d₂ cx (by decide) (by decide) out 0
  have hbody := (hpush.append hb).append hexit
  have hcode := (hbody.append (hcatches cx out)).append hc
  refine Asks.table hcode fun hd => ?_
  have hhandlers := hfilters (hbody.keeps.bounded hd)
  rw [TableAt, List.map_map]
  exact hhandlers.imp fun _ _ h => h.mono hc.keeps.constants

end

mutual

theorem asks_action (cx : Context) (hcx : cx.Nests) {leave : Nat} (hleave : cx.LeavesBy leave) :
    (a : Action) → cx.AsksAction leave a
  | .write e => fun start => asks_emit cx (asks_expr cx start e) (by decide) (by decide)
  | .ask name => by
    intro start
    refine ((asks_store cx name).bind fun _ => Yields.pure).mono ?_
    rintro d _ d' ⟨ins, _, hstore, rfl, rfl⟩
    exact .ofCode cx ((AsksCode.other d (by decide) (by decide) 0 0).append hstore)
  | .set name e => by
    intro start
    refine ((asks_expr cx start e).bind fun _ =>
      (asks_store cx name).bind fun _ => Yields.pure).mono ?_
    rintro d _ d' ⟨code, _, he, ins, _, hstore, rfl, rfl⟩
    exact .ofCode cx (he.append hstore)
  | .setIndex c i e => by
    intro start
    refine ((asks_expr cx start c).bind fun collection =>
      (asks_expr cx (start + collection.length) i).bind fun position =>
      (asks_expr cx (start + collection.length + position.length) e).bind fun _ =>
        Yields.pure).mono ?_
    rintro d _ d' ⟨collection, _, hc, position, _, hi, value, _, he, rfl, rfl⟩
    exact .ofCode cx (((hc.append hi).append he).snoc (by decide) (by decide) 0 0)
  | .branch c yes no =>
    asks_branch (asks_block cx.inBlock hcx hleave yes) (asks_block cx.inBlock hcx hleave no) c
  | .whileLoop c b => asks_whileLoop (asks_block cx.inLoop cx.nests_inLoop cx.leavesBy_inLoop b) c
  | .repeatLoop n b =>
    asks_repeatLoop (asks_block cx.inLoop cx.nests_inLoop cx.leavesBy_inLoop b) n
  | .exit way => fun start => asks_loopExit cx hleave start way
  | .function name parameters body => by
    intro start
    unfold action
    split
    · exact .fail ⟨nofun, nofun⟩
    · refine Yields.pure.mono ?_
      rintro _ _ d ⟨rfl, rfl⟩
      exact .nil d
  | .use name args => by
    intro start
    refine ((uses_callee cx name args.length).bind fun _ =>
      (asks_exprs cx start args).bind fun _ => Yields.pure).mono ?_
    rintro d _ d' ⟨i, _, rfl, code, _, h, rfl, rfl⟩
    have hcall := AsksCode.other d' (by decide : Opcode.call.kindA ≠ .constant) (by decide) i
      (BitVec.ofNat 24 args.length)
    exact .ofCode cx (h.append (hcall.append (.other d' (by decide) (by decide) 0 0)))
  | .ret none => by
    intro start
    refine ((asks_loadConstant .nil).bind fun _ => Yields.pure).mono ?_
    rintro d _ d' ⟨ins, _, hload, rfl, rfl⟩
    exact .ofCode cx (hload.append (.other d' (by decide) (by decide) 0 0))
  | .ret (some e) => fun start => asks_emit cx (asks_expr cx start e) (by decide) (by decide)
  | .guard b hs c =>
    asks_guard (asks_block cx.inTry hcx.inTry (hleave.inTry hcx) b)
      (asks_catches cx.inTry hcx.inTry (hleave.inTry hcx) hs) (asks_cleanupBlock cx hcx c)
  | .throw e => fun start => asks_emit cx (asks_expr cx start e) (by decide) (by decide)
  | .writeFile c e => by
    intro start
    refine ((asks_expr cx start c).bind fun content =>
      (asks_expr cx (start + content.length) e).bind fun _ => Yields.pure).mono ?_
    rintro d _ d' ⟨content, _, hc, path, _, he, rfl, rfl⟩
    exact .ofCode cx ((hc.append he).snoc (by decide) (by decide) 0 0)

theorem asks_handler (cx : Context) (hcx : cx.Nests) {leave : Nat} (hleave : cx.LeavesBy leave)
    (start : Nat) : (h : Handler) → Yields (handler cx start h) fun d r d' => match h with
      | .mk typeName binder b => (d.Bounded → FilterAt d'.constants typeName r.1.filter) ∧
        AsksText d r.2 d'
          (⟨[if binder.isEmpty then .other else .write binder], []⟩ ++ blockRequests leave b)
  | .mk typeName binder b => by
    refine ((asks_filterIndex typeName).bind fun _ => yields_operand.bind fun _ =>
      (asks_catchStart cx binder).bind fun _ =>
      (asks_block cx hcx hleave b (start + 1)).bind fun _ => Yields.pure).mono ?_
    rintro d _ d' ⟨filter, d₁, ⟨hkeeps, hfilter⟩, _, _, ⟨rfl, -⟩, ins, d₂, hstart, body, _, hb, rfl,
      rfl⟩
    have hcode := (AsksText.ofCode cx hstart).append hb
    exact ⟨fun hd => (hfilter hd).mono hcode.keeps.constants, .before hkeeps hcode⟩

theorem asks_catches (cx : Context) (hcx : cx.Nests) {leave : Nat} (hleave : cx.LeavesBy leave) :
    (hs : List Handler) → cx.AsksCatches leave hs
  | [] => by
    refine fun start => Yields.pure.mono ?_
    rintro _ _ d ⟨rfl, rfl⟩
    exact ⟨fun _ => .nil, fun _ _ => .nil d⟩
  | .mk typeName binder b :: rest => by
    intro start
    refine ((asks_handler cx hcx hleave start (.mk typeName binder b)).bind fun first =>
      (asks_catches cx hcx hleave rest (start + first.2.size + 1)).bind fun _ =>
        Yields.pure).mono ?_
    rintro d _ d' ⟨first, d₁, ⟨hfilter, hh⟩, more, _, ⟨hfilters, hrest⟩, rfl, rfl⟩
    refine ⟨fun hd => ?_, fun cx' out => ?_⟩
    · have hkeeps := (hrest cx 0).keeps
      exact .cons ((hfilter hd).mono hkeeps.constants) (hfilters (hh.keeps.bounded hd))
    · exact (hh.append (.other d₁ cx' (by decide) (by decide) out 0)).append (hrest cx' out)

theorem asks_cleanupBlock (cx : Context) (hcx : cx.Nests) : (c : Option (List Stmt)) →
    cx.AsksCleanup c
  | none => by
    refine fun start => Yields.pure.mono ?_
    rintro _ _ d ⟨rfl, rfl⟩
    exact .nil d
  | some b => by
    intro start
    refine (yields_operand.bind fun _ =>
      (asks_block cx.inCleanup hcx.inCleanup (hcx.leavesBy_inCleanup 0) b start).bind fun _ =>
        Yields.pure).mono ?_
    rintro d _ d' ⟨_, _, ⟨rfl, -⟩, body, _, hb, rfl, rfl⟩
    exact hb.append (.other d' cx (by decide) (by decide) 0 0)

theorem asks_block (cx : Context) (hcx : cx.Nests) {leave : Nat} (hleave : cx.LeavesBy leave) :
    (b : List Stmt) → cx.AsksBlock leave b
  | [] => by
    refine fun start => Yields.pure.mono ?_
    rintro _ _ d ⟨rfl, rfl⟩
    exact .nil d
  | .mk line a :: rest => by
    intro start
    refine ((asks_action (cx.onLine line) (hcx.onLine line) (hleave.onLine line) a start).bind
      fun first => (asks_block (cx.onLine line) (hcx.onLine line) (hleave.onLine line) rest
        (start + first.size)).bind fun _ => Yields.pure).mono ?_
    rintro d _ d' ⟨first, _, ha, more, _, hrest, rfl, rfl⟩
    exact ha.append hrest

end

end Compile
end ScriptMachine
