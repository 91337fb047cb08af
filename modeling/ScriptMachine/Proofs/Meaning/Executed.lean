import ScriptMachine.Proofs.Meaning.Site

namespace ScriptMachine
namespace Machine

def World.onHeap (w : World) (f : Heap → Except ScriptError (α × Heap)) :
    Except ScriptError (α × World) :=
  (f w.heap).map fun r => (r.1, { w with heap := r.2 })

def World.keep (w : World) (r : Except ScriptError α) : Except ScriptError (α × World) :=
  r.map fun a => (a, w)

/-- The value of a global, which scripts know by its name. -/
def World.global (w : World) (index : Nat) (name : Text) : Except ScriptError Value :=
  match w.globals.getD index none with
  | some v => .ok v
  | none =>
    .error (.make .undefinedReference (Text.concat ["Variable '", name, "' is not defined"]))

theorem World.onHeap_keep (w : World) (r : Except ScriptError α) :
    (w.onHeap fun h => r.map fun a => (a, h)) = w.keep r := by
  cases r <;> rfl

end Machine

namespace Meaning
open Machine Compile

/-- The state after an instruction, where an error leaves the operands `rest`. -/
def Site.after (c : Site) (p : Program) (cells : List Value) (pc : Nat) (rest : List Value)
    (operands : α → List Value) (x : Scene) : Except ScriptError (α × World) → Option Progress
  | .ok (a, world) => some (.next (c.state cells pc (operands a) { x with world }))
  | .error e => raise p (c.state cells pc rest x) e

section

variable {p : Program} {limits : Limits} {c : Site} {cells operands : List Value} {pc : Nat}
    {x : Scene}

theorem step_of_at (limits : Limits) (c : Site) (cells operands : List Value) {L : Layout}
    {op : Opcode} {a b : Nat} (hat : L.At pc op a b) (x : Scene) :
    ∃ stats, step L.program limits (c.state cells pc operands x) =
      execute L.program limits (c.state cells (pc + 1) operands ⟨x.world, stats⟩) op
        (.of op (BitVec.ofNat 24 a) (BitVec.ofNat 24 b)) := by
  obtain ⟨stats, hstats⟩ := c.fetched_state cells pc operands x op
  refine ⟨stats, ?_⟩
  rw [step_of_code hat.1 (Instruction.op?_of _ _ _), hstats]

theorem settle_state (r : Except ScriptError Value) :
    settle p (c.state cells pc operands x) r =
      c.after p cells pc operands (· :: operands) x (x.world.keep r) := by
  cases r with
  | ok v => simp [settle, Site.after, World.keep, Except.map]
  | error e => rfl

theorem execute_unaryOp (op : UnaryOp) (ins : Instruction) (v : Value) :
    execute p limits (c.state cells pc (v :: operands) x) op.opcode ins =
      c.after p cells pc operands (· :: operands) x (x.world.keep (op.apply x.world.heap v)) := by
  rw [← settle_state]
  cases op <;> simp [UnaryOp.opcode, execute, unary, UnaryOp.apply]

theorem execute_binaryOp (op : BinaryOp) (ins : Instruction) (l r : Value) :
    execute p limits (c.state cells pc (r :: l :: operands) x) op.opcode ins =
      c.after p cells pc operands (· :: operands) x (x.world.onHeap fun h => op.apply h l r) := by
  cases op with
  | plus =>
    simp only [BinaryOp.opcode, execute, add, Site.pop2?_state, Option.bind_eq_bind,
      Option.bind_some, BinaryOp.apply, Site.world_state, World.onHeap]
    cases x.world.heap.add l r with
    | ok r => simp [Except.map, Site.after]
    | error e => rfl
  | equal | notEqual =>
    simp [BinaryOp.opcode, execute, binary, settle, BinaryOp.apply, World.onHeap, Except.map,
      Site.after]
  | _ =>
    simp only [BinaryOp.opcode, execute, binary, Site.pop2?_state, Option.bind_eq_bind,
      Option.bind_some, settle_state, BinaryOp.apply, World.onHeap_keep]

theorem execute_indexGet (ins : Instruction) (l r : Value) :
    execute p limits (c.state cells pc (r :: l :: operands) x) .indexGet ins =
      c.after p cells pc operands (· :: operands) x (x.world.keep (x.world.heap.indexGet l r)) := by
  rw [← settle_state]
  simp [execute, binary]

theorem execute_errorText {op : Opcode} {g : ScriptError → Text}
    (hexec : ∀ s ins, execute p limits s op ins =
      unary p s fun h v => (h.expectError v).map fun e => .string (g e))
    (ins : Instruction) (v : Value) :
    execute p limits (c.state cells pc (v :: operands) x) op ins =
      c.after p cells pc operands (· :: operands) x
        (x.world.keep ((x.world.heap.expectError v).map fun e => .string (g e))) := by
  rw [← settle_state]
  simp [hexec, unary]

theorem execute_readFile (ins : Instruction) (v : Value) :
    execute p limits (c.state cells pc (v :: operands) x) .readFile ins =
      c.after p cells pc operands (· :: operands) x (x.world.keep (fileText x.world.files v)) := by
  rw [← settle_state]
  simp only [execute, readFile, Site.pop?_state, Option.bind_eq_bind, Option.bind_some, fileText,
    Site.world_state]
  cases v with
  | string path => cases h : x.world.files.read? path <;> simp [h, settle]
  | _ => rfl

theorem execute_loadConst {i : Nat} {k : Constant} (hi : i ≤ maxOperand)
    (hk : p.constants[i]? = some k) :
    execute p limits (c.state cells pc operands x) .loadConst (.of .loadConst (BitVec.ofNat 24 i)) =
      some (.next (c.state cells pc (k.toValue :: operands) x)) := by
  simp [execute, Instruction.of, toNat_ofNat hi, hk]

theorem execute_loadLocal {i : Nat} {v : Value} (hi : i ≤ maxOperand) (hv : cells[i]? = some v) :
    execute p limits (c.state cells pc operands x) .loadLocal (.of .loadLocal (BitVec.ofNat 24 i)) =
      some (.next (c.state cells pc (v :: operands) x)) := by
  simp [execute, Instruction.of, toNat_ofNat hi, c.getElem?_state _ _ _ _ hv]

theorem execute_loadGlobal {i : Nat} {name : Text} (hi : i ≤ maxOperand)
    (hname : p.globals[i]? = some name) (hglobals : x.world.globals.size = p.globals.size) :
    execute p limits (c.state cells pc operands x) .loadGlobal (.of .loadGlobal (BitVec.ofNat 24 i)) =
      c.after p cells pc operands (· :: operands) x (x.world.keep (x.world.global i name)) := by
  obtain ⟨hlt, -⟩ := Array.getElem?_eq_some_iff.1 hname
  rw [← hglobals] at hlt
  have hfound : x.world.globals[i]? = some x.world.globals[i] := Array.getElem?_eq_getElem hlt
  rw [← settle_state]
  simp only [execute, loadGlobal, Instruction.of, toNat_ofNat hi, Site.world_state, hfound,
    Option.bind_eq_bind, Option.bind_some, hname, World.global, Array.getD_eq_getD_getElem?,
    Option.getD_some]
  cases x.world.globals[i] <;> rfl

theorem execute_makeList {n : Nat} {values : List Value} (hn : n ≤ maxOperand)
    (hlength : values.length = n) :
    execute p limits (c.state cells pc (values.reverse ++ operands) x) .makeList
        (.of .makeList (BitVec.ofNat 24 n)) =
      c.after p cells pc operands (· :: operands) x
        (x.world.onHeap fun h => .ok (h.newList values.toArray)) := by
  obtain ⟨hle, htop, hbelow⟩ := c.split_state cells pc operands x values
  subst hlength
  simp only [execute, makeList, Instruction.of, toNat_ofNat hn, hle, if_true, htop, hbelow,
    Site.pushNew_state]
  rfl

def flat (pairs : List (Text × Value)) : List Value :=
  pairs.flatMap fun pair => [.string pair.1, pair.2]

theorem pairUp_flat (pairs : List (Text × Value)) : pairUp (flat pairs) = .ok pairs := by
  induction pairs with
  | nil => rfl
  | cons pair pairs ih =>
    simp only [flat, List.flatMap_cons] at ih ⊢
    simp only [List.cons_append, List.nil_append, pairUp, ih]
    rfl

theorem length_flat (pairs : List (Text × Value)) : (flat pairs).length = pairs.length * 2 := by
  induction pairs with
  | nil => rfl
  | cons pair pairs ih =>
    simp only [flat, List.flatMap_cons] at ih ⊢
    simp only [List.length_append, ih, List.length_cons, List.length_nil]
    omega

theorem execute_makeDict {n : Nat} {pairs : List (Text × Value)} (hn : n ≤ maxOperand)
    (hlength : pairs.length = n) :
    execute p limits (c.state cells pc ((flat pairs).reverse ++ operands) x) .makeDict
        (.of .makeDict (BitVec.ofNat 24 n)) =
      c.after p cells pc operands (· :: operands) x
        (x.world.onHeap fun h => .ok (h.newDict (.ofPairs pairs))) := by
  obtain ⟨hle, htop, hbelow⟩ := c.split_state cells pc operands x (flat pairs)
  rw [length_flat] at hle htop hbelow
  subst hlength
  simp only [execute, makeDict, Instruction.of, toNat_ofNat hn, hle, if_true, htop, hbelow,
    pairUp_flat, Site.pushNew_state]
  rfl

theorem execute_makeError {i : Nat} {typeName : Text} (hi : i ≤ maxOperand)
    (hname : p.constants[i]? = some (.string typeName)) (v : Value) :
    execute p limits (c.state cells pc (v :: operands) x) .makeError
        (.of .makeError (BitVec.ofNat 24 i)) =
      c.after p cells pc operands (· :: operands) x
        (x.world.onHeap fun h => .ok (h.newError (.ofTypeName typeName (h.display v)))) := by
  simp [execute, makeError, Instruction.of, toNat_ofNat hi, hname, Constant.text, World.onHeap,
    Except.map, Site.after]

theorem execute_jumpIfFalse {a : Nat} (ha : a ≤ maxOperand) (v : Value) :
    execute p limits (c.state cells pc (v :: operands) x) .jumpIfFalse
        (.of .jumpIfFalse (BitVec.ofNat 24 a)) =
      some (.next (c.state cells (if x.world.heap.truthy v then pc else a) operands x)) := by
  simp only [execute, Site.pop?_state, Option.map_some, Instruction.of, toNat_ofNat ha,
    Site.world_state]
  by_cases h : x.world.heap.truthy v <;> simp [h]

theorem execute_jump {a : Nat} (ha : a ≤ maxOperand) :
    execute p limits (c.state cells pc operands x) .jump (.of .jump (BitVec.ofNat 24 a)) =
      some (.next (c.state cells a operands x)) := by
  simp [execute, Instruction.of, toNat_ofNat ha]

end

end Meaning
end ScriptMachine
