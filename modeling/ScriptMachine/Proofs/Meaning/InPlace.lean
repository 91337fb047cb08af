import ScriptMachine.Proofs.Compile.Occurrence
import ScriptMachine.Proofs.Meaning.Executed
import ScriptMachine.Proofs.Meaning.Result

namespace ScriptMachine
namespace Machine

/-- A computation on a world with a value or an error, or without an end. -/
def Compute (α : Type) := World → Option (Except ScriptError α × World)

namespace Compute

instance : Monad Compute where
  pure a := fun w => some (.ok a, w)
  bind m f := fun w =>
    match m w with
    | none => none
    | some (.ok a, w) => f a w
    | some (.error e, w) => some (.error e, w)

/-- An error leaves the world as it was. -/
def perform (g : World → Except ScriptError (α × World)) : Compute α := fun w =>
  match g w with
  | .ok (a, w) => some (.ok a, w)
  | .error e => some (.error e, w)

def truth (v : Value) : Compute Bool := perform fun w => w.keep (.ok (w.heap.truthy v))

end Compute

/-- Where a variable is kept. -/
inductive Variable where
  | slot (i : Nat)
  | global (i : Nat)
deriving DecidableEq

end Machine

namespace Meaning
open Machine Compile

/-- What an evaluation in a frame starts from. -/
structure Standpoint where
  program : Program
  limits : Limits
  fuel : Nat
  state : State
  /-- What the name that is read at an address stands for. -/
  reads : Nat → Variable
  /-- The index of the function with a name. -/
  callee : Text → Nat

namespace Standpoint

/-- The state at an address, with operands on top of the stack from the top down. -/
def stateAt (x : Standpoint) (pc : Nat) (operands : List Value) (w : World) : State :=
  { x.state with
    stack := x.state.stack ++ operands.reverse.toArray
    frame := { x.state.frame with ip := pc }
    world := w }

def read (x : Standpoint) (name : Text) : Variable → Compute Value
  | .slot i => pure (x.state.stack.getD (x.state.frame.base + i) .nil)
  | .global i => .perform fun w => w.keep (w.global i name)

def call (x : Standpoint) (pc : Nat) (operands : List Value) (name : Text) (args : List Value) :
    Compute Value := fun w =>
  callResult x.program x.limits x.fuel (x.stateAt (pc + 1) (args.reverse ++ operands) w)
    (x.callee name) args.length

mutual

/-- The value of an expression whose code starts at an address. -/
def expr (x : Standpoint) (pc : Nat) (operands : List Value) : Expr → Compute Value
  | .number n => pure (.number n)
  | .string t => pure (.string t)
  | .boolean b => pure (.boolean b)
  | .nil => pure .nil
  | .identifier name => x.read name (x.reads pc)
  | .unary op e => do
    let v ← expr x pc operands e
    .perform fun w => w.keep (op.apply w.heap v)
  | .binary op l r => do
    let left ← expr x pc operands l
    let right ← expr x (pc + exprSize l) (left :: operands) r
    .perform fun w => w.onHeap fun h => op.apply h left right
  | .logical op l r => do
    let left ← expr x pc operands l
    let holds ← .truth left
    if holds = decide (op = .or) then pure (.boolean holds)
    else do
      let right ← expr x (pc + exprSize l + testSize op + 1) operands r
      let holds ← .truth right
      pure (.boolean holds)
  | .call name args => do
    let values ← exprs x pc operands args
    x.call (pc + exprsSize args) operands name values
  | .list items => do
    let values ← exprs x pc operands items
    .perform fun w => w.onHeap fun h => .ok (h.newList values.toArray)
  | .dict pairs => do
    let pairs ← entries x pc operands pairs
    .perform fun w => w.onHeap fun h => .ok (h.newDict (.ofPairs pairs))
  | .index c i => do
    let collection ← expr x pc operands c
    let position ← expr x (pc + exprSize c) (collection :: operands) i
    .perform fun w => w.keep (w.heap.indexGet collection position)
  | .newError typeName e => do
    let message ← expr x pc operands e
    .perform fun w => w.onHeap fun h => .ok (h.newError (.ofTypeName typeName (h.display message)))
  | .errorMessage e => do
    let v ← expr x pc operands e
    .perform fun w => w.keep ((w.heap.expectError v).map fun e => .string e.message)
  | .errorType e => do
    let v ← expr x pc operands e
    .perform fun w => w.keep ((w.heap.expectError v).map fun e => .string e.typeName)
  | .fileText e => do
    let path ← expr x pc operands e
    .perform fun w => w.keep (fileText w.files path)

def exprs (x : Standpoint) (pc : Nat) (operands : List Value) : List Expr → Compute (List Value)
  | [] => pure []
  | e :: rest => do
    let v ← expr x pc operands e
    let values ← exprs x (pc + exprSize e) (v :: operands) rest
    pure (v :: values)

/-- A key is an operand of its own, below its value. -/
def entries (x : Standpoint) (pc : Nat) (operands : List Value) :
    List (Text × Expr) → Compute (List (Text × Value))
  | [] => pure []
  | (key, e) :: rest => do
    let v ← expr x (pc + 1) (.string key :: operands) e
    let pairs ← entries x (pc + 1 + exprSize e) (v :: .string key :: operands) rest
    pure ((key, v) :: pairs)

end

end Standpoint

section

variable {p : Program} {limits : Limits} {c : Site} {cells operands : List Value} {pc : Nat}

/-- From a state the machine computes what an evaluation says. An error is raised above the locals
and all that is below them. -/
def Gets (p : Program) (limits : Limits) (c : Site) (cells : List Value) (pc' : α → Nat)
    (operands' : α → List Value) (s : State) : Option (Except ScriptError α × World) → Prop
  | none => True
  | some (.ok a, w) => w.globals.size = p.globals.size ∧
    Leads p limits s fun s => ∃ stats, s = c.state cells (pc' a) (operands' a) ⟨w, stats⟩
  | some (.error e, w) => Leads p limits s (Raises p limits (c.state cells 0 [] ⟨w, none⟩) e w)

def Carries (p : Program) (limits : Limits) (c : Site) (cells : List Value) (pc : Nat)
    (operands : List Value) (m : Compute α) (pc' : α → Nat) (operands' : α → List Value) : Prop :=
  ∀ x : Scene, x.world.globals.size = p.globals.size →
    Gets p limits c cells pc' operands' (c.state cells pc operands x) (m x.world)

theorem Gets.after {pc' : α → Nat} {operands' : α → List Value} {s : State} {P : State → Prop}
    {r : Option (Except ScriptError α × World)} (h : Leads p limits s P)
    (hP : ∀ t, P t → Gets p limits c cells pc' operands' t r)
    (hglobals : ∀ a w, r = some (.ok a, w) → w.globals.size = p.globals.size) :
    Gets p limits c cells pc' operands' s r := by
  cases r with
  | none => trivial
  | some r =>
    obtain ⟨r, w⟩ := r
    cases r with
    | ok a => exact ⟨hglobals a w rfl, h.trans fun t ht => (hP t ht).2⟩
    | error e => exact h.trans hP

theorem Carries.bind_of {m : Compute α} {f : α → Compute β} {pc' : α → Nat} {pc'' : β → Nat}
    {operands' : α → List Value} {operands'' : β → List Value}
    (hm : Carries p limits c cells pc operands m pc' operands')
    (hf : ∀ a, (∃ w w', m w = some (.ok a, w')) →
      Carries p limits c cells (pc' a) (operands' a) (f a) pc'' operands'') :
    Carries p limits c cells pc operands (m >>= f) pc'' operands'' := by
  intro x hx
  have hfirst := hm x hx
  simp only [Bind.bind]
  cases hrun : m x.world with
  | none => trivial
  | some r =>
    obtain ⟨r, w⟩ := r
    rw [hrun] at hfirst
    cases r with
    | error e => exact hfirst
    | ok a =>
      have hnext := hf a ⟨x.world, w, hrun⟩
      refine Gets.after hfirst.2 ?_ ?_
      · rintro t ⟨stats, rfl⟩
        exact hnext ⟨w, stats⟩ hfirst.1
      · intro b w' hb
        have := hnext ⟨w, none⟩ hfirst.1
        dsimp only at hb this
        rw [hb] at this
        exact this.1

theorem Carries.bind {m : Compute α} {f : α → Compute β} {pc' : α → Nat} {pc'' : β → Nat}
    {operands' : α → List Value} {operands'' : β → List Value}
    (hm : Carries p limits c cells pc operands m pc' operands')
    (hf : ∀ a, Carries p limits c cells (pc' a) (operands' a) (f a) pc'' operands'') :
    Carries p limits c cells pc operands (m >>= f) pc'' operands'' :=
  hm.bind_of fun a _ => hf a

theorem carries_here {a : α} {pc' : α → Nat} {operands' : α → List Value} (hpc : pc' a = pc)
    (hoperands : operands' a = operands) :
    Carries p limits c cells pc operands (pure a) pc' operands' := by
  intro x hx
  exact ⟨hx, Leads.here ⟨x.stats, by rw [hpc, hoperands]⟩⟩

theorem Compute.bind_pure (m : Compute α) : (m >>= Pure.pure) = m := by
  funext w
  simp only [Bind.bind]
  cases m w with
  | none => rfl
  | some r =>
    obtain ⟨r, w'⟩ := r
    cases r <;> rfl

theorem Carries.after {m : Compute α} {pc' pc'' : α → Nat} {operands' operands'' : α → List Value}
    (hm : Carries p limits c cells pc operands m pc' operands')
    (h : ∀ a, Carries p limits c cells (pc' a) (operands' a) (pure a) pc'' operands'') :
    Carries p limits c cells pc operands m pc'' operands'' :=
  Compute.bind_pure m ▸ hm.bind h

theorem Carries.before {a : α} {m : Compute β} {pc' : α → Nat} {pc'' : β → Nat}
    {operands' : α → List Value} {operands'' : β → List Value}
    (h : Carries p limits c cells pc operands (pure a) pc' operands')
    (hm : Carries p limits c cells (pc' a) (operands' a) m pc'' operands'') :
    Carries p limits c cells pc operands m pc'' operands'' := by
  have hboth : Carries p limits c cells pc operands (pure a >>= fun _ => m) pc'' operands'' := by
    refine h.bind_of ?_
    rintro _ ⟨_, _, ⟨⟩⟩
    exact hm
  exact hboth

theorem raises_here {s : State} {e : ScriptError} {x : Scene} {pc' : Nat} {rest : List Value}
    (h : step p limits s = raise p (c.state cells pc' rest x) e) :
    Raises p limits (c.state cells 0 [] ⟨x.world, none⟩) e x.world s := by
  refine ⟨_, [], h, ⟨rfl, rfl, ?_, List.prefix_refl _, pc', [], rfl⟩, rfl, by simp⟩
  exact ⟨rest.reverse, by simp [Site.state]⟩

theorem carries_silent {L : Layout} {op : Opcode} {a b : Nat} {v : α} {pc' : α → Nat}
    {operands' : α → List Value} (hat : L.At pc op a b)
    (hexec : ∀ x : Scene, execute L.program limits (c.state cells (pc + 1) operands x) op
      (.of op (BitVec.ofNat 24 a) (BitVec.ofNat 24 b)) =
        some (.next (c.state cells (pc' v) (operands' v) x))) :
    Carries L.program limits c cells pc operands (pure v) pc' operands' := by
  intro x hx
  obtain ⟨stats, hstep⟩ := step_of_at limits c cells operands hat x
  exact ⟨hx, Leads.step (hstep.trans (hexec _)) (Leads.here ⟨stats, rfl⟩)⟩

/-- There are as many globals after a computation as before. -/
def KeepsGlobals (g : World → Except ScriptError (α × World)) : Prop :=
  ∀ w a w', g w = .ok (a, w') → w'.globals.size = w.globals.size

theorem keepsGlobals_keep (r : World → Except ScriptError α) :
    KeepsGlobals fun w => w.keep (r w) := by
  intro w a w' h
  simp only [World.keep] at h
  cases hr : r w with
  | error e => simp [hr, Except.map] at h
  | ok b =>
    simp only [hr, Except.map, Except.ok.injEq, Prod.mk.injEq] at h
    rw [h.2]

theorem keepsGlobals_onHeap (f : Heap → Except ScriptError (α × Heap)) :
    KeepsGlobals fun w => w.onHeap f := by
  intro w a w' h
  simp only [World.onHeap] at h
  cases hf : f w.heap with
  | error e => simp [hf, Except.map] at h
  | ok r =>
    simp only [hf, Except.map, Except.ok.injEq, Prod.mk.injEq] at h
    rw [← h.2]

theorem carries_perform {L : Layout} {op : Opcode} {a b : Nat} {operands' : α → List Value}
    {g : World → Except ScriptError (α × World)} (hat : L.At pc op a b) (rest : List Value)
    (hkeeps : KeepsGlobals g)
    (hexec : ∀ x : Scene, x.world.globals.size = L.program.globals.size →
      execute L.program limits (c.state cells (pc + 1) operands x) op
        (.of op (BitVec.ofNat 24 a) (BitVec.ofNat 24 b)) =
          c.after L.program cells (pc + 1) rest operands' x (g x.world)) :
    Carries L.program limits c cells pc operands (.perform g) (fun _ => pc + 1) operands' := by
  intro x hx
  obtain ⟨stats, hstep⟩ := step_of_at limits c cells operands hat x
  have hafter := hstep.trans (hexec ⟨x.world, stats⟩ hx)
  simp only [Compute.perform]
  cases hg : g x.world with
  | ok r =>
    obtain ⟨v, w⟩ := r
    rw [hg] at hafter
    exact ⟨(hkeeps _ _ _ hg).trans hx, Leads.step hafter (Leads.here ⟨stats, rfl⟩)⟩
  | error e =>
    rw [hg] at hafter
    exact Leads.here (raises_here (x := ⟨x.world, stats⟩) hafter)

theorem carries_loads {L : Layout} {k : Constant} (h : L.Loads pc k) :
    Carries L.program limits c cells pc operands (pure k.toValue) (fun _ => pc + 1)
      fun v => v :: operands := by
  obtain ⟨i, hat, hi⟩ := h
  exact carries_silent hat fun x => execute_loadConst hat.2.1 hi

theorem carries_jumpIfFalse {L : Layout} {a : Nat} (hat : L.At pc .jumpIfFalse a) (v : Value) :
    Carries L.program limits c cells pc (v :: operands) (.truth v)
      (fun holds => if holds then pc + 1 else a) fun _ => operands := by
  intro x hx
  obtain ⟨stats, hstep⟩ := step_of_at limits c cells (v :: operands) hat x
  exact ⟨hx, Leads.step (hstep.trans (execute_jumpIfFalse hat.2.1 v)) (Leads.here ⟨stats, rfl⟩)⟩

theorem carries_decides {L : Layout} {op : LogicalOp} {t a : Nat} (htests : L.Tests op pc t)
    (hat : L.At t .jumpIfFalse a) (v : Value) :
    Carries L.program limits c cells pc (v :: operands) (.truth v)
      (fun holds => if holds = decide (op = .or) then a else t + 1) fun _ => operands := by
  cases op with
  | and =>
    cases htests
    refine (carries_jumpIfFalse hat v).after fun holds => ?_
    refine carries_here ?_ rfl
    cases holds <;> rfl
  | or =>
    obtain ⟨hnot, rfl⟩ := htests
    have htruth : Compute.truth v =
        ((.perform fun w => w.keep (UnaryOp.not.apply w.heap v)) >>= fun u =>
        .truth u >>= fun holds =>
          pure (!holds)) := by
      funext w
      simp [Compute.truth, Compute.perform, World.keep, Except.map, UnaryOp.apply, Bind.bind,
        Pure.pure, Heap.truthy]
    rw [htruth]
    refine (carries_perform hnot operands (keepsGlobals_keep _) fun x _ =>
      execute_unaryOp .not _ v).bind fun u => (carries_jumpIfFalse hat u).bind fun holds => ?_
    refine carries_here ?_ rfl
    cases holds <;> rfl

theorem carries_decided {L : Layout} {op : LogicalOp} {u : Nat}
    (hload : L.Loads (u + 1) (.boolean (op = .and))) (hskip : L.At (u + 2) .jump (u + 4))
    (hload' : L.Loads (u + 3) (.boolean (op = .or))) (holds : Bool) :
    Carries L.program limits c cells (if holds = decide (op = .or) then u + 3 else u + 1) operands
      (pure (.boolean holds)) (fun _ => u + 4) fun v => v :: operands := by
  by_cases hdecisive : holds = decide (op = .or)
  · rw [if_pos hdecisive, hdecisive]
    exact carries_loads hload'
  · have hother : holds = decide (op = .and) := by
      cases op <;> simpa using hdecisive
    rw [if_neg hdecisive, hother]
    exact (carries_loads hload).after fun v => carries_silent hskip fun x => execute_jump hskip.2.1

end

/-- A frame of a placed function whose locals are on the stack, in a state that is otherwise
arbitrary. -/
structure Fitted (L : Layout) (x : Standpoint) (c : Site) (cells : List Value) : Prop where
  verified : Verify.Verified L.program
  returns : ReturnsDischarge False L.program
  program : x.program = L.program
  state : ∃ pc scene, x.state = c.state cells pc [] scene
  locals : L.locals.length ≤ cells.length
  guards : ∀ g ∈ c.guards, g.frame ≤ c.callers.size
  pending : ∀ q ∈ c.pending, q.frame ≤ c.callers.size
  reads {pc : Nat} {name : Text} : L.Reads pc name →
    (∃ i, x.reads pc = .slot i ∧ L.At pc .loadLocal i ∧ i < L.locals.length) ∨
      ∃ i, x.reads pc = .global i ∧ L.At pc .loadGlobal i ∧ L.program.globals[i]? = some name
  calls {pc given : Nat} {name : Text} : L.Calls pc name given →
    L.At pc .call (x.callee name) given ∧ x.callee name < L.program.functions.size

section

variable {L : Layout} {x : Standpoint} {c : Site} {cells operands : List Value} {pc : Nat}

theorem Fitted.stateAt (h : Fitted L x c cells) (pc : Nat) (operands : List Value) (w : World) :
    ∃ stats, x.stateAt pc operands w = c.state cells pc operands ⟨w, stats⟩ := by
  obtain ⟨pc₀, scene, hstate⟩ := h.state
  refine ⟨scene.stats, ?_⟩
  rw [Standpoint.stateAt, hstate]
  simp [Site.state]

theorem carries_reads (h : Fitted L x c cells) {name : Text} (hat : L.Reads pc name) :
    Carries L.program x.limits c cells pc operands (x.read name (x.reads pc)) (fun _ => pc + 1)
      fun v => v :: operands := by
  rcases h.reads hat with ⟨i, hreads, hat, hi⟩ | ⟨i, hreads, hat, hname⟩
  · rw [hreads, Standpoint.read]
    have hlt : i < cells.length := Nat.lt_of_lt_of_le hi h.locals
    have hcell : cells[i]? = some cells[i] := List.getElem?_eq_getElem hlt
    obtain ⟨pc₀, scene, hstate⟩ := h.state
    have hvalue : x.state.stack.getD (x.state.frame.base + i) .nil = cells[i] := by
      rw [Array.getD_eq_getD_getElem?, hstate, Site.frame_state, c.getElem?_state _ _ _ _ hcell,
        Option.getD_some]
    rw [hvalue]
    exact carries_silent hat fun x => execute_loadLocal hat.2.1 hcell
  · rw [hreads, Standpoint.read]
    exact carries_perform hat operands (keepsGlobals_keep _) fun x hx =>
      execute_loadGlobal hat.2.1 hname hx

theorem raises_below {p : Program} {limits : Limits} {y : Scene} {e : ScriptError} {w : World}
    {s : State} (h : Raises p limits (c.state cells pc operands y) e w s) :
    Raises p limits (c.state cells 0 [] ⟨w, none⟩) e w s := by
  obtain ⟨u, own, hraise, hextends, hguards, hlets⟩ := h
  obtain ⟨ip, above, hframes⟩ := hextends.frames
  refine ⟨u, own, hraise, ⟨hextends.world, rfl, ?_, hextends.pending, ip, above, hframes⟩, hguards,
    hlets⟩
  refine List.IsPrefix.trans ?_ hextends.stack
  exact ⟨operands.reverse, by simp [Site.state]⟩

theorem carries_call (h : Fitted L x c cells) {name : Text} {args : List Value}
    (hat : L.Calls pc name args.length) :
    Carries L.program x.limits c cells pc (args.reverse ++ operands) (x.call pc operands name args)
      (fun _ => pc + 1) fun v => v :: operands := by
  intro y hy
  obtain ⟨hcall, hindex⟩ := h.calls hat
  obtain ⟨stats, hstep⟩ := step_of_at x.limits c cells (args.reverse ++ operands) hcall y
  simp only [execute, Instruction.of, toNat_ofNat hcall.2.1, toNat_ofNat hcall.2.2] at hstep
  obtain ⟨stats', hstate⟩ := h.stateAt (pc + 1) (args.reverse ++ operands) y.world
  have hbelow : (c.state cells (pc + 1) (args.reverse ++ operands) ⟨y.world, stats⟩).below
      args.length = c.state cells (pc + 1) operands ⟨y.world, stats⟩ :=
    (c.split_state cells (pc + 1) operands ⟨y.world, stats⟩ args).2.2
  simp only [Standpoint.call, hstate, h.program]
  cases hresult : callResult L.program x.limits x.fuel
      (c.state cells (pc + 1) (args.reverse ++ operands) ⟨y.world, stats'⟩) (x.callee name)
      args.length with
  | none => trivial
  | some r =>
    obtain ⟨r, w⟩ := r
    have hsame : callResult L.program x.limits x.fuel
        (c.state cells (pc + 1) (args.reverse ++ operands) ⟨y.world, stats⟩) (x.callee name)
        args.length = some (r, w) := hresult
    obtain ⟨hvalue, herror⟩ := leads_of_callResult h.verified h.returns
      (Array.getElem?_eq_getElem hindex) ⟨h.guards, h.pending⟩ (by simp; omega) hy hstep hsame
    rw [hbelow] at hvalue herror
    cases r with
    | ok v =>
      obtain ⟨hglobals, hleads⟩ := hvalue v rfl
      refine ⟨hglobals, hleads.trans ?_⟩
      rintro t ⟨stats'', rfl⟩
      exact Leads.here ⟨stats'', by rw [Site.push_state]; rfl⟩
    | error e => exact (herror e rfl).trans fun t ht => Leads.here (raises_below ht)

theorem Compute.exists_of_bind {m : Compute α} {f : α → Compute β} {b : β} {w w'' : World}
    (h : (m >>= f) w = some (.ok b, w'')) :
    ∃ a w', m w = some (.ok a, w') ∧ f a w' = some (.ok b, w'') := by
  simp only [Bind.bind] at h
  split at h
  · cases h
  · next a w' hm => exact ⟨a, w', hm, h⟩
  · cases h

theorem Standpoint.length_exprs {es : List Expr} {values : List Value} {w w' : World}
    (h : x.exprs pc operands es w = some (.ok values, w')) : values.length = es.length := by
  induction es generalizing pc operands values w with
  | nil =>
    rw [exprs] at h
    cases h
    rfl
  | cons e es ih =>
    rw [exprs] at h
    obtain ⟨v, w₁, -, h⟩ := Compute.exists_of_bind h
    obtain ⟨rest, w₂, hrest, h⟩ := Compute.exists_of_bind h
    cases h
    rw [List.length_cons, List.length_cons, ih hrest]

theorem Standpoint.length_entries {es : List (Text × Expr)} {pairs : List (Text × Value)}
    {w w' : World} (h : x.entries pc operands es w = some (.ok pairs, w')) :
    pairs.length = es.length := by
  induction es generalizing pc operands pairs w with
  | nil =>
    rw [entries] at h
    cases h
    rfl
  | cons entry es ih =>
    obtain ⟨key, e⟩ := entry
    rw [entries] at h
    obtain ⟨v, w₁, -, h⟩ := Compute.exists_of_bind h
    obtain ⟨rest, w₂, hrest, h⟩ := Compute.exists_of_bind h
    cases h
    rw [List.length_cons, List.length_cons, ih hrest]

mutual

/-- The code of an expression carries out its evaluation. -/
theorem carries_expr (h : Fitted L x c cells) :
    (e : Expr) → ∀ {pc pc' : Nat} {operands : List Value}, ExprAt L e pc pc' →
    Carries L.program x.limits c cells pc operands (x.expr pc operands e)
      (fun _ => pc') fun v => v :: operands
  | .number n, _, _, _, ⟨hload, hpc⟩ => by
    subst hpc
    rw [Standpoint.expr]
    exact carries_loads hload
  | .string t, _, _, _, ⟨hload, hpc⟩ => by
    subst hpc
    rw [Standpoint.expr]
    exact carries_loads hload
  | .boolean b, _, _, _, ⟨hload, hpc⟩ => by
    subst hpc
    rw [Standpoint.expr]
    exact carries_loads hload
  | .nil, _, _, _, ⟨hload, hpc⟩ => by
    subst hpc
    rw [Standpoint.expr]
    exact carries_loads hload
  | .identifier name, _, _, _, ⟨hread, hpc⟩ => by
    subst hpc
    rw [Standpoint.expr]
    exact carries_reads h hread
  | .unary op e, _, _, operands, ⟨q, he, hat, hpc⟩ => by
    subst hpc
    rw [Standpoint.expr]
    exact (carries_expr h e he).bind fun v =>
      carries_perform hat operands (keepsGlobals_keep _) fun y _ => execute_unaryOp op _ v
  | .binary op l r, _, _, operands, ⟨q, s, hl, hr, hat, hpc⟩ => by
    subst hpc
    rw [Standpoint.expr, ← ExprAt.end_eq l hl]
    refine (carries_expr h l hl).bind fun left => (carries_expr h r hr).bind fun right => ?_
    exact carries_perform hat operands (keepsGlobals_onHeap _) fun y _ =>
      execute_binaryOp op _ left right
  | .logical op l r, _, _, operands, ⟨q, t, s, u, hl, htest, hjump, hr, htest', hjump', hload,
      hskip, hload', hpc⟩ => by
    subst hpc
    rw [Standpoint.expr, ← ExprAt.end_eq l hl, ← htest.end_eq]
    refine (carries_expr h l hl).bind fun left => ?_
    refine (carries_decides htest hjump left).bind fun holds => ?_
    by_cases hdecisive : holds = decide (op = .or)
    · simp only [if_pos hdecisive]
      rw [hdecisive]
      exact carries_loads hload'
    · simp only [if_neg hdecisive]
      refine (carries_expr h r hr).bind fun right => ?_
      exact (carries_decides htest' hjump' right).bind fun holds =>
        carries_decided hload hskip hload' holds
  | .call name args, _, _, operands, ⟨q, hargs, hcall, hpc⟩ => by
    subst hpc
    rw [Standpoint.expr, ← ExprsAt.end_eq args hargs]
    refine (carries_exprs h args hargs).bind_of fun values ⟨w, w', hvalues⟩ => ?_
    exact carries_call h (Standpoint.length_exprs hvalues ▸ hcall)
  | .list items, _, _, operands, ⟨q, hitems, hat, hpc⟩ => by
    subst hpc
    rw [Standpoint.expr]
    refine (carries_exprs h items hitems).bind_of fun values ⟨w, w', hvalues⟩ => ?_
    exact carries_perform hat operands (keepsGlobals_onHeap _) fun y _ =>
      execute_makeList hat.2.1 (Standpoint.length_exprs hvalues)
  | .dict pairs, _, _, operands, ⟨q, hpairs, hat, hpc⟩ => by
    subst hpc
    rw [Standpoint.expr]
    refine (carries_entries h pairs hpairs).bind_of fun values ⟨w, w', hvalues⟩ => ?_
    exact carries_perform hat operands (keepsGlobals_onHeap _) fun y _ =>
      execute_makeDict hat.2.1 (Standpoint.length_entries hvalues)
  | .index l r, _, _, operands, ⟨q, s, hl, hr, hat, hpc⟩ => by
    subst hpc
    rw [Standpoint.expr, ← ExprAt.end_eq l hl]
    refine (carries_expr h l hl).bind fun left => (carries_expr h r hr).bind fun right => ?_
    exact carries_perform hat operands (keepsGlobals_keep _) fun y _ =>
      execute_indexGet _ left right
  | .newError typeName e, _, _, operands, ⟨q, i, he, hat, hi, hpc⟩ => by
    subst hpc
    rw [Standpoint.expr]
    exact (carries_expr h e he).bind fun v =>
      carries_perform hat operands (keepsGlobals_onHeap _) fun y _ => execute_makeError hat.2.1 hi v
  | .errorMessage e, _, _, operands, ⟨q, he, hat, hpc⟩ => by
    subst hpc
    rw [Standpoint.expr]
    exact (carries_expr h e he).bind fun v =>
      carries_perform hat operands (keepsGlobals_keep _) fun y _ =>
        execute_errorText (fun _ _ => rfl) _ v
  | .errorType e, _, _, operands, ⟨q, he, hat, hpc⟩ => by
    subst hpc
    rw [Standpoint.expr]
    exact (carries_expr h e he).bind fun v =>
      carries_perform hat operands (keepsGlobals_keep _) fun y _ =>
        execute_errorText (fun _ _ => rfl) _ v
  | .fileText e, _, _, operands, ⟨q, he, hat, hpc⟩ => by
    subst hpc
    rw [Standpoint.expr]
    exact (carries_expr h e he).bind fun v =>
      carries_perform hat operands (keepsGlobals_keep _) fun y _ => execute_readFile _ v

theorem carries_exprs (h : Fitted L x c cells) : (es : List Expr) →
    ∀ {pc pc' : Nat} {operands : List Value}, ExprsAt L es pc pc' →
    Carries L.program x.limits c cells pc operands (x.exprs pc operands es) (fun _ => pc')
      fun values => values.reverse ++ operands
  | [], _, _, _, hpc => by
    rw [Standpoint.exprs]
    exact carries_here hpc rfl
  | e :: rest, _, _, _, ⟨q, he, hrest⟩ => by
    rw [Standpoint.exprs, ← ExprAt.end_eq e he]
    refine (carries_expr h e he).bind fun v => (carries_exprs h rest hrest).bind fun values => ?_
    exact carries_here rfl (by simp)

theorem carries_entries (h : Fitted L x c cells) : (es : List (Text × Expr)) →
    ∀ {pc pc' : Nat} {operands : List Value}, EntriesAt L es pc pc' →
    Carries L.program x.limits c cells pc operands (x.entries pc operands es) (fun _ => pc')
      fun pairs => (flat pairs).reverse ++ operands
  | [], _, _, _, hpc => by
    rw [Standpoint.entries]
    exact carries_here hpc rfl
  | (key, e) :: rest, _, _, _, ⟨q, hkey, he, hrest⟩ => by
    rw [Standpoint.entries, ← ExprAt.end_eq e he]
    refine (carries_loads hkey).before ?_
    refine (carries_expr h e he).bind fun v => (carries_entries h rest hrest).bind fun pairs => ?_
    exact carries_here rfl (by simp [flat, Constant.toValue])

end

end

end Meaning
end ScriptMachine
