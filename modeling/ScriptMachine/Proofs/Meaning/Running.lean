import ScriptMachine.Proofs.Meaning.Executed

namespace ScriptMachine

theorem BinaryOp.apply_untraced (op : BinaryOp) (h : Heap) (l r : Value) :
    op.apply h.untraced l r = (op.apply h l r).map fun r => (r.1, r.2.untraced) := by
  have hmap (x : Except ScriptError Value) : (x.map fun v => (v, h.untraced)) =
      (x.map fun v => (v, h)).map fun r => (r.1, r.2.untraced) := by
    cases x <;> rfl
  cases op with
  | plus => exact h.add_untraced l r
  | equal | notEqual => simp [BinaryOp.apply, Except.map]
  | _ => exact hmap _

theorem BinaryOp.fresh (op : BinaryOp) (h : Heap) (l r : Value) : Fresh (op.apply h l r) := by
  cases op with
  | plus => exact h.fresh_add l r
  | equal | notEqual => exact fresh_ok _
  | minus | times | dividedBy | modulo => exact (fresh_arithmetic _ l r).map _
  | _ => exact (fresh_order _ l r).map _

namespace Meaning
open Machine Compile

theorem untraced_traced (p : Program) (s : State) (e : ScriptError) :
    (traced p s e).untraced = e.untraced := by
  unfold traced
  split <;> rfl

theorem Site.extends_state (c : Site) (cells : List Value) (pc : Nat) (operands : List Value)
    (x : Scene) : Extends (c.state cells 0 [] x) (c.state cells pc operands x) := by
  refine ⟨rfl, rfl, ?_, List.prefix_refl _, pc, [], rfl⟩
  exact ⟨operands.reverse, by simp [Site.state]⟩

theorem Site.Stands.fits {c : Site} {cells : List Value} (hc : c.Stands cells.length) (pc : Nat)
    (x : Scene) : Fits c.guards (c.state cells pc [] x).depth (c.state cells pc [] x).stack.size
      (c.state cells pc [] x).pending.size := by
  simpa using hc.guards

section

variable {p : Program} {limits : Limits} {K : Nat} {c : Site} {cells operands : List Value}
variable {pc : Nat}

/-- The next instruction raises an error and leaves the locals of the function as they are given. -/
def Raised (p : Program) (limits : Limits) (c : Site) (cells : List Value) (e : ScriptError)
    (μ : Memory) (s : State) : Prop :=
  ∃ x e', Scene.Shows p x μ ∧ e'.untraced = e ∧
    step p limits s = unwind p e' (c.state cells 0 [] x) c.guards

/-- From a state the machine computes what an evaluation says, in at least `K` steps if the
evaluation has no end. -/
def Computes (p : Program) (limits : Limits) (K : Nat) (c : Site) (cells : List Value)
    (pc' : α → Nat) (operands' : α → List Value) (s : State) :
    Option (Except ScriptError α × Memory) → Prop
  | none => Lasts p limits K s
  | some (.ok a, μ) => Leads p limits s fun s =>
    ∃ x, Scene.Shows p x μ ∧ s = c.state cells (pc' a) (operands' a) x
  | some (.error e, μ) => Leads p limits s (Raised p limits c cells e μ)

def Runs (p : Program) (limits : Limits) (K : Nat) (c : Site) (cells : List Value) (pc : Nat)
    (operands : List Value) (m : Eval α) (pc' : α → Nat) (operands' : α → List Value) : Prop :=
  ∀ x μ, Scene.Shows p x μ →
    Computes p limits K c cells pc' operands' (c.state cells pc operands x) (m μ)

theorem Computes.step {k : Nat} {pc' : α → Nat} {operands' : α → List Value} {s t : State}
    {r : Option (Except ScriptError α × Memory)} (hstep : step p limits s = some (.next t))
    (h : Computes p limits k c cells pc' operands' t r) :
    Computes p limits (k + 1) c cells pc' operands' s r := by
  cases r with
  | none => exact Lasts.step hstep h
  | some r =>
    obtain ⟨r, μ⟩ := r
    cases r with
    | ok a => exact Leads.step hstep h
    | error e => exact Leads.step hstep h

theorem Computes.after {pc' : α → Nat} {operands' : α → List Value} {s : State} {P : State → Prop}
    {r : Option (Except ScriptError α × Memory)} (hs : Leads p limits s P)
    (h : ∀ t, P t → Computes p limits K c cells pc' operands' t r) :
    Computes p limits K c cells pc' operands' s r := by
  cases r with
  | none => exact hs.lasts h
  | some r =>
    obtain ⟨r, μ⟩ := r
    cases r with
    | ok a => exact hs.trans h
    | error e => exact hs.trans h

theorem Runs.bind_of {m : Eval α} {f : α → Eval β} {pc' : α → Nat} {pc'' : β → Nat}
    {operands' : α → List Value} {operands'' : β → List Value}
    (hm : Runs p limits K c cells pc operands m pc' operands')
    (hf : ∀ a, (∃ μ μ', m μ = some (.ok a, μ')) →
      Runs p limits K c cells (pc' a) (operands' a) (f a) pc'' operands'') :
    Runs p limits K c cells pc operands (m >>= f) pc'' operands'' := by
  intro x μ hx
  have hfirst := hm x μ hx
  simp only [Bind.bind]
  cases hrun : m μ with
  | none =>
    rw [hrun] at hfirst
    exact hfirst
  | some r =>
    obtain ⟨r, μ'⟩ := r
    rw [hrun] at hfirst
    cases r with
    | error e => exact hfirst
    | ok a =>
      refine Computes.after hfirst ?_
      rintro s ⟨x', hx', rfl⟩
      exact hf a ⟨μ, μ', hrun⟩ x' μ' hx'

theorem Runs.bind {m : Eval α} {f : α → Eval β} {pc' : α → Nat} {pc'' : β → Nat}
    {operands' : α → List Value} {operands'' : β → List Value}
    (hm : Runs p limits K c cells pc operands m pc' operands')
    (hf : ∀ a, Runs p limits K c cells (pc' a) (operands' a) (f a) pc'' operands'') :
    Runs p limits K c cells pc operands (m >>= f) pc'' operands'' :=
  hm.bind_of fun a _ => hf a

theorem Runs.mono {m : Eval α} {k : Nat} {pc' : α → Nat} {operands' : α → List Value}
    (h : Runs p limits K c cells pc operands m pc' operands') (hk : k ≤ K) :
    Runs p limits k c cells pc operands m pc' operands' := by
  intro x μ hx
  have hrun := h x μ hx
  cases hr : m μ with
  | none =>
    rw [hr] at hrun
    exact hrun.mono hk
  | some r =>
    obtain ⟨r, μ'⟩ := r
    rw [hr] at hrun
    cases r with
    | ok a => exact hrun
    | error e => exact hrun

theorem Eval.bind_pure (m : Eval α) : (m >>= Pure.pure) = m := by
  funext μ
  simp only [Bind.bind]
  cases m μ with
  | none => rfl
  | some r =>
    obtain ⟨r, μ'⟩ := r
    cases r <;> rfl

theorem Runs.after {m : Eval α} {pc' pc'' : α → Nat} {operands' operands'' : α → List Value}
    (hm : Runs p limits K c cells pc operands m pc' operands')
    (h : ∀ a, Runs p limits K c cells (pc' a) (operands' a) (pure a) pc'' operands'') :
    Runs p limits K c cells pc operands m pc'' operands'' :=
  m.bind_pure ▸ hm.bind h

theorem Runs.before {a : α} {m : Eval β} {pc' : α → Nat} {pc'' : β → Nat}
    {operands' : α → List Value} {operands'' : β → List Value}
    (h : Runs p limits K c cells pc operands (pure a) pc' operands')
    (hm : Runs p limits K c cells (pc' a) (operands' a) m pc'' operands'') :
    Runs p limits K c cells pc operands m pc'' operands'' := by
  have hboth : Runs p limits K c cells pc operands (pure a >>= fun _ => m) pc'' operands'' := by
    refine h.bind_of ?_
    rintro _ ⟨_, _, ⟨⟩⟩
    exact hm
  exact hboth

theorem runs_here {a : α} {pc' : α → Nat} {operands' : α → List Value} (hpc : pc' a = pc)
    (hoperands : operands' a = operands) :
    Runs p limits K c cells pc operands (pure a) pc' operands' := by
  intro x μ hx
  exact Leads.here ⟨x, hx, by rw [hpc, hoperands]⟩

theorem raised_of_step {s : State} {x : Scene} {μ : Memory} {e : ScriptError} {pc' : Nat}
    {operands' : List Value} (hc : c.Stands cells.length) (hx : x.Shows p μ)
    (h : step p limits s = raise p (c.state cells pc' operands' x) e) :
    Raised p limits c cells e.untraced μ s := by
  refine ⟨x, traced p (c.state cells pc' operands' x) e, hx, untraced_traced p _ e, ?_⟩
  rw [h, raise, Site.guards_state]
  exact unwind_of_extends (c.extends_state cells pc' operands' x) (hc.fits 0 x)

theorem runs_silent {L : Layout} {op : Opcode} {a b : Nat} {v : α} {pc' : α → Nat}
    {operands' : α → List Value} (hat : L.At pc op a b)
    (hexec : ∀ x : Scene, execute L.program limits (c.state cells (pc + 1) operands x) op
      (.of op (BitVec.ofNat 24 a) (BitVec.ofNat 24 b)) =
        some (.next (c.state cells (pc' v) (operands' v) x))) :
    Runs L.program limits K c cells pc operands (pure v) pc' operands' := by
  intro x μ hx
  obtain ⟨stats, hstep⟩ := step_of_at limits c cells operands hat x
  rw [hexec] at hstep
  exact Leads.step hstep (Leads.here ⟨_, hx.counted stats, rfl⟩)

theorem exists_of_map_eq_ok {r : Except ε α} {f : α → β} {b : β} (h : r.map f = .ok b) :
    ∃ a, r = .ok a ∧ f a = b := by
  cases r with
  | ok a => exact ⟨a, rfl, by simpa [Except.map] using h⟩
  | error e => cases h

/-- The result of an instruction as scripts see it. -/
def seen (p : Program) : Except ScriptError (α × World) → Except ScriptError (α × Memory)
  | .ok (a, w) => .ok (a, Memory.of p w)
  | .error e => .error e.untraced

theorem runs_update {L : Layout} {op : Opcode} {a b : Nat} {operands' : α → List Value}
    (rest : List Value) {f : Memory → Except ScriptError (α × Memory)}
    (g : World → Except ScriptError (α × World)) (hat : L.At pc op a b) (hc : c.Stands cells.length)
    (hseen : ∀ w, w.globals.size = L.program.globals.size →
      f (Memory.of L.program w) = seen L.program (g w))
    (hkeeps : ∀ w v w', g w = .ok (v, w') → w'.globals.size = w.globals.size)
    (hexec : ∀ x : Scene, execute L.program limits (c.state cells (pc + 1) operands x) op
      (.of op (BitVec.ofNat 24 a) (BitVec.ofNat 24 b)) =
        c.after L.program cells (pc + 1) rest operands' x (g x.world)) :
    Runs L.program limits K c cells pc operands (.update f) (fun _ => pc + 1) operands' := by
  rintro x _ ⟨hglobals, rfl⟩
  obtain ⟨stats, hstep⟩ := step_of_at limits c cells operands hat x
  rw [hexec] at hstep
  simp only [Eval.update, hseen x.world hglobals]
  cases hg : g x.world with
  | ok r =>
    obtain ⟨v, w⟩ := r
    rw [hg] at hstep
    exact Leads.step hstep (Leads.here ⟨⟨w, stats⟩, ⟨(hkeeps _ _ _ hg).trans hglobals, rfl⟩, rfl⟩)
  | error e =>
    rw [hg] at hstep
    exact Leads.here (raised_of_step hc (x := ⟨x.world, stats⟩) ⟨hglobals, rfl⟩ hstep)

theorem runs_onHeap {L : Layout} {op : Opcode} {a b : Nat} {operands' : α → List Value}
    (rest : List Value) {f : Heap → Except ScriptError (α × Heap)} (hat : L.At pc op a b)
    (hc : c.Stands cells.length)
    (huntraced : ∀ h, f h.untraced = (f h).map fun r => (r.1, r.2.untraced))
    (hfresh : ∀ h, Fresh (f h))
    (hexec : ∀ x : Scene, execute L.program limits (c.state cells (pc + 1) operands x) op
      (.of op (BitVec.ofNat 24 a) (BitVec.ofNat 24 b)) =
        c.after L.program cells (pc + 1) rest operands' x (x.world.onHeap f)) :
    Runs L.program limits K c cells pc operands (.onHeap f) (fun _ => pc + 1) operands' := by
  refine runs_update rest (fun w => w.onHeap f) hat hc ?_ ?_ hexec
  · intro w _
    have hheap : (Memory.of L.program w).heap = w.heap.untraced := rfl
    simp only [hheap, huntraced, World.onHeap]
    cases hf : f w.heap with
    | ok r => rfl
    | error e => simp only [Except.map, seen, hfresh _ e hf]
  · intro w _ w' hw
    obtain ⟨_, -, hw⟩ := exists_of_map_eq_ok hw
    cases hw
    rfl

theorem fresh_fileText (files : Storage) (path : Value) : Fresh (fileText files path) := by
  unfold fileText
  split
  · split
    · exact fresh_ok _
    · exact fresh_make _ _
  · exact fresh_make _ _

theorem Eval.query_heap (g : Heap → Except ScriptError α) :
    (Eval.query fun μ => g μ.heap) = Eval.onHeap fun h => (g h).map fun v => (v, h) := by
  funext μ
  simp only [Eval.query, Eval.onHeap, Eval.update]
  cases g μ.heap <;> rfl

theorem runs_settle {L : Layout} {op : Opcode} {a b : Nat} {rest : List Value}
    (g : Heap → Except ScriptError Value) (hat : L.At pc op a b) (hc : c.Stands cells.length)
    (huntraced : ∀ h, g h.untraced = g h) (hfresh : ∀ h, Fresh (g h))
    (hexec : ∀ x : Scene, execute L.program limits (c.state cells (pc + 1) operands x) op
      (.of op (BitVec.ofNat 24 a) (BitVec.ofNat 24 b)) =
        c.after L.program cells (pc + 1) rest (· :: rest) x (x.world.keep (g x.world.heap))) :
    Runs L.program limits K c cells pc operands (.query fun μ => g μ.heap) (fun _ => pc + 1)
      fun v => v :: rest := by
  rw [Eval.query_heap]
  refine runs_onHeap rest hat hc ?_ (fun h => (hfresh h).map _) fun x => ?_
  · intro h
    rw [huntraced]
    cases g h <;> rfl
  · rw [hexec]
    simp only [World.onHeap, World.keep]
    cases g x.world.heap <;> rfl

theorem runs_unaryOp {L : Layout} (op : UnaryOp) (hat : L.At pc op.opcode)
    (hc : c.Stands cells.length) (v : Value) :
    Runs L.program limits K c cells pc (v :: operands) (.query fun μ => op.apply μ.heap v)
      (fun _ => pc + 1) fun w => w :: operands := by
  refine runs_settle (op.apply · v) hat hc ?_ ?_ fun x => execute_unaryOp op _ v
  · intro h
    cases op <;> simp [UnaryOp.apply]
  · intro h
    cases op with
    | not => exact fresh_ok _
    | negate => exact fresh_negate v

theorem runs_binaryOp {L : Layout} (op : BinaryOp) (hat : L.At pc op.opcode)
    (hc : c.Stands cells.length) (l r : Value) :
    Runs L.program limits K c cells pc (r :: l :: operands) (.onHeap fun h => op.apply h l r)
      (fun _ => pc + 1) fun w => w :: operands := by
  exact runs_onHeap operands hat hc (op.apply_untraced · l r) (op.fresh · l r) fun x =>
    execute_binaryOp op _ l r

theorem runs_indexGet {L : Layout} (hat : L.At pc .indexGet) (hc : c.Stands cells.length)
    (l r : Value) : Runs L.program limits K c cells pc (r :: l :: operands)
      (.query fun μ => μ.heap.indexGet l r) (fun _ => pc + 1) fun w => w :: operands := by
  exact runs_settle (Heap.indexGet · l r) hat hc (by simp) (Heap.fresh_indexGet · l r) fun x =>
    execute_indexGet _ l r

theorem runs_errorText {L : Layout} {op : Opcode} {g : ScriptError → Text} (hat : L.At pc op)
    (hc : c.Stands cells.length) (hg : ∀ e, g e.untraced = g e)
    (hexec : ∀ s ins, execute L.program limits s op ins =
      unary L.program s fun h v => (h.expectError v).map fun e => .string (g e)) (v : Value) :
    Runs L.program limits K c cells pc (v :: operands)
      (.query fun μ => (μ.heap.expectError v).map fun e => .string (g e)) (fun _ => pc + 1)
      fun w => w :: operands := by
  refine runs_settle (fun h => (h.expectError v).map fun e => .string (g e)) hat hc (fun h => ?_)
    (fun h => (h.fresh_expectError v).map _) fun x => execute_errorText hexec _ v
  rw [h.expectError_untraced]
  cases h.expectError v with
  | ok e => simp [Except.map, hg]
  | error e => rfl

theorem runs_loads {L : Layout} {k : Constant} (h : L.Loads pc k) :
    Runs L.program limits K c cells pc operands (pure k.toValue) (fun _ => pc + 1)
      fun v => v :: operands := by
  obtain ⟨i, hat, hi⟩ := h
  exact runs_silent hat fun x => execute_loadConst hat.2.1 hi

theorem runs_loadLocal {L : Layout} {i : Nat} {v : Value} (hat : L.At pc .loadLocal i)
    (hv : cells[i]? = some v) :
    Runs L.program limits K c cells pc operands (pure v) (fun _ => pc + 1)
      fun v => v :: operands := by
  exact runs_silent hat fun x => execute_loadLocal hat.2.1 hv

theorem runs_loadGlobal {L : Layout} {i : Nat} {name : Text} (hat : L.At pc .loadGlobal i)
    (hname : L.program.globals[i]? = some name) (hindex : L.program.globalIndex? name = some i)
    (hc : c.Stands cells.length) :
    Runs L.program limits K c cells pc operands (.global name) (fun _ => pc + 1)
      fun v => v :: operands := by
  rintro x _ ⟨hglobals, rfl⟩
  obtain ⟨stats, hstep⟩ := step_of_at limits c cells operands hat x
  have hafter := hstep.trans (execute_loadGlobal hat.2.1 hname hglobals)
  have hvalue : (Memory.of L.program x.world).globals name = x.world.globals.getD i none := by
    simp [Memory.of, hindex]
  simp only [World.global] at hafter
  simp only [Eval.global, Eval.query, hvalue]
  cases hv : x.world.globals.getD i none with
  | some v =>
    rw [hv] at hafter
    exact Leads.step hafter (Leads.here ⟨⟨x.world, stats⟩, ⟨hglobals, rfl⟩, rfl⟩)
  | none =>
    rw [hv] at hafter
    exact Leads.here (raised_of_step hc (x := ⟨x.world, stats⟩) ⟨hglobals, rfl⟩ hafter)

theorem runs_makeList {L : Layout} {n : Nat} {values : List Value} (hat : L.At pc .makeList n)
    (hn : n = values.length) (hc : c.Stands cells.length) :
    Runs L.program limits K c cells pc (values.reverse ++ operands)
      (.onHeap fun h => .ok (h.newList values.toArray))
      (fun _ => pc + 1) fun v => v :: operands := by
  exact runs_onHeap operands hat hc (fun h => rfl) (fun h => fresh_ok _) fun x =>
    execute_makeList hat.2.1 hn.symm

theorem runs_makeDict {L : Layout} {n : Nat} {pairs : List (Text × Value)}
    (hat : L.At pc .makeDict n) (hn : n = pairs.length) (hc : c.Stands cells.length) :
    Runs L.program limits K c cells pc ((flat pairs).reverse ++ operands)
      (.onHeap fun h => .ok (h.newDict (.ofPairs pairs))) (fun _ => pc + 1)
      fun v => v :: operands := by
  exact runs_onHeap operands hat hc (fun h => rfl) (fun h => fresh_ok _) fun x =>
    execute_makeDict hat.2.1 hn.symm

theorem runs_makeError {L : Layout} {i : Nat} {typeName : Text} (hat : L.At pc .makeError i)
    (hi : L.program.constants[i]? = some (.string typeName)) (hc : c.Stands cells.length)
    (v : Value) : Runs L.program limits K c cells pc (v :: operands)
      (.onHeap fun h => .ok (h.newError (.ofTypeName typeName (h.display v)))) (fun _ => pc + 1)
      fun v => v :: operands := by
  refine runs_onHeap operands hat hc (fun h => ?_) (fun h => fresh_ok _) fun x =>
    execute_makeError hat.2.1 hi v
  rw [h.display_untraced, ← ScriptError.untraced_ofTypeName, h.newError_untraced]
  rfl

theorem Eval.query_eq_update (f : Memory → Except ScriptError α) :
    Eval.query f = Eval.update fun μ => (f μ).map fun a => (a, μ) := by
  funext μ
  simp only [Eval.query, Eval.update]
  cases f μ <;> rfl

theorem runs_readFile {L : Layout} (hat : L.At pc .readFile) (hc : c.Stands cells.length)
    (v : Value) : Runs L.program limits K c cells pc (v :: operands) (.readFile v) (fun _ => pc + 1)
      fun v => v :: operands := by
  rw [Eval.readFile, Eval.query_eq_update]
  refine runs_update operands (fun w => w.keep (fileText w.files v)) hat hc ?_ ?_ fun x =>
    execute_readFile _ v
  · intro w _
    have hfiles : (Memory.of L.program w).files = w.files := rfl
    rw [hfiles, World.keep]
    cases htext : fileText w.files v with
    | ok v => rfl
    | error e => simp only [Except.map, seen, fresh_fileText _ _ e htext]
  · intro w _ w' hw
    obtain ⟨_, -, hw⟩ := exists_of_map_eq_ok hw
    cases hw
    rfl

theorem runs_jumpIfFalse {L : Layout} {a : Nat} (hat : L.At pc .jumpIfFalse a) (v : Value) :
    Runs L.program limits K c cells pc (v :: operands) (.truth v)
      (fun holds => if holds then pc + 1 else a) fun _ => operands := by
  rintro x _ ⟨hglobals, rfl⟩
  obtain ⟨stats, hstep⟩ := step_of_at limits c cells (v :: operands) hat x
  have hheap : (Memory.of L.program x.world).heap = x.world.heap.untraced := rfl
  simp only [Eval.truth, Eval.query, hheap, Heap.truthy_untraced]
  exact Leads.step (hstep.trans (execute_jumpIfFalse hat.2.1 v))
    (Leads.here ⟨⟨x.world, stats⟩, ⟨hglobals, rfl⟩, rfl⟩)

theorem runs_decides {L : Layout} {op : LogicalOp} {t a : Nat} (htests : L.Tests op pc t)
    (hat : L.At t .jumpIfFalse a) (hc : c.Stands cells.length) (v : Value) :
    Runs L.program limits K c cells pc (v :: operands) (.truth v)
      (fun holds => if holds = decide (op = .or) then a else t + 1) fun _ => operands := by
  cases op with
  | and =>
    cases htests
    refine (runs_jumpIfFalse hat v).after fun holds => ?_
    refine runs_here ?_ rfl
    cases holds <;> rfl
  | or =>
    obtain ⟨hnot, rfl⟩ := htests
    have htruth : Eval.truth v =
        ((.query fun μ => UnaryOp.not.apply μ.heap v) >>= fun w => .truth w >>= fun holds =>
          pure (!holds)) := by
      funext μ
      simp [Eval.truth, Eval.query, UnaryOp.apply, Bind.bind, Pure.pure, Heap.truthy]
    rw [htruth]
    refine (runs_unaryOp .not hnot hc v).bind fun w => (runs_jumpIfFalse hat w).bind fun holds => ?_
    refine runs_here ?_ rfl
    cases holds <;> rfl

theorem runs_decided {L : Layout} {op : LogicalOp} {u : Nat}
    (hload : L.Loads (u + 1) (.boolean (op = .and))) (hskip : L.At (u + 2) .jump (u + 4))
    (hload' : L.Loads (u + 3) (.boolean (op = .or))) (holds : Bool) :
    Runs L.program limits K c cells (if holds = decide (op = .or) then u + 3 else u + 1) operands
      (pure (.boolean holds)) (fun _ => u + 4) fun v => v :: operands := by
  by_cases hdecisive : holds = decide (op = .or)
  · rw [if_pos hdecisive, hdecisive]
    exact runs_loads hload'
  · have hother : holds = decide (op = .and) := by
      cases op <;> simpa using hdecisive
    rw [if_neg hdecisive, hother]
    exact (runs_loads hload).after fun v => runs_silent hskip fun x => execute_jump hskip.2.1

@[simp] theorem Site.print_state (t : Text) (x : Scene) : (c.state cells pc operands x).print t =
    c.state cells pc operands { x with world := { x.world with output := x.world.output ++ t } } :=
  (rfl)

theorem runs_print {L : Layout} (hat : L.At pc .print) (hc : c.Stands cells.length) (v : Value) :
    Runs L.program limits K c cells pc (v :: operands) (.print v) (fun _ => pc + 1)
      fun _ => operands := by
  refine runs_update operands
    (fun w => .ok ((), { w with output := w.output ++ w.heap.display v ++ ("\n" : Text) })) hat hc
    (fun w _ => ?_) (by rintro w v w' ⟨⟩; rfl) fun x => ?_
  · have hheap : (Memory.of L.program w).heap = w.heap.untraced := rfl
    rw [hheap, Heap.display_untraced]
    rfl
  · simp [execute, print, Site.after]

theorem runs_input {L : Layout} (hat : L.At pc .input) (hc : c.Stands cells.length) :
    Runs L.program limits K c cells pc operands .readLine (fun _ => pc + 1)
      fun v => v :: operands := by
  refine runs_update operands
    (fun w => .ok (.string (firstLine w.input).1, { w with input := (firstLine w.input).2 })) hat hc
    (fun w _ => rfl) (by rintro w v w' ⟨⟩; rfl) fun x => ?_
  simp only [execute, input]
  exact congrArg (fun s => some (Progress.next s))
    (c.push_state cells (pc + 1) operands
      { x with world := { x.world with input := (firstLine x.world.input).2 } } _)

theorem runs_indexSet {L : Layout} (hat : L.At pc .indexSet) (hc : c.Stands cells.length)
    (collection position v : Value) :
    Runs L.program limits K c cells pc (v :: position :: collection :: operands)
      (.onHeap fun h => (h.indexSet collection position v).map fun h => ((), h)) (fun _ => pc + 1)
      fun _ => operands := by
  refine runs_onHeap operands hat hc (fun h => ?_) (fun h => (h.fresh_indexSet _ _ _).map _)
    fun x => ?_
  · rw [h.indexSet_untraced]
    cases h.indexSet collection position v <;> rfl
  · simp only [execute, indexSet, Site.pop?_state, Site.pop2?_state, Option.bind_eq_bind,
      Option.bind_some, Site.world_state, World.onHeap]
    cases x.world.heap.indexSet collection position v <;> rfl

theorem fresh_writtenFiles (files : Storage) (path : Value) (content : Text) :
    Fresh (writtenFiles files path content) := by
  unfold writtenFiles
  split
  · split
    · exact fresh_ok _
    · exact fresh_make _ _
  · exact fresh_make _ _

theorem runs_writeFile {L : Layout} (hat : L.At pc .writeFile) (hc : c.Stands cells.length)
    (content path : Value) :
    Runs L.program limits K c cells pc (path :: content :: operands) (.writeFile content path)
      (fun _ => pc + 1) fun _ => operands := by
  refine runs_update operands (fun w => (writtenFiles w.files path (w.heap.display content)).map
    fun files => ((), { w with files })) hat hc (fun w _ => ?_) (fun w _ w' hw => ?_) fun x => ?_
  · have hheap : (Memory.of L.program w).heap = w.heap.untraced := rfl
    have hfiles : (Memory.of L.program w).files = w.files := rfl
    rw [hheap, hfiles, Heap.display_untraced]
    cases h : writtenFiles w.files path (w.heap.display content) with
    | ok files => rfl
    | error e => simp only [Except.map, seen, fresh_writtenFiles _ _ _ e h]
  · obtain ⟨_, -, hw⟩ := exists_of_map_eq_ok hw
    cases hw
    rfl
  · simp only [execute, writeFile, Site.pop2?_state, Option.bind_eq_bind, Option.bind_some,
      writtenFiles, Site.world_state]
    cases path with
    | string path =>
      cases h : x.world.files.write? path (x.world.heap.display content) with
      | some files =>
        simp only [h, Except.map]
        rfl
      | none =>
        simp only [h, Except.map]
        rfl
    | _ => rfl

theorem runs_throw {L : Layout} {out : Nat} (hat : L.At pc .throw) (hc : c.Stands cells.length)
    (v : Value) : Runs L.program limits K c cells pc (v :: operands) (.throwValue v) (fun _ => out)
      fun _ => operands := by
  rintro x _ ⟨hglobals, rfl⟩
  obtain ⟨stats, hstep⟩ := step_of_at limits c cells (v :: operands) hat x
  have hthrown : thrownError (Memory.of L.program x.world).heap v =
      (thrownError x.world.heap v).untraced := by
    have hheap : (Memory.of L.program x.world).heap = x.world.heap.untraced := rfl
    cases v <;> simp [thrownError, hheap]
  have hraise : step L.program limits (c.state cells pc (v :: operands) x) = raise L.program
      (c.state cells (pc + 1) operands ⟨x.world, stats⟩) (thrownError x.world.heap v) := by
    rw [hstep]
    simp only [execute, Machine.throw, Site.pop?_state, Option.bind_eq_bind, Option.bind_some]
    cases v <;> rfl
  simp only [Eval.throwValue, Eval.query, hthrown]
  exact Leads.here (raised_of_step hc (x := ⟨x.world, stats⟩) ⟨hglobals, rfl⟩ hraise)

theorem runs_pop {L : Layout} {a : α} (hat : L.At pc .pop) (v : Value) :
    Runs L.program limits K c cells pc (v :: operands) (pure a) (fun _ => pc + 1)
      fun _ => operands :=
  runs_silent hat fun x => by simp [execute]

end

end Meaning
end ScriptMachine
