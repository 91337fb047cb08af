import ScriptMachine.Proofs.Verify.Accepted

namespace ScriptMachine
namespace Verify

structure Formed (p : Program) (f : Function) : Prop where
  nonempty : f.entry < f.stop
  locals : f.localCount ≤ maxLocals
  arity_le_locals : f.arity ≤ f.localCount
  arity : f.arity ≤ maxArguments
  defaults : f.defaults.length = f.arity
  pooled {d : Int32} : d ∈ f.defaults → d ≠ noIndex → 0 ≤ d.toInt ∧ d.toInt < p.constants.size
  /-- No required parameter comes after one with a default. -/
  trailing : f.defaults.Pairwise fun d d' => d ≠ noIndex → d' ≠ noIndex

/-- Debug information has a line for each instruction and a name for each local slot. -/
structure Describes (p : Program) (debug : DebugInfo) : Prop where
  lines : debug.lines.size = p.code.size
  locals : debug.locals.size = p.functions.size
  names {i : Nat} {f : Function} {names : Array Text} : p.functions[i]? = some f →
    debug.locals[i]? = some names → names.size = f.localCount

/-- The rules on tables: functions cover the code without gaps and are well formed. -/
structure WellFormed (p : Program) : Prop where
  version : p.version = formatVersion
  main : p.functions ≠ #[]
  first {f : Function} : p.functions[0]? = some f → f.entry = 0
  next {i : Nat} {f g : Function} : p.functions[i]? = some f → p.functions[i + 1]? = some g →
    g.entry = f.stop
  last {f : Function} : p.functions.back? = some f → f.stop = p.code.size
  formed {f : Function} : f ∈ p.functions → Formed p f
  debug {debug : DebugInfo} : p.debug = some debug → Describes p debug

theorem checkDefaults_eq_ok {name : Text} {constants : Nat} {seen : Bool} {ds : List Int32}
    {u : Unit} : checkDefaults name constants seen ds = .ok u ↔
      (∀ d ∈ ds, d ≠ noIndex → 0 ≤ d.toInt ∧ d.toInt < constants) ∧
      (seen → ∀ d ∈ ds, d ≠ noIndex) ∧ ds.Pairwise fun d d' => d ≠ noIndex → d' ≠ noIndex := by
  induction ds generalizing seen with
  | nil => simp [checkDefaults]
  | cons d ds ih =>
    unfold checkDefaults
    by_cases hd : d = noIndex
    · cases seen with
      | true => simp [hd]
      | false => simp [hd, ih]
    · rw [if_neg hd]
      by_cases hrange : 0 ≤ d.toInt ∧ d.toInt < constants
      · rw [if_pos hrange, ih]
        simp only [List.forall_mem_cons, List.pairwise_cons]
        constructor
        · rintro ⟨hpool, hall, htail⟩
          exact ⟨⟨fun _ => hrange, hpool⟩, fun _ => ⟨hd, hall trivial⟩, fun e he _ =>
            hall trivial e he, htail⟩
        · rintro ⟨⟨-, hpool⟩, -, hall, htail⟩
          exact ⟨hpool, fun _ e he => hall e he hd, htail⟩
      · rw [if_neg hrange]
        simp [hd, hrange]

theorem checkFunction_eq_ok {p : Program} {entry : Nat} {f : Function} {u : Unit} :
    checkFunction p entry f = .ok u ↔ f.entry = entry ∧ Formed p f := by
  simp only [checkFunction, bind_eq_ok, require_eq_ok, decide_eq_true_eq, checkDefaults_eq_ok]
  constructor
  · rintro ⟨_, ⟨hentry, hlt⟩, _, ⟨hlocals, harity, hle⟩, _, hlength, hpool, -, htrailing⟩
    exact ⟨hentry, hlt, hlocals, harity, hle, hlength, hpool _, htrailing⟩
  · rintro ⟨hentry, h⟩
    exact ⟨(), ⟨hentry, h.nonempty⟩, (), ⟨h.locals, h.arity_le_locals, h.arity⟩, (), h.defaults,
      fun _ => h.pooled, (by nofun), h.trailing⟩

theorem checkFunctions_eq_ok {p : Program} {start stop : Nat} {fs : List Function} :
    checkFunctions p start fs = .ok stop ↔ (∀ f ∈ fs, Formed p f) ∧
      (∀ f, fs[0]? = some f → f.entry = start) ∧
      (∀ i f g, fs[i]? = some f → fs[i + 1]? = some g → g.entry = f.stop) ∧
      (fs.getLast?.map Function.stop).getD start = stop := by
  induction fs generalizing start with
  | nil => simp [checkFunctions]
  | cons f fs ih =>
    simp only [checkFunctions, bind_eq_ok, checkFunction_eq_ok, ih]
    have hlast : ((f :: fs).getLast?.map Function.stop).getD start =
        (fs.getLast?.map Function.stop).getD f.stop := by
      rw [List.getLast?_cons]
      cases fs.getLast? <;> rfl
    rw [hlast]
    constructor
    · rintro ⟨_, ⟨hentry, hf⟩, hfs, hfirst, hnext, hstop⟩
      refine ⟨List.forall_mem_cons.2 ⟨hf, hfs⟩, ?_, ?_, hstop⟩
      · rintro g ⟨⟩
        exact hentry
      · intro i g g' hg hg'
        cases i with
        | zero =>
          cases hg
          exact hfirst g' (by simpa using hg')
        | succ i => exact hnext i g g' (by simpa using hg) (by simpa using hg')
    · rintro ⟨hfs, hfirst, hnext, hstop⟩
      obtain ⟨hf, hfs⟩ := List.forall_mem_cons.1 hfs
      refine ⟨(), ⟨hfirst f rfl, hf⟩, hfs, fun g hg => ?_, fun i g g' hg hg' => ?_, hstop⟩
      · exact hnext 0 f g rfl (by simpa using hg)
      · exact hnext (i + 1) g g' (by simpa using hg) (by simpa using hg')

theorem checkLocalNames_eq_ok {pairs : List (Function × Array Text)} :
    checkLocalNames pairs = .ok () ↔ ∀ pair ∈ pairs, pair.2.size = pair.1.localCount := by
  induction pairs with
  | nil => simp [checkLocalNames]
  | cons pair pairs ih =>
    simp only [checkLocalNames, bind_eq_ok, require_eq_ok, decide_eq_true_eq, ih,
      List.forall_mem_cons, exists_const]

theorem checkDebug_eq_ok {p : Program} {debug : DebugInfo} :
    checkDebug p debug = .ok () ↔ Describes p debug := by
  simp only [checkDebug, bind_eq_ok, require_eq_ok, decide_eq_true_eq, checkLocalNames_eq_ok]
  constructor
  · rintro ⟨_, hlines, _, hlocals, hnames⟩
    refine ⟨hlines, hlocals, fun {i f names} hf hi => ?_⟩
    refine hnames (f, names) (List.mem_iff_getElem?.2 ⟨i, ?_⟩)
    rw [List.getElem?_zip_eq_some, Array.getElem?_toList, Array.getElem?_toList]
    exact ⟨hf, hi⟩
  · rintro ⟨hlines, hlocals, hnames⟩
    refine ⟨(), hlines, (), hlocals, fun pair hpair => ?_⟩
    obtain ⟨i, hi⟩ := List.mem_iff_getElem?.1 hpair
    rw [List.getElem?_zip_eq_some, Array.getElem?_toList, Array.getElem?_toList] at hi
    exact hnames hi.1 hi.2

/-- The checks of the tables are the rules on tables. -/
theorem checkLayout_eq_ok {p : Program} : checkLayout p = .ok () ↔ WellFormed p := by
  have hlast (stop : Nat) (hmain : p.functions ≠ #[]) :
      (p.functions.back?.map Function.stop).getD 0 = stop ↔
        ∀ f, p.functions.back? = some f → f.stop = stop := by
    cases hback : p.functions.back? with
    | none =>
      rw [Array.back?_eq_none_iff] at hback
      exact absurd hback hmain
    | some f => simp
  unfold checkLayout
  simp only [bind_eq_ok, require_eq_ok, decide_eq_true_eq, checkFunctions_eq_ok,
    Array.getElem?_toList, Array.mem_toList_iff, Array.getLast?_toList]
  constructor
  · rintro ⟨_, hversion, _, hmain, stop, ⟨hformed, hfirst, hnext, hstop⟩, _, rfl, hdebug⟩
    have hmain : p.functions ≠ #[] := by simpa using hmain
    refine ⟨hversion, hmain, hfirst _, hnext _ _ _, (hlast _ hmain).1 hstop _, hformed _, ?_⟩
    intro debug hsome
    simp only [hsome] at hdebug
    exact checkDebug_eq_ok.1 hdebug
  · intro h
    refine ⟨(), h.version, (), by simpa using h.main, _, ⟨fun _ => h.formed, fun _ => h.first,
      fun _ _ _ => h.next, (hlast _ h.main).2 fun _ => h.last⟩, (), rfl, ?_⟩
    split
    · next debug hsome => exact checkDebug_eq_ok.2 (h.debug hsome)
    · rfl

/-- The states in which an instruction may be executed. -/
structure Admits (p : Program) (f : Function) (op : Opcode) (ins : Instruction)
    (state : FlowState) : Prop extends Sound p f op ins state.depth where
  ret : op = .ret → state.depth = 1
  popTry : op = .popTry → ∃ table outer, state.scopes = ⟨table, .guarded, state.depth⟩ :: outer
  endFinally : op = .endFinally →
    ∃ table outer, state.scopes = ⟨table, .cleanup, state.depth⟩ :: outer
  filters {t : TryTable} {clause : CatchClause} : op = .pushTry →
    p.tries[ins.a.toNat]? = some t → clause ∈ t.clauses → clause.filter ≠ noIndex →
    ((p.constant? clause.filter).bind Constant.string?).isSome

/-- The operand depth after an instruction. -/
def depthAfter (ins : Instruction) (state : FlowState) : Nat :=
  (state.depth - ins.pops + ins.pushes).toNat

/-- The addresses at which control may arrive from an instruction, and the states it arrives in. -/
inductive Requires (p : Program) (pc : Nat) (ins : Instruction) (state : FlowState) :
    Opcode → Int → FlowState → Prop
  | next {op : Opcode} : op.isTerminator = false → op ≠ .pushTry →
    Requires p pc ins state op (pc + 1) ⟨depthAfter ins state, state.scopes⟩
  | jump {op : Opcode} : op = .jump ∨ op = .jumpIfFalse →
    Requires p pc ins state op ins.a.toInt ⟨depthAfter ins state, state.scopes⟩
  | leave {scope : Scope} {outer : List Scope} : state.scopes = scope :: outer →
    Requires p pc ins state .popTry ins.a.toInt ⟨state.depth, outer⟩
  | body : Requires p pc ins state .pushTry (pc + 1)
      ⟨state.depth, ⟨ins.a.toNat, .guarded, state.depth⟩ :: state.scopes⟩
  /-- A handler has the error on its stack and is still inside its try construct. -/
  | handler {t : TryTable} {clause : CatchClause} : p.tries[ins.a.toNat]? = some t →
    clause ∈ t.clauses → Requires p pc ins state .pushTry clause.handler.toInt
      ⟨state.depth + 1, ⟨ins.a.toNat, .guarded, state.depth⟩ :: state.scopes⟩
  | cleanup {t : TryTable} {address : Int32} : p.tries[ins.a.toNat]? = some t →
    t.cleanup? = some address → Requires p pc ins state .pushTry address.toInt
      ⟨state.depth, ⟨ins.a.toNat, .cleanup, state.depth⟩ :: state.scopes⟩

/-- An address of the function to which exactly this state is assigned. -/
def Lands (f : Function) (φ : Assignment) (target : Int) (state : FlowState) : Prop :=
  f.entry ≤ target ∧ target < f.stop ∧ φ target.toNat = some state

/-- The flow rules of a function. Code that has no state plays no part in them. -/
structure FlowTyping (p : Program) (f : Function) (φ : Assignment) : Prop where
  entry : φ f.entry = some ⟨0, []⟩
  within {pc : Nat} {state : FlowState} : φ pc = some state → f.contains pc
  instruction {pc : Nat} {state : FlowState} : φ pc = some state →
    ∃ ins op, p.code[pc]? = some ins ∧ ins.op? = some op ∧ Admits p f op ins state ∧
      ∀ target next, Requires p pc ins state op target next → Lands f φ target next

def Pushes (p : Program) (φ : Assignment) (table : Nat) : Prop :=
  ∃ pc ins, (φ pc).isSome ∧ p.code[pc]? = some ins ∧ ins.op? = some .pushTry ∧ ins.a.toNat = table

section Met
variable {p : Program} {f : Function} {owned : Nat → Prop} {φ : Assignment} {pc : Nat}
  {state : FlowState} {ins : Instruction}

theorem isTarget_iff {target : Int} : isTarget f target ↔ f.entry ≤ target ∧ target < f.stop := by
  simp only [isTarget, Bool.and_eq_true, decide_eq_true_eq]
  omega

theorem met_reach {target : Int} (h : isTarget f target) :
    Demand.Met f owned φ (.reach target.toNat state) ↔ Lands f φ target state := by
  rw [isTarget_iff] at h
  simp only [Demand.Met, Lands, Function.contains_iff]
  constructor
  · rintro ⟨-, hφ⟩
    exact ⟨h.1, h.2, hφ⟩
  · rintro ⟨hlow, hhigh, hφ⟩
    exact ⟨by omega, hφ⟩

theorem met_fallThrough :
    (∀ d ∈ fallThrough f pc state, d.Met f owned φ) ↔ Lands f φ (pc + 1) state := by
  unfold fallThrough
  split
  case isTrue hend =>
    simp only [List.mem_singleton, forall_eq, Demand.Met, false_iff]
    rintro ⟨-, hlt, -⟩
    omega
  case isFalse hend =>
    simp only [List.mem_singleton, forall_eq, Demand.Met, Lands, Function.contains_iff]
    rw [show ((pc : Int) + 1).toNat = pc + 1 by omega, ← and_assoc]
    refine and_congr_left fun _ => ?_
    omega

theorem met_clauseDemand {table : Nat} {clause : CatchClause} :
    (clauseDemand p f pc table state clause).Met f owned φ ↔
      (clause.filter ≠ noIndex → ((p.constant? clause.filter).bind Constant.string?).isSome) ∧
      Lands f φ clause.handler.toInt
        ⟨state.depth + 1, ⟨table, .guarded, state.depth⟩ :: state.scopes⟩ := by
  unfold clauseDemand
  dsimp only
  split
  case isTrue h =>
    simp [Demand.Met, h.1, Option.isNone_iff_eq_none.1 h.2]
  case isFalse h =>
    have hfilter : clause.filter ≠ noIndex →
        ((p.constant? clause.filter).bind Constant.string?).isSome := by
      intro hne
      cases hstring : (p.constant? clause.filter).bind Constant.string? with
      | none => simp [hne, hstring] at h
      | some _ => rfl
    split
    case isTrue htarget => rw [met_reach htarget, and_iff_right hfilter]
    case isFalse htarget =>
      rw [isTarget_iff] at htarget
      simp only [Demand.Met, false_iff]
      rintro ⟨-, hlow, hhigh, -⟩
      exact htarget ⟨hlow, hhigh⟩

theorem met_cleanupDemands {table : Nat} {t : TryTable} :
    (∀ d ∈ cleanupDemands f pc table state t, d.Met f owned φ) ↔
      ∀ address, t.cleanup? = some address → Lands f φ address.toInt
        ⟨state.depth, ⟨table, .cleanup, state.depth⟩ :: state.scopes⟩ := by
  unfold cleanupDemands
  cases t.cleanup? with
  | none => simp
  | some address =>
    simp only [Option.some.injEq, forall_eq']
    split
    case isTrue htarget => rw [List.forall_mem_singleton, met_reach htarget]
    case isFalse htarget =>
      rw [isTarget_iff] at htarget
      simp only [List.mem_singleton, forall_eq, Demand.Met, false_iff]
      rintro ⟨hlow, hhigh, -⟩
      exact htarget ⟨hlow, hhigh⟩

theorem met_tryDemands {table : Nat} :
    (∀ d ∈ tryDemands p f pc table state, d.Met f owned φ) ↔ owned table ∧
      ∀ t, p.tries[table]? = some t →
        (∀ clause ∈ t.clauses, (clauseDemand p f pc table state clause).Met f owned φ) ∧
        ∀ d ∈ cleanupDemands f pc table state t, d.Met f owned φ := by
  simp only [tryDemands, List.cons_append, List.forall_mem_cons, List.forall_mem_append,
    List.forall_mem_map, Demand.Met, Array.getD_eq_getD_getElem?]
  cases p.tries[table]? with
  | none => simp [cleanupDemands, TryTable.cleanup?]
  | some t => simp

theorem admits_of_sound {op : Opcode} (h : Sound p f op ins state.depth) (hret : op ≠ .ret)
    (hpop : op ≠ .popTry) (hend : op ≠ .endFinally) (hpush : op ≠ .pushTry) :
    Admits p f op ins state :=
  { h with
    ret := fun heq => absurd heq hret
    popTry := fun heq => absurd heq hpop
    endFinally := fun heq => absurd heq hend
    filters := fun heq => absurd heq hpush }

/-- All that an instruction requires in a state is assigned. -/
def Passes (p : Program) (f : Function) (φ : Assignment) (pc : Nat) (ins : Instruction)
    (state : FlowState) (op : Opcode) : Prop :=
  ∀ target next, Requires p pc ins state op target next → Lands f φ target next

theorem passes_jump : Passes p f φ pc ins state .jump ↔
    Lands f φ ins.a.toInt ⟨depthAfter ins state, state.scopes⟩ := by
  constructor
  · intro h
    exact h _ _ (.jump (.inl rfl))
  · rintro h _ _ (⟨⟨⟩, -⟩ | -)
    exact h

theorem passes_jumpIfFalse : Passes p f φ pc ins state .jumpIfFalse ↔
    Lands f φ ins.a.toInt ⟨depthAfter ins state, state.scopes⟩ ∧
      Lands f φ (pc + 1) ⟨depthAfter ins state, state.scopes⟩ := by
  constructor
  · intro h
    exact ⟨h _ _ (.jump (.inr rfl)), h _ _ (.next rfl nofun)⟩
  · rintro ⟨hjump, hnext⟩ _ _ (- | -)
    · exact hnext
    · exact hjump

theorem passes_popTry {scope : Scope} {outer : List Scope} (h : state.scopes = scope :: outer) :
    Passes p f φ pc ins state .popTry ↔ Lands f φ ins.a.toInt ⟨state.depth, outer⟩ := by
  constructor
  · intro hpass
    exact hpass _ _ (.leave h)
  · intro hland target next hrequires
    cases hrequires with
    | next hterminator => cases hterminator
    | jump heq => rcases heq with heq | heq <;> cases heq
    | leave hscopes =>
      rw [h] at hscopes
      cases hscopes
      exact hland

theorem passes_pushTry : Passes p f φ pc ins state .pushTry ↔
    Lands f φ (pc + 1) ⟨state.depth, ⟨ins.a.toNat, .guarded, state.depth⟩ :: state.scopes⟩ ∧
    ∀ t, p.tries[ins.a.toNat]? = some t →
      (∀ clause ∈ t.clauses, Lands f φ clause.handler.toInt
        ⟨state.depth + 1, ⟨ins.a.toNat, .guarded, state.depth⟩ :: state.scopes⟩) ∧
      ∀ address, t.cleanup? = some address → Lands f φ address.toInt
        ⟨state.depth, ⟨ins.a.toNat, .cleanup, state.depth⟩ :: state.scopes⟩ := by
  constructor
  · intro h
    exact ⟨h _ _ .body, fun t ht => ⟨fun clause hclause => h _ _ (.handler ht hclause),
      fun address haddress => h _ _ (.cleanup ht haddress)⟩⟩
  · rintro ⟨hbody, htable⟩ target next hrequires
    cases hrequires with
    | next _ hne => exact absurd rfl hne
    | jump heq => rcases heq with heq | heq <;> cases heq
    | body => exact hbody
    | handler ht hclause => exact (htable _ ht).1 _ hclause
    | cleanup ht haddress => exact (htable _ ht).2 _ haddress

theorem passes_terminator {op : Opcode} (hterminator : op.isTerminator) (hjump : op ≠ .jump)
    (hpop : op ≠ .popTry) : Passes p f φ pc ins state op := by
  intro target next hrequires
  cases hrequires with
  | next h => simp [h] at hterminator
  | jump heq =>
    rcases heq with rfl | rfl
    · exact absurd rfl hjump
    · cases hterminator
  | leave => exact absurd rfl hpop
  | body | handler | cleanup => cases hterminator

theorem passes_next {op : Opcode} (hterminator : op.isTerminator = false)
    (hjump : op ≠ .jumpIfFalse) (hpush : op ≠ .pushTry) : Passes p f φ pc ins state op ↔
      Lands f φ (pc + 1) ⟨depthAfter ins state, state.scopes⟩ := by
  constructor
  · intro h
    exact h _ _ (.next hterminator hpush)
  · intro h target next hrequires
    cases hrequires with
    | next => exact h
    | jump heq =>
      rcases heq with rfl | rfl
      · cases hterminator
      · exact absurd rfl hjump
    | leave => cases hterminator
    | body | handler | cleanup => exact absurd rfl hpush

/-- The demands of an instruction are met in terms of the rules. -/
def Agrees (p : Program) (f : Function) (owned : Nat → Prop) (φ : Assignment) (pc : Nat)
    (ins : Instruction) (state : FlowState) (op : Opcode) : Prop :=
  (∀ d ∈ successorDemands p f pc op ins state, d.Met f owned φ) ↔ Admits p f op ins state ∧
    Passes p f φ pc ins state op ∧ (op = .pushTry → owned ins.a.toNat)

theorem depthAfter_eq {op : Opcode} (hop : ins.op? = some op)
    (hpops : Instruction.popsOf op ins.a.toInt ins.b.toInt = 0)
    (hpushes : Instruction.pushesOf op = 0) :
    (state.depth - ins.pops + ins.pushes : Int).toNat = state.depth := by
  simp [Instruction.pops, Instruction.pushes, hop, hpops, hpushes]

theorem isTarget_of_sound {op : Opcode} (hsound : Sound p f op ins state.depth)
    (h : op.kindA = .target) : isTarget f ins.a.toInt ∧ ins.a.toInt.toNat = ins.a.toNat := by
  have hrange := hsound.rangeA
  simp only [h, InRange] at hrange
  have hnat := toNat_of_nonneg (show 0 ≤ ins.a.toInt by omega)
  exact ⟨isTarget_iff.2 hrange, by omega⟩

theorem met_refuse {op : Opcode} {e : VerifyError} (h : ¬Admits p f op ins state) :
    (∀ d ∈ [Demand.refuse e], d.Met f owned φ) ↔ Admits p f op ins state ∧
      Passes p f φ pc ins state op ∧ (op = .pushTry → owned ins.a.toNat) := by
  simp only [List.forall_mem_singleton, Demand.Met, false_iff]
  exact fun hadmits => h hadmits.1

theorem agrees_popTry (hop : ins.op? = some .popTry) (hsound : Sound p f .popTry ins state.depth) :
    Agrees p f owned φ pc ins state .popTry := by
  obtain ⟨htarget, hnat⟩ := isTarget_of_sound hsound rfl
  unfold Agrees successorDemands
  dsimp only
  rw [depthAfter_eq hop rfl rfl]
  split
  case h_1 table entered outer hscopes =>
    split
    case isTrue heq =>
      have hadmits : Admits p f .popTry ins state :=
        { hsound with
          ret := nofun
          popTry := fun _ => ⟨table, outer, by rw [hscopes, heq]⟩
          endFinally := nofun
          filters := nofun }
      rw [passes_popTry hscopes, List.forall_mem_singleton, ← hnat, met_reach htarget]
      exact ⟨fun h => ⟨hadmits, h, nofun⟩, fun h => h.2.1⟩
    case isFalse hne =>
      refine met_refuse fun hadmits => ?_
      obtain ⟨table', outer', heq⟩ := hadmits.popTry rfl
      cases hscopes.symm.trans heq
      exact hne rfl
  case h_2 hnone =>
    refine met_refuse fun hadmits => ?_
    obtain ⟨table, outer, heq⟩ := hadmits.popTry rfl
    exact hnone _ _ _ heq

theorem agrees_endFinally (hsound : Sound p f .endFinally ins state.depth) :
    Agrees p f owned φ pc ins state .endFinally := by
  have hpass : Passes p f φ pc ins state .endFinally := passes_terminator rfl nofun nofun
  unfold Agrees successorDemands
  dsimp only
  split
  case h_1 table entered outer hscopes =>
    split
    case isTrue heq =>
      have hadmits : Admits p f .endFinally ins state :=
        { hsound with
          ret := nofun
          popTry := nofun
          endFinally := fun _ => ⟨table, outer, by rw [hscopes, heq]⟩
          filters := nofun }
      exact ⟨fun _ => ⟨hadmits, hpass, nofun⟩, fun _ => by simp⟩
    case isFalse hne =>
      refine met_refuse fun hadmits => ?_
      obtain ⟨table', outer', heq⟩ := hadmits.endFinally rfl
      cases hscopes.symm.trans heq
      exact hne rfl
  case h_2 hnone =>
    refine met_refuse fun hadmits => ?_
    obtain ⟨table, outer, heq⟩ := hadmits.endFinally rfl
    exact hnone _ _ _ heq

theorem agrees_pushTry (hop : ins.op? = some .pushTry)
    (hsound : Sound p f .pushTry ins state.depth) : Agrees p f owned φ pc ins state .pushTry := by
  unfold Agrees successorDemands
  dsimp only
  rw [List.forall_mem_append, met_tryDemands, met_fallThrough, passes_pushTry,
    depthAfter_eq hop rfl rfl]
  simp only [met_clauseDemand, met_cleanupDemands]
  constructor
  · rintro ⟨⟨howned, htable⟩, hbody⟩
    have hadmits : Admits p f .pushTry ins state :=
      { hsound with
        ret := nofun
        popTry := nofun
        endFinally := nofun
        filters := fun _ ht hclause => ((htable _ ht).1 _ hclause).1 }
    exact ⟨hadmits, ⟨hbody, fun t ht => ⟨fun clause hclause => ((htable t ht).1 clause hclause).2,
      (htable t ht).2⟩⟩, fun _ => howned⟩
  · rintro ⟨hadmits, ⟨hbody, htable⟩, howned⟩
    exact ⟨⟨howned trivial, fun t ht => ⟨fun clause hclause => ⟨hadmits.filters rfl ht hclause,
      (htable t ht).1 clause hclause⟩, (htable t ht).2⟩⟩, hbody⟩

theorem agrees_ret (hsound : Sound p f .ret ins state.depth) :
    Agrees p f owned φ pc ins state .ret := by
  have hpass : Passes p f φ pc ins state .ret := passes_terminator rfl nofun nofun
  unfold Agrees successorDemands
  dsimp only
  split
  case isTrue heq =>
    have hadmits : Admits p f .ret ins state :=
      { hsound with
        ret := fun _ => heq
        popTry := nofun
        endFinally := nofun
        filters := nofun }
    exact ⟨fun _ => ⟨hadmits, hpass, nofun⟩, fun _ => by simp⟩
  case isFalse hne => exact met_refuse fun hadmits => hne (hadmits.ret rfl)

/-- The demands of an instruction that passes its checks are met when it admits the state and all
that it requires is assigned. -/
theorem agrees_of_sound {op : Opcode} (hop : ins.op? = some op)
    (hsound : Sound p f op ins state.depth) : Agrees p f owned φ pc ins state op := by
  by_cases hret : op = .ret
  · subst hret
    exact agrees_ret hsound
  by_cases hpop : op = .popTry
  · subst hpop
    exact agrees_popTry hop hsound
  by_cases hend : op = .endFinally
  · subst hend
    exact agrees_endFinally hsound
  by_cases hpush : op = .pushTry
  · subst hpush
    exact agrees_pushTry hop hsound
  -- The operations that are left admit every state that passes the checks.
  have hadmits := admits_of_sound hsound hret hpop hend hpush
  suffices h : (∀ d ∈ successorDemands p f pc op ins state, d.Met f owned φ) ↔
      Passes p f φ pc ins state op from
    h.trans ⟨fun hpass => ⟨hadmits, hpass, fun heq => absurd heq hpush⟩, fun h => h.2.1⟩
  unfold successorDemands
  split
  case h_1 =>
    obtain ⟨htarget, hnat⟩ := isTarget_of_sound hsound rfl
    rw [List.forall_mem_singleton, ← hnat, met_reach htarget, passes_jump]
    rfl
  case h_4 =>
    obtain ⟨htarget, hnat⟩ := isTarget_of_sound hsound rfl
    rw [List.forall_mem_cons, ← hnat, met_reach htarget, met_fallThrough, passes_jumpIfFalse]
    rfl
  case h_7 | h_8 => exact ⟨fun _ => passes_terminator rfl nofun nofun, fun _ => by simp⟩
  case h_9 hjump _ _ hfalse _ _ hthrow hhalt =>
    have hterminator : op.isTerminator = false := by
      cases op <;> first | rfl | contradiction
    rw [met_fallThrough, passes_next hterminator hfalse hpush]
    rfl
  all_goals contradiction

end Met

theorem met_demands {p : Program} {f : Function} {owned : Nat → Prop} {φ : Assignment} {pc : Nat}
    {state : FlowState} : (∀ d ∈ demands p f pc state, d.Met f owned φ) ↔
      ∃ ins op, p.code[pc]? = some ins ∧ ins.op? = some op ∧ Admits p f op ins state ∧
        Passes p f φ pc ins state op ∧ (op = .pushTry → owned ins.a.toNat) := by
  constructor
  · intro h
    obtain ⟨ins, op, hins, hop, hproblem, hdemands⟩ :=
      fetched_of_not_refused (fun e he => h (.refuse e) he)
    rw [hdemands] at h
    exact ⟨ins, op, hins, hop,
      (agrees_of_sound hop (instructionProblem?_eq_none.1 hproblem)).1 h⟩
  · rintro ⟨ins, op, hins, hop, hadmits, hpass, howned⟩
    have hproblem := instructionProblem?_eq_none.2 hadmits.toSound
    have hdemands : demands p f pc state = successorDemands p f pc op ins state := by
      simp only [demands, hins, Instruction.op, hop, hproblem]
    rw [hdemands]
    exact (agrees_of_sound hop hadmits.toSound).2 ⟨hadmits, hpass, howned⟩

/-- The typings that the exploration looks for are those of the rules. -/
theorem typing_iff {p : Program} {f : Function} {owned : Nat → Prop} {φ : Assignment} :
    Typing p f owned φ ↔ FlowTyping p f φ ∧ ∀ table, Pushes p φ table → owned table := by
  constructor
  · intro h
    refine ⟨⟨h.entry, h.within, fun {pc state} hpc => ?_⟩, ?_⟩
    · obtain ⟨ins, op, hins, hop, hadmits, hpass, -⟩ := met_demands.1 (h.met hpc)
      exact ⟨ins, op, hins, hop, hadmits, hpass⟩
    · rintro table ⟨pc, ins, hpc, hins, hop, rfl⟩
      obtain ⟨state, hstate⟩ := Option.isSome_iff_exists.1 hpc
      obtain ⟨ins', op', hins', hop', -, -, howned⟩ := met_demands.1 (h.met hstate)
      rw [hins] at hins'
      cases hins'
      rw [hop] at hop'
      cases hop'
      exact howned rfl
  · rintro ⟨h, hpushes⟩
    refine ⟨h.entry, h.within, fun {pc state} hpc => met_demands.2 ?_⟩
    obtain ⟨ins, op, hins, hop, hadmits, hpass⟩ := h.instruction hpc
    refine ⟨ins, op, hins, hop, hadmits, hpass, ?_⟩
    rintro rfl
    exact hpushes _ ⟨pc, ins, by simp [hpc], hins, hop, rfl⟩

end Verify
end ScriptMachine
