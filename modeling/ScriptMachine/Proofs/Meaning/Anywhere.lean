import ScriptMachine.Proofs.Compile.Returns
import ScriptMachine.Proofs.Meaning.InPlace

namespace ScriptMachine
namespace Meaning
open Machine Compile

def Site.of (s : State) : Site :=
  ⟨s.frame.function, s.stack.toList.take s.frame.base, s.callers, s.guards, s.pending⟩

theorem Site.state_of {s : State} (h : s.frame.base ≤ s.stack.size) (pc : Nat) (x : Scene) :
    (Site.of s).state (s.stack.toList.drop s.frame.base) pc [] x =
      { s with frame := { s.frame with ip := pc }, world := x.world, stats := x.stats } := by
  have hlength : (s.stack.toList.take s.frame.base).length = s.frame.base := by
    rw [List.length_take, Array.length_toList, Nat.min_eq_left h]
  simp only [Site.state, Site.of, List.take_append_drop, List.reverse_nil, List.append_nil, hlength]

/-- The text of the function at an index of a compiled program, with its scope. The main program
comes first. -/
def textAt? (options : Options) (tree : List Stmt) : Nat → Option (Scope × List Stmt)
  | 0 => some (⟨true, [], options.hostGlobals ++ assignedNames tree⟩, tree)
  | i + 1 => ((tree.filterMap Stmt.declaration?)[i]?).map fun d =>
    (⟨false, d.parameters.map Parameter.name, options.hostGlobals ++ assignedNames tree⟩, d.body)

/-- The index of the function that a name is declared for first. -/
def calleeIndex (tree : List Stmt) (name : Text) : Nat :=
  (tree.filterMap Stmt.declaration?).findIdx (·.name = name) + 1

/-- A name stands for a variable, in a function whose slots have the given names. -/
def Denotes (p : Program) (scope : Scope) (slots : List Text) (name : Text) : Variable → Prop
  | .slot i => slots[i]? = some name ∧ (Plain name → scope.isLocal name)
  | .global i => p.globals[i]? = some name ∧ scope.isLocal name = false

def storeOf : Variable → Instruction
  | .slot i => .of .storeLocal (BitVec.ofNat 24 i)
  | .global i => .of .storeGlobal (BitVec.ofNat 24 i)

/-- Names are read from the variables that they stand for, which are those that assignments
write. -/
structure Named (p : Program) (scope : Scope) (body : List Stmt) (f : Function) (slots : List Text)
    (reads : Nat → Variable) : Prop where
  count : slots.length = f.localCount
  slots_nodup : slots.Nodup
  globals_nodup : p.globals.toList.Nodup
  parameters : scope.parameters <+: slots
  read {pc : Nat} {name : Text} : (pc, .identifier name) ∈ blockSites 0 f.entry body →
    Denotes p scope slots name (reads pc)
  store {pc : Nat} {name : Text} : (pc, name) ∈ blockStores 0 f.entry body →
    ∃ x, Denotes p scope slots name x ∧ p.code[pc]? = some (storeOf x)

/-- The machine goes on from a state as an evaluation says: to an address with one operand more, and
nothing else changed but the world and the counters, or to an error that is raised above the
state. -/
def ComesTo (p : Program) (limits : Limits) (s : State) (pc : Nat) :
    Except ScriptError Value → World → Prop
  | .ok v, w => Leads p limits s fun t => ∃ stats,
    t = { s with stack := s.stack.push v, frame := { s.frame with ip := pc }, world := w, stats }
  | .error e, w => Leads p limits s (Raises p limits s e w)

/-- A state whose frame is at an address of a function, with its locals on the stack. The guards and
completions are those of frames at hand; what else there is does not matter. -/
structure StandsAt (p : Program) (index : Nat) (f : Function) (pc : Nat) (s : State) : Prop where
  function : s.frame.function = index
  ip : s.frame.ip = pc
  locals : s.frame.base + f.localCount ≤ s.stack.size
  live : s.Live
  globals : s.world.globals.size = p.globals.size

def loaded (p : Program) (pc : Nat) : Variable :=
  match p.code[pc]? with
  | none => .slot 0
  | some ins => if ins.op? = some .loadLocal then .slot ins.a.toNat else .global ins.a.toNat

section

variable {L : Layout} {pc i : Nat}

theorem loaded_of_loadLocal (h : L.At pc .loadLocal i) : loaded L.program pc = .slot i := by
  simp only [loaded, h.1, Instruction.op?_of, if_true]
  rw [Instruction.of, toNat_ofNat h.2.1]

theorem loaded_of_loadGlobal (h : L.At pc .loadGlobal i) : loaded L.program pc = .global i := by
  have hop : ¬(some Opcode.loadGlobal = some .loadLocal) := by decide
  simp only [loaded, h.1, Instruction.op?_of, if_neg hop]
  rw [Instruction.of, toNat_ofNat h.2.1]

variable {scope : Scope} {name : Text}

theorem denotes_of_reads (h : Resolves L scope) (hat : L.Reads pc name) :
    Denotes L.program scope L.locals name (loaded L.program pc) := by
  rcases hat with ⟨i, hat, hi⟩ | ⟨i, hat, hi, hshared⟩
  · rw [loaded_of_loadLocal hat]
    exact ⟨hi, h.slot hi⟩
  · rw [loaded_of_loadGlobal hat]
    exact ⟨hi, h.shared hshared⟩

theorem denotes_of_writes (h : Resolves L scope) (hat : L.Writes pc name) :
    ∃ x, Denotes L.program scope L.locals name x ∧ L.program.code[pc]? = some (storeOf x) := by
  rcases hat with ⟨i, hat, hi, -⟩ | ⟨i, hat, hi, hshared⟩
  · exact ⟨.slot i, ⟨hi, h.slot hi⟩, hat.1⟩
  · exact ⟨.global i, ⟨hi, h.shared hshared⟩, hat.1⟩

end

/-- A function of a compiled program, placed with its text. -/
structure Rests (tree : List Stmt) (index : Nat) (scope : Scope) (body : List Stmt) (f : Function)
    (L : Layout) : Prop where
  function : L.program.functions[index]? = some f
  verified : Verify.Verified L.program
  returns : ReturnsDischarge False L.program
  globals : L.program.globals.toList.Nodup
  resolves : Resolves L scope
  locals : L.locals.length = f.localCount
  parameters : scope.parameters <+: L.locals
  code : ∃ table m, BlockAt L body none ⟨f.entry, table, 0⟩ m
  stop : f.stop = f.entry + blockSize 0 body + if scope.isMain then 1 else 2
  calls {pc given : Nat} {name : Text} : L.Calls pc name given →
    L.At pc .call (calleeIndex tree name) given ∧ calleeIndex tree name < L.program.functions.size

section

variable {options : Options} {tree : List Stmt} {functions : Array Function} {bound : Nat → Nat}
variable {p : Program} {depths : List Nat} {index : Nat} {scope : Scope} {body : List Stmt}
variable {f : Function} {L : Layout}

theorem source_of_text (hsize : functions.size = (tree.filterMap Stmt.declaration?).length)
    (htext : textAt? options tree index = some (scope, body)) :
    ∃ s, (sources tree functions)[index]? = some s ∧ s.body = body ∧
      scope = ⟨s.isMain, s.parameters, options.hostGlobals ++ assignedNames tree⟩ ∧
      (s.isMain → s.parameters = []) := by
  cases index with
  | zero =>
    simp only [textAt?, Option.some.injEq, Prod.mk.injEq] at htext
    obtain ⟨rfl, rfl⟩ := htext
    exact ⟨mainSource tree, rfl, rfl, rfl, fun _ => rfl⟩
  | succ i =>
    simp only [textAt?, Option.map_eq_some_iff, Prod.mk.injEq] at htext
    obtain ⟨d, hd, rfl, rfl⟩ := htext
    have hlt : i < functions.size := by
      rw [hsize]
      exact (List.getElem?_eq_some_iff.1 hd).1
    have hunit : (functions.toList.zip (tree.filterMap Stmt.declaration?))[i]? =
        some (functions[i], d) :=
      List.getElem?_zip_eq_some.2 ⟨by simp [hlt], hd⟩
    refine ⟨functionSource (functions[i], d), ?_, rfl, rfl, nofun⟩
    rw [sources_succ, hunit]
    rfl

theorem exists_source (h : Compiled options tree functions bound p)
    (htext : textAt? options tree index = some (scope, body)) :
    ∃ s f, p.functions[index]? = some f ∧ (sources tree functions)[index]? = some s ∧
      s.body = body ∧ scope = ⟨s.isMain, s.parameters, options.hostGlobals ++ assignedNames tree⟩ ∧
      (s.isMain → s.parameters = []) := by
  obtain ⟨s, hs, hsource⟩ := source_of_text h.headers.size htext
  have hlt : index < p.functions.size := by
    rw [h.size]
    exact (List.getElem?_eq_some_iff.1 hs).1
  exact ⟨s, _, Array.getElem?_eq_getElem hlt, hs, hsource⟩

theorem exists_rests (h : Compiled options tree functions bound p) (htidy : blockTidy tree)
    (hverify : (Verify.storeDepths p depths).verify = .ok (Verify.storeDepths p depths))
    (htext : textAt? options tree index = some (scope, body)) :
    ∃ f L, L.program = Verify.storeDepths p depths ∧ Rests tree index scope body f L := by
  obtain ⟨s, f, hf, hs, rfl, rfl, hmain⟩ := exists_source h htext
  obtain ⟨L, hL, hnames, hat⟩ := (h.placed hf hs).2 (sameCode_storeDepths p depths)
  obtain ⟨depth, hdepth⟩ := getElem?_storeDepths depths hf
  have hglobals : L.program.globals.toList.Nodup := by
    rw [hL]
    exact h.globals
  have hresolves := resolves_of_functionAt hat hglobals hmain
  rw [hnames] at hresolves
  obtain ⟨m, hblock, -, hends⟩ := hat.code
  rw [hat.entry] at hblock
  have hm := BlockAt.end_eq s.body hblock (leavesBy_none 0)
  have hstop : f.stop = f.entry + blockSize 0 s.body + if s.isMain then 1 else 2 := by
    rw [Layout.Ends, hat.isMain] at hends
    split at hends
    · next hs => rw [if_pos hs, hends.2, hm]
    · next hs => rw [if_neg hs, hends.2.2, hm]
  refine ⟨{ f with maxStackDepth := depth }, L, hL, ?_⟩
  refine ⟨by rw [hL, hdepth], ?_, ?_, hglobals, hresolves, hat.locals, hat.slots, ⟨_, m, hblock⟩,
    hstop, ?_⟩
  · rw [hL]
    exact Verify.verified_of_verify hverify
  · rw [hL]
    exact (h.returnsOutsideCleanup htidy hverify).discharge
  · rintro pc given name ⟨i, header, hcall, hindex, hheader, -⟩
    simp only [hnames] at hindex hheader
    obtain ⟨d, hd, -, hfirst, -⟩ := findIdx_of_headers h.headers hindex hheader
    have hcallee : calleeIndex tree name = i + 1 := by rw [calleeIndex, hfirst]
    have hlt := (Array.getElem?_eq_some_iff.1 hheader).1
    refine ⟨hcallee ▸ hcall, ?_⟩
    rw [hcallee, hL]
    simp only [Verify.storeDepths, Array.size_mapIdx, h.length_sources]
    omega

theorem Rests.named (h : Rests tree index scope body f L) :
    Named L.program scope body f L.locals (loaded L.program) := by
  obtain ⟨table, m, hblock⟩ := h.code
  refine ⟨h.locals, h.resolves.nodup, h.globals, h.parameters, fun hsite => ?_, fun hstore => ?_⟩
  · have hat := BlockAt.site body hblock (leavesBy_none 0) hsite
    exact denotes_of_reads h.resolves hat.1
  · exact denotes_of_writes h.resolves (BlockAt.stores body hblock (leavesBy_none 0) hstore)

theorem Rests.fitted (h : Rests tree index scope body f L) {pc : Nat} {s : State}
    (hs : StandsAt L.program index f pc s) (limits : Limits) (fuel : Nat) :
    Fitted L ⟨L.program, limits, fuel, s, loaded L.program, calleeIndex tree⟩ (Site.of s)
      (s.stack.toList.drop s.frame.base) := by
  have hlocals := hs.locals
  have hbase : s.frame.base ≤ s.stack.size := by omega
  refine ⟨h.verified, h.returns, rfl, ?_, ?_, hs.live.guards, hs.live.pending, ?_, h.calls⟩
  · exact ⟨s.frame.ip, ⟨s.world, s.stats⟩,
      (Site.state_of hbase s.frame.ip ⟨s.world, s.stats⟩).symm⟩
  · simp only [h.locals, List.length_drop, Array.length_toList]
    omega
  · rintro pc name (⟨i, hat, hi⟩ | ⟨i, hat, hi, -⟩)
    · exact .inl ⟨i, loaded_of_loadLocal hat, hat, (List.getElem?_eq_some_iff.1 hi).1⟩
    · exact .inr ⟨i, loaded_of_loadGlobal hat, hat, hi⟩

theorem Rests.comesTo (h : Rests tree index scope body f L) {pc : Nat} {e : Expr}
    (hsite : (pc, e) ∈ blockSites 0 f.entry body) {limits : Limits} {s : State}
    (hs : StandsAt L.program index f pc s) {fuel : Nat} {r : Except ScriptError Value} {w : World}
    (heval : Standpoint.expr ⟨L.program, limits, fuel, s, loaded L.program, calleeIndex tree⟩ pc [] e
      s.world = some (r, w)) :
    ComesTo L.program limits s (pc + exprSize e) r w := by
  obtain ⟨table, m, hblock⟩ := h.code
  have hat := BlockAt.site body hblock (leavesBy_none 0) hsite
  have hbase : s.frame.base ≤ s.stack.size := Nat.le_trans (Nat.le_add_right _ _) hs.locals
  have hgets : Gets L.program limits (Site.of s) (s.stack.toList.drop s.frame.base)
      (fun _ => pc + exprSize e) (fun v => [v]) s (some (r, w)) := by
    have hstart := Site.state_of hbase pc ⟨s.world, s.stats⟩
    have hcarries : Carries L.program limits (Site.of s) (s.stack.toList.drop s.frame.base) pc [] _
        (fun _ => pc + exprSize e) fun v => [v] := carries_expr (h.fitted hs limits fuel) e hat
    have hgets := hcarries ⟨s.world, s.stats⟩ hs.globals
    rw [hstart, heval] at hgets
    rwa [← hs.ip] at hgets ⊢
  cases r with
  | ok v =>
    refine hgets.2.trans ?_
    rintro t ⟨stats, rfl⟩
    refine Leads.here ⟨stats, ?_⟩
    rw [← Site.push_state, Site.state_of hbase]
    rfl
  | error e' =>
    refine Leads.trans hgets fun t ht => Leads.here ?_
    rw [Site.state_of hbase] at ht
    exact ht.of_moved

end

/-- Every expression of a compiled program has its code where the sizes of the text say. From there
the machine comes to what the evaluation in that state gives: to the end of the code with the value
on top of the stack, or to the error. -/
theorem expr_code_anywhere (options : Options) (tree : List Stmt) (p : Program)
    (hcompile : compile options tree = .ok p)
    (hcount : (tree.filterMap Stmt.declaration?).length < 2 ^ 23) (htidy : blockTidy tree)
    (index : Nat) (scope : Scope) (body : List Stmt)
    (htext : textAt? options tree index = some (scope, body)) :
    ∃ f slots reads, p.functions[index]? = some f ∧ Named p scope body f slots reads ∧
      f.stop = f.entry + blockSize 0 body + (if scope.isMain then 1 else 2) ∧
      ∀ pc e, (pc, e) ∈ blockSites 0 f.entry body → ∀ limits s, StandsAt p index f pc s →
        ∀ fuel r w,
          Standpoint.expr ⟨p, limits, fuel, s, reads, calleeIndex tree⟩ pc [] e s.world =
          some (r, w) →
          ComesTo p limits s (pc + exprSize e) r w := by
  have hverified := compile_verified options tree hcount
  rw [hcompile] at hverified
  obtain ⟨functions, bound, p₀, depths, hcompiled, rfl⟩ := exists_compiled hcompile hcount
  obtain ⟨f, L, hL, hrests⟩ := exists_rests hcompiled htidy hverified.1 htext
  rw [← hL]
  refine ⟨f, L.locals, loaded L.program, hrests.function, hrests.named, hrests.stop, ?_⟩
  intro pc e hsite limits s hs fuel r w heval
  exact hrests.comesTo hsite hs heval

/-- A call of a function that negates its argument, and so fails on nil. -/
def negated (e : Expr) : Expr := .call [0x66] [e]

/-- A comparison whose second operand is decided before the function is called on nil. -/
def decided : Expr :=
  .binary .equal (.number .one) (.logical .or (negated (.number .one)) (negated .nil))

def comparison : List Stmt :=
  [.mk 1 (.function [0x66] [⟨[0x78], none⟩]
    [.mk 2 (.ret (some (.unary .negate (.identifier [0x78]))))]),
   .mk 3 (.write decided)]

/-- The main program at an address, with an operand, a guard and a completion around. -/
def amid (p : Program) (pc : Nat) : State where
  stack := #[.nil, .boolean true]
  frame := ⟨0, pc, 1⟩
  callers := #[]
  guards := [⟨0, 0, 1, 0, .body⟩]
  pending := #[⟨0, .result .nil⟩]
  world := (Machine.create p {} [] {}).world
  stats := none

theorem standsAt_amid {p : Program} {f : Function} (hf : f.localCount = 0) (pc : Nat) :
    StandsAt p 0 f pc (amid p pc) :=
  ⟨rfl, rfl, by simp [amid, hf], ⟨by simp [amid], by simp [amid]⟩, by simp [amid, Machine.create]⟩

/-- The whole comparison has a value, and the call that it skips fails. -/
theorem expr_code_anywhere_comparison : ∃ p, compile {} comparison = .ok p ∧
    (comparison.filterMap Stmt.declaration?).length < 2 ^ 23 ∧ blockTidy comparison ∧
    ComesTo p {} (amid p 0) 13 (.ok (.boolean false)) (amid p 0).world ∧
    ∃ e, ComesTo p {} (amid p 5) 7 (.error e) (amid p 5).world := by
  have hcount : (comparison.filterMap Stmt.declaration?).length < 2 ^ 23 := by decide
  have htidy : blockTidy comparison := by decide
  have hevaluates : (compile {} comparison).toOption.any fun p =>
      let x (pc : Nat) : Standpoint :=
        ⟨p, {}, 9, amid p pc, fun _ => .slot 0, calleeIndex comparison⟩
      p.functions[0]?.any (fun f => f.entry == 0 && f.localCount == 0) &&
      (x 0).expr 0 [] decided (amid p 0).world == some (.ok (.boolean false), (amid p 0).world) &&
      ((x 5).expr 5 [] (negated .nil) (amid p 5).world).any fun r =>
        r.1.toOption.isNone && r.2 == (amid p 5).world := by decide +kernel
  cases hp : compile {} comparison with
  | error e => simp [hp, Except.toOption] at hevaluates
  | ok p =>
    obtain ⟨f, slots, reads, hf, -, -, hcomes⟩ :=
      expr_code_anywhere {} comparison p hp hcount htidy 0 _ _ rfl
    simp only [hp, Except.toOption, Option.any_some, hf, Bool.and_eq_true, beq_iff_eq,
      Option.any_eq_true] at hevaluates
    obtain ⟨⟨⟨hentry, hlocals⟩, hvalue⟩, ⟨r, w⟩, herror, hfails, rfl⟩ := hevaluates
    rw [hentry] at hcomes
    refine ⟨p, rfl, hcount, htidy, ?_, ?_⟩
    · exact hcomes 0 decided (List.mem_of_getElem? (i := 0) rfl) {} _
        (standsAt_amid hlocals 0) 9 _ _ hvalue
    · cases r with
      | ok v => simp at hfails
      | error e =>
        exact ⟨e, hcomes 5 (negated .nil) (List.mem_of_getElem? (i := 5) rfl) {} _
          (standsAt_amid hlocals 5) 9 _ _ herror⟩

end Meaning
end ScriptMachine
