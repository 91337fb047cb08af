import ScriptMachine.Proofs.Compile.Verified
import ScriptMachine.Proofs.Image.Compiled

namespace ScriptMachine

mutual

def Stmt.unlined : Stmt → Stmt
  | .mk _ action => .mk 0 action.unlined

def Action.unlined : Action → Action
  | .branch condition yes no => .branch condition (unlinedBlock yes) (unlinedBlock no)
  | .whileLoop condition body => .whileLoop condition (unlinedBlock body)
  | .repeatLoop count body => .repeatLoop count (unlinedBlock body)
  | .function name parameters body => .function name parameters (unlinedBlock body)
  | .guard body handlers cleanup =>
    .guard (unlinedBlock body) (unlinedHandlers handlers) (unlinedCleanup cleanup)
  | .write value => .write value
  | .ask name => .ask name
  | .set name value => .set name value
  | .setIndex collection position value => .setIndex collection position value
  | .exit way => .exit way
  | .use name args => .use name args
  | .ret value => .ret value
  | .throw error => .throw error
  | .writeFile content path => .writeFile content path

def Handler.unlined : Handler → Handler
  | .mk typeName binder body => .mk typeName binder (unlinedBlock body)

def unlinedHandlers : List Handler → List Handler
  | [] => []
  | h :: rest => h.unlined :: unlinedHandlers rest

def unlinedCleanup : Option (List Stmt) → Option (List Stmt)
  | none => none
  | some body => some (unlinedBlock body)

def unlinedBlock : List Stmt → List Stmt
  | [] => []
  | s :: rest => s.unlined :: unlinedBlock rest

end

def Declaration.unlined (d : Declaration) : Declaration :=
  { d with line := 0, body := unlinedBlock d.body }

def Program.stripped (p : Program) : Program := { p with debug := none }

@[simp] theorem Program.functions_stripped (p : Program) : p.stripped.functions = p.functions := rfl

@[simp] theorem Program.tries_stripped (p : Program) : p.stripped.tries = p.tries := rfl

theorem unlinedBlock_eq_map (b : List Stmt) : unlinedBlock b = b.map Stmt.unlined := by
  induction b with
  | nil => rfl
  | cons s rest ih => rw [unlinedBlock, ih, List.map_cons]

theorem declaration?_unlined (s : Stmt) :
    s.unlined.declaration? = s.declaration?.map Declaration.unlined := by
  obtain ⟨line, action⟩ := s
  cases action <;> rfl

theorem declarations_unlined (tree : List Stmt) :
    (unlinedBlock tree).filterMap Stmt.declaration? =
      (tree.filterMap Stmt.declaration?).map Declaration.unlined := by
  rw [unlinedBlock_eq_map, List.filterMap_map, List.map_filterMap]
  congr 1
  funext s
  exact declaration?_unlined s

mutual

theorem assigned_stmt_unlined : (s : Stmt) → s.unlined.assigned = s.assigned
  | .mk _ a => by simp only [Stmt.unlined, Stmt.assigned, assigned_action_unlined a]

theorem assigned_action_unlined : (a : Action) → a.unlined.assigned = a.assigned
  | .branch _ yes no => by
    simp only [Action.unlined, Action.assigned, assignedNames_unlined yes, assignedNames_unlined no]
  | .whileLoop _ b | .repeatLoop _ b => by
    simp only [Action.unlined, Action.assigned, assignedNames_unlined b]
  | .guard b hs none => by
    simp only [Action.unlined, unlinedCleanup, Action.assigned, assignedNames_unlined b,
      handlerNames_unlined hs]
  | .guard b hs (some c) => by
    simp only [Action.unlined, unlinedCleanup, Action.assigned, assignedNames_unlined b,
      handlerNames_unlined hs, assignedNames_unlined c]
  | .write _ | .ask _ | .set _ _ | .setIndex _ _ _ | .exit _ | .function _ _ _ | .use _ _ | .ret _
  | .throw _ | .writeFile _ _ => by simp only [Action.unlined, Action.assigned]

theorem assigned_handler_unlined : (h : Handler) → h.unlined.assigned = h.assigned
  | .mk _ _ b => by simp only [Handler.unlined, Handler.assigned, assignedNames_unlined b]

theorem handlerNames_unlined :
    (hs : List Handler) → handlerNames (unlinedHandlers hs) = handlerNames hs
  | [] => rfl
  | h :: rest => by
    simp only [unlinedHandlers, handlerNames, assigned_handler_unlined h, handlerNames_unlined rest]

theorem assignedNames_unlined : (b : List Stmt) → assignedNames (unlinedBlock b) = assignedNames b
  | [] => rfl
  | s :: rest => by
    simp only [unlinedBlock, assignedNames, assigned_stmt_unlined s, assignedNames_unlined rest]

end

namespace Compile

def Context.unlined (cx : Context) : Context := { cx with line := 0 }

def Fragment.unlined (f : Fragment) : Fragment :=
  { f with code := f.code.map fun placed => { placed with line := 0 } }

def unlinedHandler (handler : CatchClause × Fragment) : CatchClause × Fragment :=
  (handler.1, handler.2.unlined)

@[simp] theorem Fragment.size_unlined (f : Fragment) : f.unlined.size = f.size := by
  simp [unlined, size]

@[simp] theorem Fragment.unlined_tables (tables : List TryTable) :
    Fragment.unlined ⟨[], tables⟩ = ⟨[], tables⟩ := rfl

@[simp] theorem Fragment.unlined_append (f g : Fragment) :
    (f ++ g).unlined = f.unlined ++ g.unlined := by
  show Fragment.mk (List.map _ (f.code ++ g.code)) (f.tables ++ g.tables) = _
  rw [List.map_append]
  rfl

@[simp] theorem unlined_emit (cx : Context) (code : List Instruction) :
    (emit cx code).unlined = emit cx.unlined code := by
  simp [emit, Fragment.ofCode, Fragment.unlined, Context.unlined]

@[simp] theorem Fragment.unlined_closeExits (stop skip : BitVec 24) (f : Fragment) :
    (f.closeExits stop skip).unlined = f.unlined.closeExits stop skip := by
  simp [closeExits, unlined]

theorem unlined_joinHandlers (exit : Fragment) (handlers : List (CatchClause × Fragment)) :
    (joinHandlers exit handlers).unlined =
      joinHandlers exit.unlined (handlers.map unlinedHandler) := by
  induction handlers with
  | nil => rfl
  | cons handler rest ih =>
    simp only [joinHandlers, List.map_cons, List.foldr_cons, Fragment.unlined_append] at ih ⊢
    rw [ih]
    rfl

section expressions

variable (cx : Context)

theorem store_unlined (name : Text) : store cx.unlined name = store cx name := rfl

theorem load_unlined (name : Text) : load cx.unlined name = load cx name := rfl

theorem callee_unlined (name : Text) (given : Nat) :
    callee cx.unlined name given = callee cx name given := rfl

mutual

theorem expr_unlined (start : Nat) : (e : Expr) → expr cx.unlined start e = expr cx start e
  | .number _ | .string _ | .boolean _ | .nil => by simp only [expr]
  | .identifier name => by simp only [expr, load_unlined]
  | .unary _ e | .newError _ e | .errorMessage e | .errorType e | .fileText e => by
    simp only [expr, expr_unlined start e]
  | .binary _ l r | .logical _ l r | .index l r => by
    simp only [expr, expr_unlined start l, fun first => expr_unlined first r]
  | .call _ args => by simp only [expr, callee_unlined, exprs_unlined start args]
  | .list items => by simp only [expr, exprs_unlined start items]
  | .dict entries => by simp only [expr, dictEntries_unlined start entries]

theorem exprs_unlined (start : Nat) :
    (es : List Expr) → exprs cx.unlined start es = exprs cx start es
  | [] => by simp only [exprs]
  | e :: rest => by
    simp only [exprs, expr_unlined start e, fun next => exprs_unlined next rest]

theorem dictEntries_unlined (start : Nat) : (es : List (Text × Expr)) →
    dictEntries cx.unlined start es = dictEntries cx start es
  | [] => by simp only [dictEntries]
  | (_, e) :: rest => by
    simp only [dictEntries, expr_unlined (start + 1) e, fun next => dictEntries_unlined next rest]

end

end expressions

theorem counterSlot_unlined (cx : Context) : counterSlot cx.unlined = counterSlot cx := rfl

theorem loopExit_unlined (cx : Context) (start : Nat) (way : LoopExit) :
    loopExit cx.unlined start way = Fragment.unlined <$> loopExit cx start way := by
  have hloop : cx.unlined.loop = cx.loop := rfl
  have hcleanups : cx.unlined.cleanups = cx.cleanups := rfl
  simp only [loopExit, hloop, hcleanups]
  cases cx.loop with
  | none => rfl
  | some outer =>
    obtain ⟨tries, cleanups⟩ := outer
    dsimp only
    split
    · rfl
    · simp only [map_bind, map_pure, Fragment.unlined_append, unlined_emit]
      rfl

theorem catchStart_unlined (cx : Context) (binder : Text) :
    catchStart cx.unlined binder = catchStart cx binder := rfl

@[simp] theorem Context.inBlock_unlined (cx : Context) : cx.unlined.inBlock = cx.inBlock.unlined :=
  rfl

@[simp] theorem Context.inLoop_unlined (cx : Context) : cx.unlined.inLoop = cx.inLoop.unlined := rfl

@[simp] theorem Context.inTry_unlined (cx : Context) : cx.unlined.inTry = cx.inTry.unlined := rfl

@[simp] theorem Context.inCleanup_unlined (cx : Context) :
    cx.unlined.inCleanup = cx.inCleanup.unlined := rfl

theorem Context.onLine_zero (cx : Context) : cx.onLine 0 = cx := if_pos rfl

theorem Context.unlined_onLine (cx : Context) (line : Nat) :
    (cx.onLine line).unlined = cx.unlined := by
  unfold Context.onLine
  split
  · rfl
  · rfl

theorem size_unlinedHandler (handler : CatchClause × Fragment) :
    (unlinedHandler handler).2.size = handler.2.size := handler.2.size_unlined

theorem clause_unlinedHandler (handler : CatchClause × Fragment) :
    (unlinedHandler handler).1 = handler.1 := rfl

mutual

theorem action_unlined (cx : Context) (start : Nat) : (a : Action) →
    action cx.unlined start a.unlined = Fragment.unlined <$> action cx start a
  | .write e | .ret (some e) | .throw e => by
    simp only [Action.unlined, action, expr_unlined, map_bind, map_pure, unlined_emit]
  | .ask name => by
    simp only [Action.unlined, action, store_unlined, map_bind, map_pure, unlined_emit]
  | .set name e => by
    simp only [Action.unlined, action, expr_unlined, store_unlined, map_bind, map_pure,
      unlined_emit]
  | .setIndex c i e => by
    simp only [Action.unlined, action, expr_unlined, map_bind, map_pure, unlined_emit]
  | .branch c yes no => by
    have hyes (next : Nat) := block_unlined cx.inBlock next yes
    have hno (next : Nat) := block_unlined cx.inBlock next no
    have hempty : (unlinedBlock no).isEmpty = no.isEmpty := by
      rw [unlinedBlock_eq_map, List.isEmpty_map]
    simp only [Action.unlined, action, expr_unlined, Context.inBlock_unlined, hyes, hno, hempty,
      bind_map_left, map_bind, Fragment.size_unlined]
    congr 1
    funext condition
    congr 1
    funext whenTrue
    split
    · simp only [map_bind, map_pure, Fragment.unlined_append, unlined_emit]
    · simp only [map_bind, map_pure, Fragment.unlined_append, unlined_emit]
  | .whileLoop c b => by
    have hbody (next : Nat) := block_unlined cx.inLoop next b
    simp only [Action.unlined, action, expr_unlined, Context.inLoop_unlined, hbody, bind_map_left,
      map_bind, map_pure, Fragment.size_unlined, Fragment.unlined_append,
      Fragment.unlined_closeExits, unlined_emit]
  | .repeatLoop n b => by
    have hbody (next : Nat) := block_unlined cx.inLoop next b
    simp only [Action.unlined, action, expr_unlined, counterSlot_unlined, Context.inLoop_unlined,
      hbody, bind_map_left, map_bind, map_pure, Fragment.size_unlined, Fragment.unlined_append,
      Fragment.unlined_closeExits, unlined_emit]
  | .exit way => by simpa only [Action.unlined, action] using loopExit_unlined cx start way
  | .function name ps b => by
    simp only [Action.unlined, action]
    show (if !cx.isMain || cx.nested then _ else _) = _
    split
    · rfl
    · rfl
  | .use name args => by
    simp only [Action.unlined, action, exprs_unlined, callee_unlined, map_bind, map_pure,
      unlined_emit]
  | .ret none => by simp only [Action.unlined, action, map_bind, map_pure, unlined_emit]
  | .guard b hs c => by
    have hbody (next : Nat) := block_unlined cx.inTry next b
    have hhandlers (next : Nat) := catches_unlined cx.inTry next hs
    have hcleanup (next : Nat) := cleanupBlock_unlined cx next c
    simp only [Action.unlined, action, Context.inTry_unlined, hbody, hhandlers, hcleanup,
      bind_map_left, map_bind, map_pure, List.map_map, Function.comp_def, Fragment.size_unlined,
      size_unlinedHandler, clause_unlinedHandler, Fragment.unlined_append, Fragment.unlined_tables,
      unlined_joinHandlers, unlined_emit]
  | .writeFile c p => by
    simp only [Action.unlined, action, expr_unlined, map_bind, map_pure, unlined_emit]

theorem handler_unlined (cx : Context) (start : Nat) : (h : Handler) →
    handler cx.unlined start h.unlined = unlinedHandler <$> handler cx start h
  | .mk _ binder b => by
    have hbody (next : Nat) := block_unlined cx next b
    simp only [Handler.unlined, handler, catchStart_unlined, hbody, bind_map_left, map_bind,
      map_pure, unlinedHandler, Fragment.unlined_append, unlined_emit]

theorem catches_unlined (cx : Context) (start : Nat) : (hs : List Handler) →
    catches cx.unlined start (unlinedHandlers hs) = List.map unlinedHandler <$> catches cx start hs
  | [] => rfl
  | h :: rest => by
    have hrest (next : Nat) := catches_unlined cx next rest
    simp only [unlinedHandlers, catches, handler_unlined cx start h, hrest, bind_map_left, map_bind,
      map_pure, size_unlinedHandler, List.map_cons]

theorem cleanupBlock_unlined (cx : Context) (start : Nat) : (c : Option (List Stmt)) →
    cleanupBlock cx.unlined start (unlinedCleanup c) =
      (fun r => (r.1, r.2.unlined)) <$> cleanupBlock cx start c
  | none => rfl
  | some b => by
    have hbody (next : Nat) := block_unlined cx.inCleanup next b
    simp only [unlinedCleanup, cleanupBlock, Context.inCleanup_unlined, hbody, bind_map_left,
      map_bind, map_pure, Fragment.unlined_append, unlined_emit]

theorem block_unlined (cx : Context) (start : Nat) : (b : List Stmt) →
    block cx.unlined start (unlinedBlock b) = Fragment.unlined <$> block cx start b
  | [] => rfl
  | .mk line a :: rest => by
    have hfirst := action_unlined (cx.onLine line) start a
    have hrest (next : Nat) := block_unlined (cx.onLine line) next rest
    rw [Context.unlined_onLine] at hfirst
    simp only [Context.unlined_onLine] at hrest
    simp only [unlinedBlock, Stmt.unlined, block, Context.onLine_zero, hfirst, hrest, bind_map_left,
      map_bind, map_pure, Fragment.size_unlined, Fragment.unlined_append]

end

def Assembly.unlined (asm : Assembly) : Assembly := { asm with lines := asm.lines.map fun _ => 0 }

theorem relocateAll_unlined (function : Text) (entry index : Nat) (code : List Placed) :
    relocateAll function entry index (code.map fun placed => { placed with line := 0 }) =
      relocateAll function entry index code := by
  induction code generalizing index with
  | nil => rfl
  | cons placed rest ih => simp only [List.map_cons, relocateAll, ih]

theorem add_unlined (asm : Assembly) (f : Function) (fragment : Fragment) :
    asm.unlined.add f fragment.unlined = Assembly.unlined <$> asm.add f fragment := by
  have hlines : asm.unlined.lines ++ fragment.unlined.code.map Placed.line =
      (asm.lines ++ fragment.code.map Placed.line).map fun _ => 0 := by
    apply Array.toList_inj.1
    simp [Assembly.unlined, Fragment.unlined, Array.toList_appendList]
  -- the lines are put together as they are; addresses depend on the sizes of the code only
  simp only [Assembly.add, hlines, map_bind, map_pure]
  simp only [Fragment.unlined, relocateAll_unlined]
  rfl

theorem addMain_unlined (cx : Context) (tree : List Stmt) (asm : Assembly) :
    addMain cx.unlined (unlinedBlock tree) asm.unlined =
    Assembly.unlined <$> addMain cx tree asm := by
  simp only [addMain, block_unlined, bind_map_left, map_bind, ← add_unlined,
    Fragment.unlined_append, unlined_emit]

theorem bindParameters_unlined (cx : Context) (ps : List Parameter) :
    bindParameters cx.unlined ps = bindParameters cx ps := by
  induction ps with
  | nil => rfl
  | cons parameter rest ih =>
    simp only [bindParameters, ih]
    rfl

theorem addFunction_unlined (cx : Context) (asm : Assembly) (f : Function) (d : Declaration) :
    addFunction cx.unlined asm.unlined (f, d.unlined) =
      Assembly.unlined <$> addFunction cx asm (f, d) := by
  let inside : Context := { cx with function := d.name, isMain := false, line := d.line.toUInt32 }
  have hinside : { cx.unlined with
      function := d.unlined.name, isMain := false, line := d.unlined.line.toUInt32 } =
      inside.unlined := rfl
  have hbody : block inside.unlined 0 d.unlined.body = Fragment.unlined <$> block inside 0 d.body :=
    block_unlined inside 0 d.body
  simp only [addFunction, hinside, hbody, bindParameters_unlined, bind_map_left, map_bind,
    ← add_unlined, Fragment.unlined_append, unlined_emit]
  rfl

theorem functions_unlined (cx : Context) (units : List (Function × Declaration)) (asm : Assembly) :
    (units.map (Prod.map id Declaration.unlined)).foldlM (addFunction cx.unlined) asm.unlined =
      Assembly.unlined <$> units.foldlM (addFunction cx) asm := by
  induction units generalizing asm with
  | nil => simp only [List.map_nil, List.foldlM_nil, map_pure]
  | cons unit rest ih =>
    obtain ⟨f, d⟩ := unit
    simp only [List.map_cons, List.foldlM_cons, Prod.map_apply, id_eq, addFunction_unlined,
      bind_map_left, map_bind, ih]

theorem headers_unlined (ds : List Declaration) :
    headers (ds.map Declaration.unlined) = headers ds := by
  unfold headers
  rw [List.foldlM_map]
  rfl

theorem program_unlined (options : Options) (tree : List Stmt) :
    program { options with debug := false } (unlinedBlock tree) =
      Program.stripped <$> program options tree := by
  simp only [program, declarations_unlined, headers_unlined, assignedNames_unlined,
    List.zip_map_right, map_bind]
  refine bind_congr fun _ => bind_congr fun functions => ?_
  let cx : Context :=
    { function := mainName, isMain := true, functions,
      knownGlobals := options.hostGlobals ++ assignedNames tree }
  have hmain := addMain_unlined cx tree {}
  have hfunctions := functions_unlined cx (functions.toList.zip (tree.filterMap Stmt.declaration?))
  rw [show Assembly.unlined {} = {} by simp [Assembly.unlined]] at hmain
  rw [show cx.unlined = cx from rfl] at hmain hfunctions
  rw [hmain, bind_map_left]
  refine bind_congr fun main => ?_
  rw [hfunctions, bind_map_left]
  rfl

theorem program_stripped (options : Options) (tree : List Stmt) :
    program { options with debug := false } tree = Program.stripped <$> program options tree := by
  simp only [program, map_bind, map_pure]
  rfl

theorem program_lines (options : Options) {tree tree' : List Stmt}
    (h : unlinedBlock tree = unlinedBlock tree') :
    program { options with debug := false } tree' = Program.stripped <$> program options tree := by
  rw [program_stripped, ← program_unlined, ← h, program_unlined]

/-- There is a line for each instruction that has been placed, and a name for each local slot. -/
structure Assembly.Aligned (asm : Assembly) : Prop where
  lines : asm.lines.size = asm.code.size
  locals : asm.locals.map Array.size = asm.functions.map Function.localCount

theorem gives_length_relocateAll (function : Text) (entry index : Nat) (code : List Placed) :
    Gives (relocateAll function entry index code) fun moved => moved.length = code.length := by
  induction code generalizing index with
  | nil => exact .pure rfl
  | cons placed rest ih =>
    refine .after _ fun ins => (ih (index + 1)).bind fun more hmore => .pure ?_
    rw [List.length_cons, List.length_cons, hmore]

theorem Assembly.Aligned.add {asm : Assembly} (h : asm.Aligned) (f : Function)
    (fragment : Fragment) :
    Gives (asm.add f fragment) Assembly.Aligned := by
  refine (gives_length_relocateAll _ _ _ _).bind fun code hcode => .after _ fun tries => ?_
  refine .after get fun draft => .pure ⟨?_, ?_⟩
  · simp [size_append_list, h.lines, hcode]
  · simp [h.locals]

theorem gives_aligned (options : Options) (tree : List Stmt) :
    Gives (program options tree) fun p => ∀ info, p.debug = some info →
      Verify.checkDebug p info = .ok () := by
  have hempty : Assembly.Aligned {} := ⟨rfl, by simp⟩
  have hfunction (cx : Context) (asm : Assembly) (unit : Function × Declaration) (h : asm.Aligned) :
      Gives (addFunction cx asm unit) Assembly.Aligned :=
    .after _ fun _ => .after _ fun _ => .after _ fun _ => .after _ fun _ => h.add _ _
  refine .after _ fun _ => .after _ fun functions => ?_
  refine Gives.bind (.after _ fun _ => .after _ fun _ => hempty.add _ _) fun main hmain => ?_
  refine (gives_foldlM (hfunction _) _ hmain).bind fun asm hasm => .after get fun draft => .pure ?_
  intro info hinfo
  split at hinfo
  · cases hinfo
    exact checkDebug_of_sizes hasm.lines hasm.locals
  · cases hinfo

end Compile

namespace Verify

section stripped

variable (p : Program)

theorem checkFunctions_stripped (entry : Nat) (fs : List Function) :
    checkFunctions p.stripped entry fs = checkFunctions p entry fs := by
  induction fs generalizing entry with
  | nil => rfl
  | cons f rest ih =>
    simp only [checkFunctions, ih]
    rfl

theorem run_stripped (f : Function) (index count : Nat) (x : Exploration) :
    x.run p.stripped f index count = x.run p f index count := by
  have hdemands (pc : Nat) (state : FlowState) : demands p.stripped f pc state =
      demands p f pc state :=
    rfl
  induction count generalizing x with
  | zero => rfl
  | succ count ih => simp only [Exploration.run, hdemands, ih]

theorem functionDepths_stripped (index : Nat) (owners : Array (Option Nat)) (fs : List Function) :
    functionDepths p.stripped index owners fs = functionDepths p index owners fs := by
  induction fs generalizing index owners with
  | nil => rfl
  | cons f rest ih => simp only [functionDepths, explore, run_stripped, ih]

end stripped

theorem checkLayout_stripped {p : Program}
    (h : ∀ info, p.debug = some info → checkDebug p info = .ok ()) :
    checkLayout p.stripped = checkLayout p := by
  cases hdebug : p.debug with
  | none =>
    simp only [checkLayout, checkFunctions_stripped, hdebug]
    rfl
  | some info =>
    simp only [checkLayout, checkFunctions_stripped, hdebug, h info hdebug]
    rfl

theorem verify_stripped {p : Program}
    (h : ∀ info, p.debug = some info → checkDebug p info = .ok ()) :
    p.stripped.verify = p.verify.map Program.stripped := by
  simp only [Program.verify, inspect, checkLayout_stripped h]
  cases checkLayout p with
  | error e => rfl
  | ok _ =>
    have hdepths :=
      functionDepths_stripped p 0 (Array.replicate p.tries.size none) p.functions.toList
    simp only [Program.functions_stripped, Program.tries_stripped, hdepths]
    cases (functionDepths p 0 (Array.replicate p.tries.size none) p.functions.toList).2 with
    | none => rfl
    | some e => rfl

end Verify

/-- A tree with other lines, compiled without debug information, comes to the same program less the
debug information, or fails with the same error. -/
theorem compile_lines (options : Compile.Options) {tree tree' : List Stmt}
    (h : unlinedBlock tree = unlinedBlock tree') :
    compile { options with debug := false } tree' =
    (compile options tree).map Program.stripped := by
  unfold compile
  rw [Compile.program_lines options h, StateT.run_map]
  cases hrun : (Compile.program options tree).run {} with
  | error e => rfl
  | ok result =>
    obtain ⟨p, draft⟩ := result
    have hverify := Verify.verify_stripped (Compile.gives_aligned options tree _ p draft hrun)
    cases hresult : p.verify with
    | error e => simp only [Functor.map, Except.map, hverify, hresult]
    | ok verified => simp only [Functor.map, Except.map, hverify, hresult]

end ScriptMachine
