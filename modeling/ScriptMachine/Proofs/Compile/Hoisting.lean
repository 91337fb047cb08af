import ScriptMachine.Proofs.Compile.Lines
import ScriptMachine.Proofs.Machine.Safety

namespace ScriptMachine

def Stmt.isDefinition (s : Stmt) : Bool := s.declaration?.isSome

def definitions (tree : List Stmt) : List Stmt := tree.filter Stmt.isDefinition

/-- The statements that the main program executes. -/
def executed (tree : List Stmt) : List Stmt := tree.filter fun s => !s.isDefinition

/-- The tree with its function definitions moved to the front. -/
def hoisted (tree : List Stmt) : List Stmt := definitions tree ++ executed tree

theorem definitions_append (xs ys : List Stmt) :
    definitions (xs ++ ys) = definitions xs ++ definitions ys := List.filter_append ..

theorem executed_append (xs ys : List Stmt) : executed (xs ++ ys) = executed xs ++ executed ys :=
  List.filter_append ..

theorem definitions_hoisted (tree : List Stmt) : definitions (hoisted tree) = definitions tree := by
  have hnone : definitions (executed tree) = [] := by
    simp [definitions, executed, List.filter_filter]
  have hall : definitions (definitions tree) = definitions tree := by simp [definitions]
  rw [hoisted, definitions_append, hall, hnone, List.append_nil]

theorem executed_hoisted (tree : List Stmt) : executed (hoisted tree) = executed tree := by
  have hnone : executed (definitions tree) = [] := by
    simp [definitions, executed, List.filter_filter]
  have hall : executed (executed tree) = executed tree := by simp [executed]
  rw [hoisted, executed_append, hnone, hall, List.nil_append]

theorem declarations_of_definitions (tree : List Stmt) :
    (definitions tree).filterMap Stmt.declaration? = tree.filterMap Stmt.declaration? := by
  unfold definitions
  induction tree with
  | nil => rfl
  | cons s rest ih =>
    cases hs : s.declaration? with
    | none => simp [Stmt.isDefinition, hs, ih]
    | some d => simp [Stmt.isDefinition, hs, ih]

theorem assigned_of_isDefinition {s : Stmt} (h : s.isDefinition) : s.assigned = [] := by
  obtain ⟨line, action⟩ := s
  cases action with
  | function name parameters body => simp [Stmt.assigned, Action.assigned]
  | _ => cases h

theorem assignedNames_executed (tree : List Stmt) :
    assignedNames (executed tree) = assignedNames tree := by
  induction tree with
  | nil => rfl
  | cons s rest ih =>
    unfold executed at ih ⊢
    cases hs : s.isDefinition with
    | true => simp [hs, assignedNames, assigned_of_isDefinition hs, ih]
    | false => simp [hs, assignedNames, ih]

namespace Compile

theorem action_definition {cx : Context} (hmain : cx.isMain) (hnested : cx.nested = false)
    (start : Nat) (name : Text) (parameters : List Parameter) (body : List Stmt) :
    action cx start (.function name parameters body) = return {} := by
  rw [action, if_neg (by simp [hmain, hnested])]

theorem Fragment.empty_append (f : Fragment) : ({} : Fragment) ++ f = f := rfl

theorem block_executed {cx : Context} (hmain : cx.isMain) (hnested : cx.nested = false)
    (start : Nat) (tree : List Stmt) :
    block cx start (unlinedBlock (executed tree)) = block cx start (unlinedBlock tree) := by
  induction tree generalizing start with
  | nil => rfl
  | cons s rest ih =>
    unfold executed at ih ⊢
    obtain ⟨line, a⟩ := s
    cases hs : Stmt.isDefinition ⟨line, a⟩ with
    | true =>
      cases a with
      | function name parameters body =>
        simp only [List.filter_cons, hs, Bool.not_true, Bool.false_eq_true, if_false, ih,
          unlinedBlock, Stmt.unlined, Action.unlined, block, Context.onLine_zero,
          action_definition hmain hnested, pure_bind, Fragment.empty_append, bind_pure]
        rfl
      | _ => cases hs
    | false =>
      simp only [List.filter_cons, hs, Bool.not_false, if_true, unlinedBlock, Stmt.unlined, block,
        Context.onLine_zero, ih]

theorem program_unlinedBlock (options : Options) (tree : List Stmt) :
    program { options with debug := false } (unlinedBlock tree) =
      program { options with debug := false } tree := by
  rw [program_unlined, program_stripped]

theorem program_interleaved (options : Options) {tree tree' : List Stmt}
    (hdefinitions : definitions tree = definitions tree')
    (hexecuted : executed tree = executed tree') :
    program { options with debug := false } tree =
    program { options with debug := false } tree' := by
  have hdeclarations : tree.filterMap Stmt.declaration? = tree'.filterMap Stmt.declaration? := by
    rw [← declarations_of_definitions, hdefinitions, declarations_of_definitions]
  have hassigned : assignedNames tree = assignedNames tree' := by
    rw [← assignedNames_executed, hexecuted, assignedNames_executed]
  rw [← program_unlinedBlock options tree, ← program_unlinedBlock options tree']
  simp only [program, declarations_unlined, assignedNames_unlined, hdeclarations, hassigned]
  refine bind_congr fun _ => bind_congr fun functions => ?_
  congr 1
  simp only [addMain]
  rw [← block_executed rfl rfl 0 tree, hexecuted, block_executed rfl rfl 0 tree']

end Compile

theorem compile_interleaved (options : Compile.Options) {tree tree' : List Stmt}
    (hdefinitions : definitions tree = definitions tree')
    (hexecuted : executed tree = executed tree') :
    compile { options with debug := false } tree =
    compile { options with debug := false } tree' := by
  unfold compile
  rw [Compile.program_interleaved options hdefinitions hexecuted]

/-- Without debug information, a tree comes to the same program as the tree with its definitions
first, or fails with the same error; and so does every tree in which the definitions stand elsewhere
among the other statements. So a function can be called before its definition, and can read and
write globals that are set after it. -/
theorem compile_hoisted (options : Compile.Options) (hdebug : options.debug = false)
    (tree : List Stmt) : compile options tree = compile options (hoisted tree) ∧
      ∀ tree', definitions tree' = definitions tree → executed tree' = executed tree →
        compile options tree' = compile options tree := by
  have hplain : options = { options with debug := false } := by rw [← hdebug]
  rw [hplain]
  refine ⟨compile_interleaved options (definitions_hoisted tree).symm (executed_hoisted tree).symm,
    ?_⟩
  intro tree' hdefinitions hexecuted
  exact compile_interleaved options hdefinitions hexecuted

/-- A global that is set by a function defined last and first set by the main program before
that. -/
def calledEarly : List Stmt :=
  [.mk 1 (.write (.call [0x66] [])), .mk 2 (.set [0x78] (.number .one)),
   .mk 3 (.function [0x66] [] [.mk 4 (.set [0x78] .nil), .mk 5 (.ret (some (.identifier [0x78])))])]

/-- The call comes first and the store of the main program after it; the function has a store and a
load of the same global. -/
theorem compile_hoisted_calledEarly : hoisted calledEarly ≠ calledEarly ∧
    ∃ p, compile {} calledEarly = .ok p ∧ compile {} (hoisted calledEarly) = .ok p ∧
      p.code[0]? = some (.of .call 1) ∧ p.code[3]? = some (.of .storeGlobal 0) ∧
      p.code[6]? = some (.of .storeGlobal 0) ∧ p.code[7]? = some (.of .loadGlobal 0) := by
  have hmoved : (hoisted calledEarly).map Stmt.line ≠ calledEarly.map Stmt.line := by decide
  have hcode : ∃ p ∈ (compile {} calledEarly).toOption,
      p.code[0]? = some (.of .call 1) ∧ p.code[3]? = some (.of .storeGlobal 0) ∧
      p.code[6]? = some (.of .storeGlobal 0) ∧ p.code[7]? = some (.of .loadGlobal 0) := by
    decide +kernel
  obtain ⟨p, hp, hplaces⟩ := hcode
  have hcompile := Machine.eq_ok_of_toOption hp
  refine ⟨fun h => hmoved (congrArg (List.map Stmt.line) h), p, hcompile, ?_, hplaces⟩
  rw [← (compile_hoisted {} rfl calledEarly).1, hcompile]

end ScriptMachine
