import ScriptMachine.Proofs.Meaning.Running

namespace ScriptMachine
namespace Meaning
open Machine Compile

section

variable {limits : Limits} {K : Nat} {c : Site} {cells operands : List Value} {pc : Nat}

/-- Names that do not start with a dollar sign, as the names of loop counters do. -/
def Plain (name : Text) : Prop := name.head? ≠ some 0x24

instance : DecidablePred Plain := fun name => inferInstanceAs (Decidable (name.head? ≠ some 0x24))

/-- Names stand for the slots and globals that they stand for in the text. -/
structure Resolves (L : Layout) (scope : Scope) : Prop where
  slot {i : Nat} {name : Text} : L.locals[i]? = some name → Plain name → scope.isLocal name = true
  shared {name : Text} : L.Shared name → scope.isLocal name = false
  nodup : L.locals.Nodup
  global {i : Nat} {name : Text} : L.program.globals[i]? = some name →
    L.program.globalIndex? name = some i

/-- The cells of a function hold its locals. -/
structure Matches (L : Layout) (cells : List Value) (locals : Locals) : Prop where
  length : cells.length = L.locals.length
  cell {i : Nat} {name : Text} : L.locals[i]? = some name → Plain name →
    cells[i]? = some (locals name)

/-- Calls do what the text says, from the given locals on. -/
def Answers (limits : Limits) (K : Nat) (L : Layout) (X : Activation) (c : Site)
    (cells : List Value) : Prop :=
  ∀ {pc name args operands}, L.Calls pc name args.length →
    Runs L.program limits K c cells pc (args.reverse ++ operands)
      (X.call name args (c.below.length + cells.length + operands.length)) (fun _ => pc + 1)
      fun v => v :: operands

/-- A function is at work with the given locals. -/
structure Ready (limits : Limits) (K : Nat) (L : Layout) (X : Activation) (c : Site)
    (cells : List Value) (locals : Locals) : Prop where
  stands : c.Stands cells.length
  names : Resolves L X.scope
  slots : Matches L cells locals
  calls : Answers limits K L X c cells

variable {L : Layout} {X : Activation} {locals : Locals}

theorem runs_reads (h : Ready limits K L X c cells locals) {name : Text} (hname : Plain name)
    (hat : L.Reads pc name) : Runs L.program limits K c cells pc operands
      (if X.scope.isLocal name then pure (locals name) else .global name) (fun _ => pc + 1)
      fun v => v :: operands := by
  rcases hat with ⟨i, hat, hi⟩ | ⟨i, hat, hi, hshared⟩
  · rw [if_pos (h.names.slot hi hname)]
    exact runs_loadLocal hat (h.slots.cell hi hname)
  · rw [if_neg (by simp [h.names.shared hshared])]
    exact runs_loadGlobal hat hi (h.names.global hi) h.stands

theorem Eval.exists_of_bind {m : Eval α} {f : α → Eval β} {b : β} {μ μ'' : Memory}
    (h : (m >>= f) μ = some (.ok b, μ'')) :
    ∃ a μ', m μ = some (.ok a, μ') ∧ f a μ' = some (.ok b, μ'') := by
  simp only [Bind.bind] at h
  split at h
  · cases h
  · next a μ' hm => exact ⟨a, μ', hm, h⟩
  · cases h

theorem length_exprs {height : Nat} {es : List Expr} {values : List Value} {μ μ' : Memory}
    (h : exprs X locals height es μ = some (.ok values, μ')) : values.length = es.length := by
  induction es generalizing height values μ with
  | nil =>
    rw [exprs] at h
    cases h
    rfl
  | cons e es ih =>
    rw [exprs] at h
    obtain ⟨v, μ₁, -, h⟩ := Eval.exists_of_bind h
    obtain ⟨rest, μ₂, hrest, h⟩ := Eval.exists_of_bind h
    cases h
    rw [List.length_cons, List.length_cons, ih hrest]

theorem length_entries {height : Nat} {es : List (Text × Expr)} {pairs : List (Text × Value)}
    {μ μ' : Memory} (h : entries X locals height es μ = some (.ok pairs, μ')) :
    pairs.length = es.length := by
  induction es generalizing height pairs μ with
  | nil =>
    rw [entries] at h
    cases h
    rfl
  | cons entry es ih =>
    obtain ⟨key, e⟩ := entry
    rw [entries] at h
    obtain ⟨v, μ₁, -, h⟩ := Eval.exists_of_bind h
    obtain ⟨rest, μ₂, hrest, h⟩ := Eval.exists_of_bind h
    cases h
    rw [List.length_cons, List.length_cons, ih hrest]

mutual

theorem runs_expr (h : Ready limits K L X c cells locals) : (e : Expr) → ∀ {pc pc' height operands},
    ExprAt L e pc pc' → (∀ name ∈ exprVariables e, Plain name) →
    height = c.below.length + cells.length + operands.length →
    Runs L.program limits K c cells pc operands (expr X locals height e) (fun _ => pc')
      fun v => v :: operands
  | .number x, _, _, _, _, ⟨hload, hpc⟩, _, _ => by
    subst hpc
    rw [expr]
    exact runs_loads hload
  | .string t, _, _, _, _, ⟨hload, hpc⟩, _, _ => by
    subst hpc
    rw [expr]
    exact runs_loads hload
  | .boolean b, _, _, _, _, ⟨hload, hpc⟩, _, _ => by
    subst hpc
    rw [expr]
    exact runs_loads hload
  | .nil, _, _, _, _, ⟨hload, hpc⟩, _, _ => by
    subst hpc
    rw [expr]
    exact runs_loads hload
  | .identifier name, _, _, _, _, ⟨hread, hpc⟩, hnames, _ => by
    subst hpc
    rw [expr]
    exact runs_reads h (hnames name List.mem_cons_self) hread
  | .unary op e, _, _, _, _, ⟨q, he, hat, hpc⟩, hnames, hheight => by
    subst hpc
    rw [expr]
    exact (runs_expr h e he hnames hheight).bind fun v => runs_unaryOp op hat h.stands v
  | .binary op l r, _, _, _, _, ⟨q, s, hl, hr, hat, hpc⟩, hnames, hheight => by
    subst hpc
    rw [exprVariables, List.forall_mem_append] at hnames
    rw [expr]
    refine (runs_expr h l hl hnames.1 hheight).bind fun left => ?_
    refine (runs_expr h r hr hnames.2 (by rw [List.length_cons]; omega)).bind fun right => ?_
    exact runs_binaryOp op hat h.stands left right
  | .logical op l r, _, _, _, _, ⟨q, t, s, u, hl, htest, hjump, hr, htest', hjump', hload, hskip,
      hload', hpc⟩, hnames, hheight => by
    subst hpc
    rw [exprVariables, List.forall_mem_append] at hnames
    rw [expr]
    refine (runs_expr h l hl hnames.1 hheight).bind fun left => ?_
    refine (runs_decides htest hjump h.stands left).bind fun holds => ?_
    by_cases hdecisive : holds = decide (op = .or)
    · simp only [if_pos hdecisive]
      rw [hdecisive]
      exact runs_loads hload'
    · simp only [if_neg hdecisive]
      refine (runs_expr h r hr hnames.2 hheight).bind fun right => ?_
      exact (runs_decides htest' hjump' h.stands right).bind fun holds =>
        runs_decided hload hskip hload' holds
  | .call name args, _, _, _, _, ⟨q, hargs, hcall, hpc⟩, hnames, hheight => by
    subst hpc
    rw [expr]
    refine (runs_exprs h args hargs hnames hheight).bind_of fun values ⟨μ, μ', hvalues⟩ => ?_
    rw [hheight]
    exact h.calls (length_exprs hvalues ▸ hcall)
  | .list items, _, _, _, _, ⟨q, hitems, hat, hpc⟩, hnames, hheight => by
    subst hpc
    rw [expr]
    refine (runs_exprs h items hitems hnames hheight).bind_of fun values ⟨μ, μ', hvalues⟩ => ?_
    exact runs_makeList hat (length_exprs hvalues).symm h.stands
  | .dict pairs, _, _, _, _, ⟨q, hpairs, hat, hpc⟩, hnames, hheight => by
    subst hpc
    rw [expr]
    refine (runs_entries h pairs hpairs hnames hheight).bind_of fun values ⟨μ, μ', hvalues⟩ => ?_
    exact runs_makeDict hat (length_entries hvalues).symm h.stands
  | .index l r, _, _, _, _, ⟨q, s, hl, hr, hat, hpc⟩, hnames, hheight => by
    subst hpc
    rw [exprVariables, List.forall_mem_append] at hnames
    rw [expr]
    refine (runs_expr h l hl hnames.1 hheight).bind fun left => ?_
    refine (runs_expr h r hr hnames.2 (by rw [List.length_cons]; omega)).bind fun right => ?_
    exact runs_indexGet hat h.stands left right
  | .newError typeName e, _, _, _, _, ⟨q, i, he, hat, hi, hpc⟩, hnames, hheight => by
    subst hpc
    rw [expr]
    exact (runs_expr h e he hnames hheight).bind fun v => runs_makeError hat hi h.stands v
  | .errorMessage e, _, _, _, _, ⟨q, he, hat, hpc⟩, hnames, hheight => by
    subst hpc
    rw [expr]
    exact (runs_expr h e he hnames hheight).bind fun v =>
      runs_errorText hat h.stands (fun _ => rfl) (fun _ _ => rfl) v
  | .errorType e, _, _, _, _, ⟨q, he, hat, hpc⟩, hnames, hheight => by
    subst hpc
    rw [expr]
    exact (runs_expr h e he hnames hheight).bind fun v =>
      runs_errorText hat h.stands (fun _ => rfl) (fun _ _ => rfl) v
  | .fileText e, _, _, _, _, ⟨q, he, hat, hpc⟩, hnames, hheight => by
    subst hpc
    rw [expr]
    exact (runs_expr h e he hnames hheight).bind fun v => runs_readFile hat h.stands v

theorem runs_exprs (h : Ready limits K L X c cells locals) : (es : List Expr) →
    ∀ {pc pc' height operands}, ExprsAt L es pc pc' → (∀ name ∈ exprsVariables es, Plain name) →
    height = c.below.length + cells.length + operands.length →
    Runs L.program limits K c cells pc operands (exprs X locals height es) (fun _ => pc')
      fun values => values.reverse ++ operands
  | [], _, _, _, _, hpc, _, _ => by
    rw [exprs]
    exact runs_here hpc rfl
  | e :: rest, _, _, _, _, ⟨q, he, hrest⟩, hnames, hheight => by
    rw [exprsVariables, List.forall_mem_append] at hnames
    rw [exprs]
    refine (runs_expr h e he hnames.1 hheight).bind fun v => ?_
    refine (runs_exprs h rest hrest hnames.2 (by rw [List.length_cons]; omega)).bind
      fun values => ?_
    exact runs_here rfl (by simp)

theorem runs_entries (h : Ready limits K L X c cells locals) : (es : List (Text × Expr)) →
    ∀ {pc pc' height operands}, EntriesAt L es pc pc' → (∀ name ∈ entriesVariables es, Plain name) →
    height = c.below.length + cells.length + operands.length →
    Runs L.program limits K c cells pc operands (entries X locals height es) (fun _ => pc')
      fun pairs => (flat pairs).reverse ++ operands
  | [], _, _, _, _, hpc, _, _ => by
    rw [entries]
    exact runs_here hpc rfl
  | (key, e) :: rest, _, _, _, _, ⟨q, hkey, he, hrest⟩, hnames, hheight => by
    rw [entriesVariables, List.forall_mem_append] at hnames
    rw [entries]
    refine (runs_loads hkey).before ?_
    refine (runs_expr h e he hnames.1 (by rw [List.length_cons]; omega)).bind fun v => ?_
    refine (runs_entries h rest hrest hnames.2 (by simp only [List.length_cons]; omega)).bind
      fun pairs => ?_
    exact runs_here rfl (by simp [flat, Constant.toValue])

end

end

end Meaning
end ScriptMachine
