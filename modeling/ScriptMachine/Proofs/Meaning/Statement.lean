import ScriptMachine.Proofs.Compile.Typed
import ScriptMachine.Proofs.Meaning.Guarded

namespace ScriptMachine
namespace Meaning
open Machine Compile

/-- A function at work, whatever guards and completions there are around it. -/
structure Works (limits : Limits) (K : Nat) (L : Layout) (X : Activation) (c : Site) : Prop where
  names : Resolves L X.scope
  base : X.base = c.below.length + L.locals.length
  calls {guards : List Guard} {pending : Array Pending} {cells : List Value} :
    Site.Stands { c with guards, pending } L.locals.length → cells.length = L.locals.length →
      Answers limits K L X { c with guards, pending } cells

section

variable {limits : Limits} {K : Nat} {L : Layout} {X : Activation} {c : Site} {exits : Option Exits}
variable {low : Nat} {cells operands : List Value} {locals : Locals} {pc out : Nat}

theorem Works.ready (h : Works limits K L X c) (hc : c.Stands L.locals.length)
    (hcells : Matches L cells locals) : Ready limits K L X c cells locals :=
  ⟨hcells.length ▸ hc, h.names, hcells, h.calls hc hcells.length⟩

theorem Works.height (h : Works limits K L X c) (hcells : Matches L cells locals) :
    X.base = c.below.length + cells.length := by
  rw [h.base, hcells.length]

theorem Works.entered (h : Works limits K L X c) (table size : Nat) (phase : Phase) :
    Works limits K L X (c.entered table size phase) := ⟨h.names, h.base, h.calls⟩

theorem Works.finishing (h : Works limits K L X c) (completion : Completion) :
    Works limits K L X (c.finishing completion) := ⟨h.names, h.base, h.calls⟩

theorem Performs.before {a : α} {pc' : α → Nat} {operands' : α → List Value} {run : Exec}
    (h : Runs L.program limits K c cells pc operands (pure a) pc' operands')
    (hrun : Performs limits K L c exits low cells (pc' a) (operands' a) out run) :
    Performs limits K L c exits low cells pc operands out run := by
  intro x σ hσ hx
  obtain ⟨n, s, hn, x', hx', rfl⟩ := h x σ.memory hx
  exact (hrun x' σ hσ hx').after ⟨n, _, hn, rfl⟩

theorem performs_exit {e : Exits} {way : LoopExit} (hexits : exits = some e)
    (hleaves : L.Leaves e.leave pc) (hjump : L.At (pc + e.leave) .jump (e.target way)) :
    Performs limits K L c exits low cells pc [] out (.ends (.exit way)) :=
  fun x _ hσ hx => ⟨cells, hσ, Keeps.refl,
    Leads.here ⟨x, e, pc, hx, hexits, hleaves, hjump, rfl⟩⟩

theorem performs_ret (hat : L.At pc .ret) (hsettled : c.Settled) (v : Value) :
    Performs limits K L c exits low cells pc [v] out (.ends (.ret v)) := by
  intro x σ hσ hx
  obtain ⟨stats, hstep⟩ := step_of_at limits c cells [v] hat x
  simp only [execute, Site.pop?_state, Option.bind_some] at hstep
  rw [completeReturn_of_settled hsettled] at hstep
  exact ⟨cells, hσ, Keeps.refl, Leads.here ⟨hsettled, _, hx.counted stats, hstep⟩⟩

theorem runs_test (h : Works limits K L X c) (hc : c.Stands L.locals.length) {e : Expr} {q a : Nat}
    (he : ExprAt L e pc q) (hnames : ∀ name ∈ exprVariables e, Plain name)
    (hat : L.At q .jumpIfFalse a) (hcells : Matches L cells locals) :
    Runs L.program limits K c cells pc [] (action.test X e locals)
      (fun holds => if holds then q + 1 else a) fun _ => [] :=
  (runs_expr (h.ready hc hcells) e he hnames (h.height hcells)).bind fun v => runs_jumpIfFalse hat v

end

section

variable {limits : Limits} {rounds : Nat} {L : Layout} {X : Activation}

mutual

theorem performs_action : (a : Action) → ∀ {c : Site} {exits : Option Exits} {m m' : Mark}
    {low : Nat}, Works limits rounds L X c → c.Stands L.locals.length → ActionAt L a exits m m' →
    low ≤ m.counter → (∀ name ∈ actionVariables a, Plain name) → actionTidy a →
    (actionReturns a → c.Settled) → ∀ cells,
    Performs limits rounds L c exits low cells m.pc [] m'.pc (action X rounds a)
  | .write e, _, _, _, _, _, hX, hc, ⟨q, he, hat, hm⟩, _, hnames, _, _, cells => by
    subst hm
    rw [action]
    refine .evaluate (fun locals hcells => ?_) fun _ => performs_ends_normal
    have hready := hX.ready hc hcells
    exact (runs_expr hready e he hnames (hX.height hcells)).bind fun v =>
      runs_print hat hready.stands v
  | .ask name, _, _, _, _, _, hX, hc, ⟨hat, hwrites, hm⟩, _, hnames, _, _, cells => by
    subst hm
    rw [action]
    refine .evaluate (fun locals hcells => runs_input hat (hX.ready hc hcells).stands) fun v => ?_
    exact performs_assign hX.names (hnames name List.mem_cons_self) hwrites v
  | .set name e, _, _, _, _, _, hX, hc, ⟨q, he, hwrites, hm⟩, _, hnames, _, _, cells => by
    subst hm
    rw [actionVariables, List.forall_mem_cons] at hnames
    rw [action]
    refine .evaluate (fun locals hcells =>
      runs_expr (hX.ready hc hcells) e he hnames.2 (hX.height hcells)) fun v => ?_
    exact performs_assign hX.names hnames.1 hwrites v
  | .setIndex l i e, _, _, _, _, _, hX, hc, ⟨q, s, t, hl, hi, he, hat, hm⟩, _, hnames, _, _,
      cells => by
    subst hm
    simp only [actionVariables, List.forall_mem_append] at hnames
    rw [action]
    refine .evaluate (fun locals hcells => ?_) fun _ => performs_ends_normal
    have hready := hX.ready hc hcells
    have hheight := hX.height hcells
    refine (runs_expr hready l hl hnames.1.1 hheight).bind fun collection => ?_
    refine (runs_expr hready i hi hnames.1.2 (by simp [hheight])).bind fun position => ?_
    refine (runs_expr hready e he hnames.2 (by simp [hheight])).bind fun v => ?_
    exact runs_indexSet hat hready.stands collection position v
  | .branch e yes no, _, _, _, _, _, hX, hc, ⟨q, he, hat⟩, hlow, hnames, htidy, hreturns,
      cells => by
    simp only [actionVariables, List.forall_mem_append] at hnames
    simp only [actionTidy, Bool.and_eq_true] at htidy
    simp only [actionReturns, Bool.or_eq_true, or_imp] at hreturns
    rw [action]
    split at hat
    · next hempty =>
      obtain ⟨hjump, hyes⟩ := hat
      refine .evaluate (fun locals => runs_test hX hc he hnames.1.1 hjump) fun holds => ?_
      cases holds with
      | true => exact performs_block yes hX hc hyes hlow hnames.1.2 htidy.1 hreturns.1 cells
      | false =>
        rw [List.isEmpty_iff.1 hempty, block]
        exact performs_ends_normal
    · obtain ⟨y, hjump, hyes, hskip, hno⟩ := hat
      refine .evaluate (fun locals => runs_test hX hc he hnames.1.1 hjump) fun holds => ?_
      cases holds with
      | true =>
        exact (performs_block yes hX hc hyes hlow hnames.1.2 htidy.1 hreturns.1 cells).thenJump hskip
      | false =>
        have hy : _ ≤ y.counter := Nat.le_trans hlow (le_of_blockAt yes hyes).counter
        exact performs_block no hX hc hno hy hnames.2 htidy.2 hreturns.2 cells
  | .whileLoop e b, _, _, _, _, _, hX, hc, ⟨q, y, he, hjump, hb, hagain, hm⟩, hlow, hnames, htidy,
      hreturns, cells => by
    subst hm
    simp only [actionVariables, List.forall_mem_append] at hnames
    rw [action]
    exact performs_whileLoop (fun cells locals => runs_test hX hc he hnames.1 hjump)
      (performs_block b hX hc hb hlow hnames.2 htidy hreturns) hagain (Nat.le_refl rounds) cells
  | .repeatLoop e b, _, _, m, _, low, hX, hc, ⟨slot, q, y, hslot, he, hstore, hload, hzero,
      hgreater, htest, hb, hload', hone, hsub, hstore', hagain, hm⟩, hlow, hnames, htidy, hreturns,
      cells => by
    subst hm
    simp only [actionVariables, List.forall_mem_append] at hnames
    rw [action]
    intro x σ hσ hx
    refine Performs.evaluate (fun locals hcells =>
      runs_expr (hX.ready hc hcells) e he hnames.1 (hX.height hcells)) (fun v => ?_) x σ hσ hx
    refine .count hstore hslot hlow (Performs.mono ?_ (Nat.le_refl _) hlow)
    refine performs_countdown hc hslot hload hzero hgreater htest
      (performs_block b hX hc hb (Nat.le_refl _) hnames.2 htidy hreturns)
      hload' hone hsub hstore' hagain (Nat.le_refl rounds) (by simp [hσ.length]) ?_
    exact List.getElem?_set_self (hσ.lt hslot)
  | .exit way, _, _, _, _, _, _, _, ⟨e, hexits, hleaves, hjump, hm⟩, _, _, _, _, cells => by
    subst hm
    rw [action]
    exact performs_exit hexits hleaves hjump
  | .function _ _ _, _, _, _, _, _, _, _, hm, _, _, _, _, cells => by
    rw [ActionAt] at hm
    subst hm
    rw [action]
    exact performs_ends_normal
  | .use name args, _, _, _, _, _, hX, hc, ⟨q, hargs, hcall, hat, hm⟩, _, hnames, _, _, cells => by
    subst hm
    rw [action]
    refine .evaluate (fun locals hcells => ?_) fun _ => performs_ends_normal
    exact (runs_expr (hX.ready hc hcells) (.call name args) ⟨q, hargs, hcall, rfl⟩ hnames
      (hX.height hcells)).after fun v => runs_pop hat v
  | .ret none, _, _, _, _, _, _, _, ⟨hload, hat, hm⟩, _, _, _, hreturns, cells => by
    subst hm
    rw [action]
    exact .before (runs_loads hload) (performs_ret hat (hreturns rfl) .nil)
  | .ret (some e), _, _, _, _, _, hX, hc, ⟨q, he, hat, hm⟩, _, hnames, _, hreturns, cells => by
    subst hm
    rw [action]
    refine .evaluate (fun locals hcells =>
      runs_expr (hX.ready hc hcells) e he hnames (hX.height hcells)) fun v => ?_
    exact performs_ret hat (hreturns rfl) v
  | .guard b hs cl, c, _, m, m', low, hX, hc, ⟨t, y, z, hpush, ht, hb, hpop, hhs, hcl⟩, hlow,
      hnames, htidy, hreturns, cells => by
    simp only [actionVariables, List.forall_mem_append] at hnames
    simp only [actionTidy, Bool.and_eq_true, Bool.not_eq_true'] at htidy
    simp only [actionReturns, Bool.or_eq_true, or_imp] at hreturns
    have hy : low ≤ y.counter := Nat.le_trans hlow (le_of_blockAt b hb).counter
    have hz : low ≤ z.counter := Nat.le_trans hy (le_of_catchesAt hs hhs).counter
    rw [action]
    refine performs_guard hc hpush ht ?_ hpop ?_ ?_
    · exact performs_block b (hX.entered _ _ _) (hc.entered _ _) hb hlow hnames.1.1 htidy.1.1.1
        hreturns.1.1
    · exact performs_handlers hs (hX.entered _ _ _) (hc.entered _ _) hhs hy hnames.1.2 htidy.1.1.2
        hreturns.1.2
    · exact performs_finally cl hX hc hcl hz hnames.2 htidy.1.2 htidy.2
  | .throw e, _, _, _, _, _, hX, hc, ⟨q, he, hat, hm⟩, _, hnames, _, _, cells => by
    subst hm
    rw [action]
    refine .evaluate (fun locals hcells => ?_) fun _ => performs_ends_normal
    have hready := hX.ready hc hcells
    exact (runs_expr hready e he hnames (hX.height hcells)).bind fun v =>
      runs_throw hat hready.stands v
  | .writeFile l e, _, _, _, _, _, hX, hc, ⟨q, s, hl, he, hat, hm⟩, _, hnames, _, _, cells => by
    subst hm
    simp only [actionVariables, List.forall_mem_append] at hnames
    rw [action]
    refine .evaluate (fun locals hcells => ?_) fun _ => performs_ends_normal
    have hready := hX.ready hc hcells
    have hheight := hX.height hcells
    refine (runs_expr hready l hl hnames.1 hheight).bind fun content => ?_
    refine (runs_expr hready e he hnames.2 (by simp [hheight])).bind fun path => ?_
    exact runs_writeFile hat hready.stands content path

theorem performs_handlers : (hs : List Handler) → ∀ {c : Site} {exits : Option Exits} {out : Nat}
    {clauses : List CatchClause} {m m' : Mark} {low : Nat},
    Works limits rounds L X c → c.Stands L.locals.length → CatchesAt L hs exits out clauses m m' →
    low ≤ m.counter → (∀ name ∈ handlersVariables hs, Plain name) → handlersTidy hs →
    (handlersReturn hs → c.Settled) →
    List.Forall₂ (Handles limits rounds L c exits low out) (handlers X rounds hs) clauses
  | [], _, _, _, _, _, _, _, _, _, ⟨hclauses, _⟩, _, _, _, _ => by
    subst hclauses
    rw [handlers]
    exact .nil
  | .mk typeName binder b :: rest, _, _, _, _, _, _, _, hX, hc, ⟨clause, later, y, hclauses,
      ⟨hfilter, hhandler, htakes, hb⟩, hpop, hrest⟩, hlow, hnames, htidy, hreturns => by
    subst hclauses
    simp only [handlersVariables, List.cons_append, List.forall_mem_cons,
      List.forall_mem_append] at hnames
    simp only [handlersTidy, Bool.and_eq_true] at htidy
    simp only [handlersReturn, Bool.or_eq_true, or_imp] at hreturns
    rw [handlers]
    have hy : _ ≤ y.counter := Nat.le_trans hlow (le_of_blockAt b hb).counter
    refine .cons ⟨hfilter, y.pc, hpop, fun v cells => ?_⟩
      (performs_handlers rest hX hc hrest hy hnames.2.2 htidy.2 hreturns.2)
    rw [hhandler, Int.toNat_natCast]
    refine .andThen (performs_take hX.names hnames.1 htakes v) fun cells' _ => ?_
    exact performs_block b hX hc hb hlow hnames.2.1 htidy.1 hreturns.1 cells'

theorem performs_finally : (cl : Option (List Stmt)) → ∀ {c : Site} {t : TryTable} {m m' : Mark}
    {low : Nat}, Works limits rounds L X c → c.Stands L.locals.length →
    CleanupAt L cl t.cleanup m m' → low ≤ m.counter → (∀ name ∈ cleanupVariables cl, Plain name) →
    cleanupTidy cl → cleanupReturns cl = false →
    Cleans limits rounds L c low (cleanup X rounds cl) t.cleanup?
  | none, _, _, _, _, _, _, _, ⟨hw, _⟩, _, _, _, _ => by
    rw [cleanup]
    exact if_pos hw
  | some b, _, t, m, _, _, hX, hc, ⟨hw, y, hb, hat, _⟩, hlow, hnames, htidy, hreturns => by
    rw [cleanup]
    refine ⟨t.cleanup, y.pc, if_neg (ne_noIndex_of_toInt hw), hat, fun completion cells => ?_⟩
    rw [hw, Int.toNat_natCast]
    refine performs_block b (hX.finishing completion) (hc.finishing completion) hb hlow hnames
      htidy ?_ cells
    intro h
    rw [cleanupReturns, h] at hreturns
    cases hreturns

theorem performs_block : (b : List Stmt) → ∀ {c : Site} {exits : Option Exits} {m m' : Mark}
    {low : Nat}, Works limits rounds L X c → c.Stands L.locals.length → BlockAt L b exits m m' →
    low ≤ m.counter → (∀ name ∈ blockVariables b, Plain name) → blockTidy b →
    (blockReturns b → c.Settled) → ∀ cells,
    Performs limits rounds L c exits low cells m.pc [] m'.pc (block X rounds b)
  | [], _, _, _, _, _, _, _, hm, _, _, _, _, cells => by
    rw [BlockAt] at hm
    subst hm
    rw [block]
    exact performs_ends_normal
  | .mk _ a :: rest, _, _, _, _, _, hX, hc, ⟨y, ha, hrest⟩, hlow, hnames, htidy, hreturns,
      cells => by
    simp only [blockVariables, List.forall_mem_append] at hnames
    simp only [blockTidy, Bool.and_eq_true] at htidy
    simp only [blockReturns, Bool.or_eq_true, or_imp] at hreturns
    rw [block]
    have hy : _ ≤ y.counter := Nat.le_trans hlow (le_of_actionAt a ha).counter
    refine .andThen (performs_action a hX hc ha hlow hnames.1 htidy.1 hreturns.1 cells)
      fun cells' _ => ?_
    exact performs_block rest hX hc hrest hy hnames.2 htidy.2 hreturns.2 cells'

end

end

end Meaning
end ScriptMachine
