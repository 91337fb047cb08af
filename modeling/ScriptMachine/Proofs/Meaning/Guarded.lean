import ScriptMachine.Proofs.Meaning.Control
import Mathlib.Data.List.Forall2

namespace ScriptMachine
namespace Machine

theorem returnThrough_congr (p : Program) (v : Value) (s : State) (ip : Nat)
    (guards gs : List Guard) :
    returnThrough p v { s with frame := { s.frame with ip }, guards } gs =
    returnThrough p v s gs := by
  induction gs with
  | nil => rfl
  | cons g outer ih =>
    simp only [returnThrough]
    rw [ih]
    rfl

theorem resize_of_size {xs : Array α} {n : Nat} (fill : α) (h : n = xs.size) :
    resize xs n fill = xs := by
  subst h
  simp [resize]

end Machine

namespace Meaning
open Machine Compile

theorem matchesFilter_untraced (e : ScriptError) (filter : Text) :
    e.untraced.matchesFilter filter = e.matchesFilter filter := rfl

namespace Site

/-- Inside a try construct whose table is given. -/
def entered (c : Site) (table size : Nat) (phase : Phase) : Site :=
  { c with
    guards := ⟨table, c.callers.size, c.below.length + size, c.pending.size, phase⟩ :: c.guards }

def finishing (c : Site) (completion : Completion) : Site :=
  { c with pending := c.pending.push ⟨c.callers.size, completion⟩ }

theorem Stands.entered {c : Site} {size : Nat} (h : c.Stands size) (table : Nat) (phase : Phase) :
    (c.entered table size phase).Stands size :=
  ⟨⟨Nat.le_refl _, Nat.le_refl _, Nat.le_refl _, h.guards⟩, h.pending⟩

theorem Stands.finishing {c : Site} {size : Nat} (h : c.Stands size) (completion : Completion) :
    (c.finishing completion).Stands size := by
  refine ⟨h.guards.mono (Nat.le_refl _) (Nat.le_refl _) (by simp [Site.finishing]), fun hq => ?_⟩
  rcases Array.mem_push.1 hq with hq | rfl
  · exact h.pending hq
  · exact Nat.le_refl _

theorem settled_iff (c : Site) : c.Settled ↔
    c.pending.toList.reverse.dropWhile (fun q => q.frame == c.callers.size) =
    c.pending.toList.reverse := by
  have hpop := List.popWhile_toArray (fun q : Pending => q.frame == c.callers.size) c.pending.toList
  rw [Array.toArray_toList] at hpop
  rw [Settled, hpop]
  constructor
  · intro h
    simpa using congrArg (fun xs => xs.toList.reverse) h
  · intro h
    rw [h, List.reverse_reverse, Array.toArray_toList]

theorem not_settled_finishing (c : Site) (completion : Completion) :
    ¬ (c.finishing completion).Settled := by
  intro h
  have hlength := congrArg List.length ((settled_iff _).1 h)
  simp only [finishing, Array.toList_push, List.reverse_append, List.reverse_singleton,
    List.singleton_append, List.dropWhile_cons, beq_self_eq_true, if_true,
    List.length_cons] at hlength
  have hsuffix : c.pending.toList.reverse.dropWhile (fun q => q.frame == c.callers.size) <:+
      c.pending.toList.reverse := List.dropWhile_suffix _
  have hle := hsuffix.length_le
  omega

end Site

section

variable {limits : Limits} {K : Nat} {L : Layout} {c : Site} {exits : Option Exits} {low : Nat}
variable {cells : List Value} {pc out table : Nat} {t : TryTable} {phase : Phase} {s : State}

theorem step_pushTry (hat : L.At pc .pushTry table) (cells : List Value) (x : Scene) : ∃ stats,
    step L.program limits (c.state cells pc [] x) =
      some (.next
        ((c.entered table cells.length .body).state cells (pc + 1) [] ⟨x.world, stats⟩)) := by
  obtain ⟨stats, hstep⟩ := step_of_at limits c cells [] hat x
  refine ⟨stats, ?_⟩
  rw [hstep]
  simp only [execute, pushTry, Instruction.of, toNat_ofNat hat.2.1, Site.depth_state,
    Site.size_state, Site.pending_state, Site.guards_state, List.length_nil, Nat.add_zero]
  rfl

theorem rewind?_entered (x : Scene) (pc : Nat) (g : Guard) (hframe : g.frame = c.callers.size)
    (hstack : g.stackSize = c.below.length + cells.length)
    (hpending : g.pendingSize = c.pending.size) :
    rewind? (c.state cells pc [] x) g = some (c.state cells pc [] x) := by
  have hsize : g.stackSize = (c.state cells pc [] x).stack.size := by simp [hstack]
  have hback : (c.state cells pc [] x).backTo? g.frame = some (c.state cells pc [] x) := by
    rw [hframe]
    exact if_pos rfl
  simp only [rewind?, hback]
  rw [resize_of_size _ hsize, resize_of_size _ (by simp [hpending])]

/-- Control goes where a completion takes it. -/
def resumed (p : Program) (c : Site) (cells : List Value) (x : Scene) : Completion → Option Progress
  | .jump target => some (.next (c.state cells target [] x))
  | .rethrow e => unwind p e (c.state cells 0 [] x) c.guards
  | .result v => returnThrough p v (c.state cells 0 [] x) c.guards

/-- Control leaves a try construct: a completion waits for the finally block if there is one. -/
def left (p : Program) (c : Site) (cells : List Value) (x : Scene) (t : TryTable)
    (completion : Completion) : Option Progress :=
  match t.cleanup? with
  | none => resumed p c cells x completion
  | some w => some (.next ((c.finishing completion).state cells w.toInt.toNat [] x))

theorem unwind_entered (phase : Phase) (ht : L.program.tries[table]? = some t)
    (hc : c.Stands cells.length) (e : ScriptError) (x : Scene) :
    unwind L.program e ((c.entered table cells.length phase).state cells 0 [] x)
      (c.entered table cells.length phase).guards =
        match if phase = .body then selectClause? L.program e t.clauses else none with
        | some clause => some (.next ((c.entered table cells.length .handling).state cells
            clause.handler.toInt.toNat [(x.world.heap.newError e).1]
            { x with world := { x.world with heap := (x.world.heap.newError e).2 } }))
        | none => left L.program c cells x t (.rethrow e) := by
  have houter : unwind L.program e ((c.entered table cells.length phase).state cells 0 [] x) c.guards =
      unwind L.program e (c.state cells 0 [] x) c.guards :=
    unwind_of_extends ⟨rfl, rfl, List.prefix_refl _, List.prefix_refl _, 0, [], rfl⟩ (hc.fits 0 x)
  simp only [Site.entered, unwind, ht, Option.bind_eq_bind, Option.bind_some] at houter ⊢
  rw [rewind?_entered x 0 _ rfl rfl rfl]
  simp only [Option.bind_some, houter]
  cases (if phase = .body then selectClause? L.program e t.clauses else none) with
  | some clause =>
    refine congrArg (fun s => some (Progress.next s)) ?_
    simp [State.pushNew, Site.state, State.jump]
  | none =>
    unfold left
    cases t.cleanup? <;> rfl

theorem returnThrough_entered (phase : Phase) (ht : L.program.tries[table]? = some t) (v : Value)
    (x : Scene) :
    returnThrough L.program v ((c.entered table cells.length phase).state cells 0 [] x)
      (c.entered table cells.length phase).guards = left L.program c cells x t (.result v) := by
  have houter := returnThrough_congr L.program v (c.state cells 0 [] x) 0
    (c.entered table cells.length phase).guards c.guards
  simp only [Site.entered, returnThrough, Site.depth_state, ne_eq, not_true_eq_false, if_false, ht,
    left]
  cases t.cleanup? with
  | none => exact houter
  | some w =>
    refine congrArg (fun s => some (Progress.next s)) ?_
    have hsize : c.below.length + cells.length = (c.state cells 0 [] x).stack.size := by simp
    have hstack := resize_of_size Value.nil hsize
    simp only [Site.state] at hstack
    simp only [Site.state, State.jump, hstack]
    rfl

theorem step_popTry (phase : Phase) (ht : L.program.tries[table]? = some t)
    (hat : L.At pc .popTry out) (x : Scene) : ∃ stats,
    step L.program limits ((c.entered table cells.length phase).state cells pc [] x) =
      left L.program c cells ⟨x.world, stats⟩ t (.jump out) := by
  obtain ⟨stats, hstep⟩ := step_of_at limits (c.entered table cells.length phase) cells [] hat x
  refine ⟨stats, ?_⟩
  rw [hstep]
  simp only [execute, popTry, Instruction.of, toNat_ofNat hat.2.1, Site.guards_state, Site.entered,
    Site.depth_state, ne_eq, not_true_eq_false, if_false, ht, left]
  cases t.cleanup? <;> rfl

/-- A completion that takes control where an ending takes it. -/
def Resumes (L : Layout) (c : Site) (exits : Option Exits) (out : Nat) : Ending → Completion → Prop
  | .normal, completion => completion = .jump out
  | .exit way, completion => ∃ e pc, exits = some e ∧ L.Leaves e.leave pc ∧
    L.At (pc + e.leave) .jump (e.target way) ∧ completion = .jump pc
  | .ret v, completion => c.Settled ∧ completion = .result v
  | .throw e, completion => ∃ e' : ScriptError, e'.untraced = e ∧ completion = .rethrow e'

theorem leads_of_resumed {x : Scene} {μ : Memory} {ending : Ending} {completion : Completion}
    (hresumes : Resumes L c exits out ending completion) (hx : x.Shows L.program μ)
    (hstep : step L.program limits s = resumed L.program c cells x completion) :
    Leads L.program limits s (Ended limits L c exits out cells μ ending) := by
  cases ending with
  | normal =>
    cases hresumes
    exact Leads.step hstep (Leads.here ⟨x, hx, rfl⟩)
  | exit way =>
    obtain ⟨e, pc, rfl, hleaves, hjump, rfl⟩ := hresumes
    exact Leads.step hstep (Leads.here ⟨x, e, pc, hx, rfl, hleaves, hjump, rfl⟩)
  | ret v =>
    obtain ⟨hsettled, rfl⟩ := hresumes
    exact Leads.here ⟨hsettled, x, hx, hstep⟩
  | throw e =>
    obtain ⟨e', rfl, rfl⟩ := hresumes
    exact Leads.here ⟨x, e', hx, rfl, hstep⟩

/-- The statements of a try construct have ended and control is about to leave it. -/
def Leaving (limits : Limits) (L : Layout) (c : Site) (exits : Option Exits) (table : Nat)
    (t : TryTable) (out : Nat) (cells : List Value) (μ : Memory) (ending : Ending) (s : State) :
    Prop :=
  ∃ phase q, L.At q .popTry out ∧
    Ended limits L (c.entered table cells.length phase) (exits.map Exits.inTry) q cells μ ending s ∧
    ∀ e : ScriptError, ending = .throw e.untraced → phase = .body →
      selectClause? L.program e t.clauses = none

theorem step_of_leaving {μ : Memory} {ending : Ending} (ht : L.program.tries[table]? = some t)
    (hc : c.Stands cells.length) (h : Leaving limits L c exits table t out cells μ ending s) :
    ∃ completion x, Resumes L c exits out ending completion ∧ Scene.Shows L.program x μ ∧
      step L.program limits s = left L.program c cells x t completion := by
  obtain ⟨phase, q, hpop, hended, hclause⟩ := h
  cases ending with
  | normal =>
    obtain ⟨x, hx, rfl⟩ := hended
    obtain ⟨stats, hstep⟩ := step_popTry phase ht hpop x
    exact ⟨_, _, rfl, hx.counted stats, hstep⟩
  | exit way =>
    obtain ⟨x, e, pc, hx, hexits, hleaves, hjump, rfl⟩ := hended
    obtain ⟨e, rfl, rfl⟩ := Option.map_eq_some_iff.1 hexits
    obtain ⟨stats, hstep⟩ := step_popTry phase ht (hleaves 0 (Nat.succ_pos _)) x
    refine ⟨_, _, ⟨e, pc + 1, rfl, fun i hi => ?_, ?_, rfl⟩, hx.counted stats, hstep⟩
    · have hat := hleaves (i + 1) (Nat.succ_lt_succ hi)
      rwa [show pc + (i + 1) = pc + 1 + i by omega] at hat
    · rwa [show pc + 1 + e.leave = pc + e.inTry.leave by simp only [Exits.inTry]; omega]
  | ret v =>
    obtain ⟨hsettled, x, hx, hstep⟩ := hended
    rw [returnThrough_entered phase ht] at hstep
    exact ⟨_, x, ⟨hsettled, rfl⟩, hx, hstep⟩
  | throw e =>
    obtain ⟨x, e', hx, rfl, hstep⟩ := hended
    have hunselected : (if phase = .body then selectClause? L.program e' t.clauses else none) =
        none := by
      split
      · next hphase => exact hclause e' rfl hphase
      · rfl
    rw [unwind_entered phase ht hc, hunselected] at hstep
    exact ⟨_, x, ⟨e', rfl, rfl⟩, hx, hstep⟩

theorem completeReturn_of_settled (hsettled : c.Settled) (v : Value) (x : Scene) :
    completeReturn L.program (c.state cells pc [] x) v =
      returnThrough L.program v (c.state cells 0 [] x) c.guards := by
  have hpending : (c.state cells pc [] x).pending.popWhile
      (fun q => q.frame == (c.state cells pc [] x).depth) = c.pending := hsettled
  simp only [completeReturn]
  rw [hpending]
  exact returnThrough_congr L.program v (c.state cells 0 [] x) pc c.guards c.guards

theorem endFinally_finishing (p : Program) (completion : Completion) (x : Scene) :
    endFinally p ((c.finishing completion).state cells pc [] x) =
      match completion with
      | .jump target => some (.next (c.state cells target [] x))
      | .rethrow e => raise p (c.state cells pc [] x) e
      | .result v => completeReturn p (c.state cells pc [] x) v := by
  have hpop : { (c.finishing completion).state cells pc [] x with
      pending := (c.finishing completion).pending.pop } = c.state cells pc [] x := by
    simp [Site.state, Site.finishing]
  have hback : (c.finishing completion).pending.back? = some ⟨c.callers.size, completion⟩ := by
    simp [Site.finishing]
  have hdepth : ((c.finishing completion).state cells pc [] x).depth = c.callers.size := rfl
  simp only [endFinally, Site.pending_state, hback, hdepth, ne_eq, not_true_eq_false, if_false]
  rw [hpop]
  cases completion <;> rfl

/-- At the end of a finally block control goes on as if the block had not been there. -/
theorem step_endFinally {ending : Ending} {completion : Completion}
    (hat : L.At pc .endFinally) (hc : c.Stands cells.length)
    (hresumes : Resumes L c exits out ending completion) (x : Scene) :
    ∃ completion' stats, Resumes L c exits out ending completion' ∧
      step L.program limits ((c.finishing completion).state cells pc [] x) =
        resumed L.program c cells ⟨x.world, stats⟩ completion' := by
  obtain ⟨stats, hstep⟩ := step_of_at limits (c.finishing completion) cells [] hat x
  simp only [execute, endFinally_finishing] at hstep
  cases completion with
  | jump target => exact ⟨_, stats, hresumes, hstep⟩
  | rethrow e =>
    let s := c.state cells (pc + 1) [] ⟨x.world, stats⟩
    refine ⟨.rethrow (traced L.program s e), stats, ?_, ?_⟩
    · cases ending with
      | throw e =>
        obtain ⟨e', rfl, heq⟩ := hresumes
        cases heq
        exact ⟨_, untraced_traced _ _ _, rfl⟩
      | _ => simp [Resumes] at hresumes
    · rw [hstep]
      exact unwind_of_extends (c.extends_state cells (pc + 1) [] _) (hc.fits 0 _)
  | result v =>
    have hsettled : c.Settled := by
      cases ending with
      | ret v => exact hresumes.1
      | _ => simp [Resumes] at hresumes
    refine ⟨_, stats, hresumes, ?_⟩
    rw [hstep]
    exact completeReturn_of_settled hsettled v _

theorem ended_of_finishing {completion : Completion} {y : Nat} {μ : Memory} {ending : Ending}
    (hc : c.Stands cells.length)
    (h : Ended limits L (c.finishing completion) none y cells μ ending s) (hne : ending ≠ .normal) :
    Ended limits L c exits out cells μ ending s := by
  cases ending with
  | normal => exact absurd rfl hne
  | exit way =>
    obtain ⟨_, _, _, _, hnone, _⟩ := h
    cases hnone
  | ret v => exact absurd h.1 (c.not_settled_finishing completion)
  | throw e =>
    obtain ⟨x, e', hx, he, hstep⟩ := h
    refine ⟨x, e', hx, he, hstep.trans (unwind_of_extends ?_ (hc.fits 0 x))⟩
    exact ⟨rfl, rfl, List.prefix_refl _, by simp [Site.state, Site.finishing], 0, [], rfl⟩

theorem Exec.attempt_eq_bind (run : Exec) (handlers : List (Text × (Value → Exec))) (σ : Store) :
    attempt run handlers σ = (run σ).bind fun
      | (.throw e, σ') => match select e handlers with
        | some handler => evaluate (fun _ => .onHeap fun h => .ok (h.newError e)) handler σ'
        | none => some (.throw e, σ')
      | (ending, σ') => some (ending, σ') := by
  unfold attempt
  rcases run σ with _ | ⟨ending, σ'⟩
  · rfl
  · cases ending <;> rfl

theorem Exec.conclude_eq_bind (cleanup : Option Exec) (run : Exec) (σ : Store) :
    conclude cleanup run σ = (run σ).bind fun (ending, σ') => match cleanup with
      | some cleanup => andThen cleanup (ends ending) σ'
      | none => some (ending, σ') := by
  unfold conclude
  rcases run σ with _ | ⟨ending, σ'⟩
  · cases cleanup <;> rfl
  · cases cleanup <;> rfl

/-- A finally block runs and the ending that waits for it stands, unless the block has its own. -/
theorem performs_cleanup {ending : Ending} {completion : Completion} {run : Exec} {y : Nat}
    (hc : c.Stands L.locals.length) (hat : L.At y .endFinally)
    (hresumes : Resumes L c exits out ending completion)
    (hrun : Performs limits K L (c.finishing completion) none low cells pc [] y run) {x : Scene}
    {σ : Store} (hσ : Matches L cells σ.locals) (hx : x.Shows L.program σ.memory) :
    Does limits K L low cells (Ended limits L c exits out)
      ((c.finishing completion).state cells pc [] x) (Exec.andThen run (.ends ending) σ) := by
  rw [Exec.andThen_eq_bind]
  refine .bind (Nat.le_refl low) (hrun x σ hσ hx) fun cells' own σ' t hcells _ hended => ?_
  have hc' : c.Stands cells'.length := hcells.length ▸ hc
  cases own with
  | normal =>
    obtain ⟨x', hx', rfl⟩ := hended
    obtain ⟨completion', stats, hresumes', hstep⟩ := step_endFinally hat hc' hresumes x'
    exact ⟨cells', hcells, Keeps.refl, leads_of_resumed hresumes' (hx'.counted stats) hstep⟩
  | _ => exact .here hcells (ended_of_finishing hc' hended (by simp))

/-- A finally block against the table that points to it. -/
def Cleans (limits : Limits) (K : Nat) (L : Layout) (c : Site) (low : Nat) :
    Option Exec → Option Int32 → Prop
  | none, w => w = none
  | some run, w => ∃ address y, w = some address ∧ L.At y .endFinally ∧ ∀ completion cells,
    Performs limits K L (c.finishing completion) none low cells address.toInt.toNat [] y run

theorem Does.conclude {cleanup : Option Exec} {run : Exec} {σ : Store}
    (ht : L.program.tries[table]? = some t) (hc : c.Stands L.locals.length)
    (hcleanup : Cleans limits K L c low cleanup t.cleanup?)
    (h : Does limits K L low cells (Leaving limits L c exits table t out) s (run σ)) :
    Does limits K L low cells (Ended limits L c exits out) s (Exec.conclude cleanup run σ) := by
  rw [Exec.conclude_eq_bind]
  refine .bind (Nat.le_refl low) h fun cells' ending σ' t' hcells _ hleaving => ?_
  obtain ⟨completion, x, hresumes, hx, hstep⟩ := step_of_leaving ht (hcells.length ▸ hc) hleaving
  -- from here on the ending is a completion, which the finally block keeps or replaces
  cases cleanup with
  | none =>
    simp only [left, show t.cleanup? = none from hcleanup] at hstep
    exact ⟨cells', hcells, Keeps.refl, leads_of_resumed hresumes hx hstep⟩
  | some cleanup =>
    obtain ⟨w, y, hw, hat, hcleanup⟩ := hcleanup
    simp only [left, hw] at hstep
    exact Does.after ⟨1, _, run_of_step hstep 0, rfl⟩
      (performs_cleanup hc hat hresumes (hcleanup completion cells') hcells hx)

/-- A handler against its clause. It takes the error from the stack and leaves the construct. -/
structure Handles (limits : Limits) (K : Nat) (L : Layout) (c : Site) (exits : Option Exits)
    (low out : Nat) (handler : Text × (Value → Exec)) (clause : CatchClause) : Prop where
  filter : L.Filters handler.1 clause.filter
  code : ∃ q, L.At q .popTry out ∧ ∀ v cells,
    Performs limits K L c exits low cells clause.handler.toInt.toNat [v] q (handler.2 v)

theorem rel_find?_of_forall₂ {R : α → β → Prop} {f : α → Bool} {g : β → Bool} {xs : List α}
    {ys : List β} (h : List.Forall₂ R xs ys) (hfg : ∀ x y, R x y → f x = g y) :
    Option.Rel R (xs.find? f) (ys.find? g) := by
  induction h with
  | nil => exact .none
  | @cons x y xs ys hxy _ ih =>
    rw [List.find?_cons, List.find?_cons, hfg x y hxy]
    cases g y with
    | true => exact .some hxy
    | false => exact ih

theorem rel_orElse {R : α → β → Prop} {a a' : Option α} {b b' : Option β} (h : Option.Rel R a b)
    (h' : Option.Rel R a' b') : Option.Rel R (a <|> a') (b <|> b') := by
  cases h with
  | some hab => exact .some hab
  | none => exact h'

theorem rel_map {R : α → β → Prop} {S : γ → β → Prop} {f : α → γ} {a : Option α} {b : Option β}
    (h : Option.Rel R a b) (hRS : ∀ x y, R x y → S (f x) y) : Option.Rel S (a.map f) b := by
  cases h with
  | some hab => exact .some (hRS _ _ hab)
  | none => exact .none

theorem ne_noIndex_of_toInt {w : Int32} {n : Nat} (h : w.toInt = n) : w ≠ noIndex := by
  rintro rfl
  have : noIndex.toInt = -1 := by decide
  omega

theorem beq_noIndex_of_filters {typeName : Text} {w : Int32} (h : L.Filters typeName w) :
    (w == noIndex) = typeName.isEmpty := by
  unfold Layout.Filters at h
  split at h
  · next hempty => simp [h, hempty]
  · next hempty =>
    obtain ⟨i, hi, -⟩ := h
    simp [ne_noIndex_of_toInt hi, hempty]

theorem filterText?_of_filters {typeName : Text} {clause : CatchClause}
    (h : L.Filters typeName clause.filter) (hne : typeName.isEmpty = false) :
    filterText? L.program clause = some typeName := by
  simp only [Layout.Filters, hne, Bool.false_eq_true, if_false] at h
  obtain ⟨i, hi, hconstant⟩ := h
  simp [filterText?, Program.constant?, hi, hconstant, Constant.string?]

theorem rel_select {handlers : List (Text × (Value → Exec))} {clauses : List CatchClause}
    (h : List.Forall₂ (Handles limits K L c exits low out) handlers clauses) (e : ScriptError) :
    Option.Rel (fun run clause => ∃ q, L.At q .popTry out ∧ ∀ v cells,
        Performs limits K L c exits low cells clause.handler.toInt.toNat [v] q (run v))
      (Exec.select e.untraced handlers) (selectClause? L.program e clauses) := by
  have hselect : Option.Rel (Handles limits K L c exits low out)
      (handlers.find? (fun h => !h.1.isEmpty && e.untraced.matchesFilter h.1) <|>
        handlers.find? (·.1.isEmpty))
      (selectClause? L.program e clauses) := by
    unfold selectClause?
    apply rel_orElse
    · apply rel_find?_of_forall₂ h
      intro handler clause hhandles
      rw [bne, beq_noIndex_of_filters hhandles.filter, matchesFilter_untraced]
      cases hempty : handler.1.isEmpty with
      | true => rfl
      | false => simp [filterText?_of_filters hhandles.filter hempty]
    · apply rel_find?_of_forall₂ h
      intro handler clause hhandles
      exact (beq_noIndex_of_filters hhandles.filter).symm
  exact rel_map hselect fun _ _ hhandles => hhandles.code

theorem evaluate_newError {p : Program} {w : World} {e : ScriptError} {σ : Store}
    (h : Memory.of p w = σ.memory) (handler : Value → Exec) :
    Exec.evaluate (fun _ => .onHeap fun h => .ok (h.newError e.untraced)) handler σ =
      handler (w.heap.newError e).1
        { σ with memory := Memory.of p { w with heap := (w.heap.newError e).2 } } := by
  have hheap : σ.memory.heap = w.heap.untraced := h ▸ rfl
  simp only [Exec.evaluate, Eval.onHeap, Eval.update, hheap, Heap.newError_untraced, Except.map]
  rw [← h]
  rfl

theorem Does.attempt {handlers : List (Text × (Value → Exec))} {run : Exec} {σ : Store} {q : Nat}
    (ht : L.program.tries[table]? = some t) (hc : c.Stands L.locals.length)
    (hhandlers : List.Forall₂ (Handles limits K L (c.entered table L.locals.length .handling)
      (exits.map Exits.inTry) low out) handlers t.clauses) (hpop : L.At q .popTry out)
    (h : Does limits K L low cells (Ended limits L (c.entered table L.locals.length .body)
      (exits.map Exits.inTry) q) s (run σ)) :
    Does limits K L low cells (Leaving limits L c exits table t out) s
      (Exec.attempt run handlers σ) := by
  rw [Exec.attempt_eq_bind]
  refine .bind (Nat.le_refl low) h fun cells' ending σ' t' hcells _ hended => ?_
  rw [← hcells.length] at hc hended hhandlers
  cases ending with
  | throw e =>
    obtain ⟨x, e', hx, rfl, hstep⟩ := hended
    have hselect := rel_select hhandlers
    dsimp only
    -- traces do not matter to the choice of a handler, so it is the same for all errors of the text
    cases hrun : Exec.select e'.untraced handlers with
    | none =>
      refine .here hcells ⟨.body, q, hpop, ⟨x, e', hx, rfl, hstep⟩, ?_⟩
      intro e he _
      have hrel := hselect e
      rw [← (Ending.throw.inj he), hrun] at hrel
      generalize selectClause? L.program e t.clauses = clause? at hrel
      cases hrel
      rfl
    | some handler =>
      have hrel := hselect e'
      rw [hrun] at hrel
      rw [unwind_entered .body ht hc, if_pos rfl] at hstep
      generalize selectClause? L.program e' t.clauses = clause? at hrel hstep
      cases hrel with
      | some hcode =>
        obtain ⟨q', hpop', hperforms⟩ := hcode
        refine Does.after ⟨1, _, run_of_step hstep 0, rfl⟩ ?_
        dsimp only
        rw [evaluate_newError hx.memory]
        let w : World := { x.world with heap := (x.world.heap.newError e').2 }
        refine (hperforms _ cells' { x with world := w } ⟨σ'.locals, Memory.of L.program w⟩ hcells
          ⟨hx.globals, rfl⟩).leads ?_
        intro cells'' μ ending s hlength hended
        rw [hcells.length, ← hlength] at hended
        exact Leads.here ⟨.handling, q', hpop', hended, nofun⟩
  | normal => exact .here hcells ⟨.body, q, hpop, hended, nofun⟩
  | exit way => exact .here hcells ⟨.body, q, hpop, hended, nofun⟩
  | ret v => exact .here hcells ⟨.body, q, hpop, hended, nofun⟩

theorem performs_guard {body : Exec} {handlers : List (Text × (Value → Exec))}
    {cleanup : Option Exec} {q : Nat} (hc : c.Stands L.locals.length)
    (hpush : L.At pc .pushTry table) (ht : L.program.tries[table]? = some t)
    (hbody : ∀ cells, Performs limits K L (c.entered table L.locals.length .body)
      (exits.map Exits.inTry) low cells (pc + 1) [] q body) (hpop : L.At q .popTry out)
    (hhandlers : List.Forall₂ (Handles limits K L (c.entered table L.locals.length .handling)
      (exits.map Exits.inTry) low out) handlers t.clauses)
    (hcleanup : Cleans limits K L c low cleanup t.cleanup?) :
    Performs limits K L c exits low cells pc [] out
      (.conclude cleanup (.attempt body handlers)) := by
  intro x σ hσ hx
  obtain ⟨stats, hstep⟩ := step_pushTry hpush cells x
  rw [hσ.length] at hstep
  refine Does.conclude ht hc hcleanup (Does.attempt ht hc hhandlers hpop ?_)
  refine Does.after ⟨1, _, run_of_step hstep 0, rfl⟩ ?_
  exact hbody cells _ σ hσ (hx.counted stats)

end

end Meaning
end ScriptMachine
