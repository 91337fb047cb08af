import ScriptMachine.Proofs.Compile.Building
import ScriptMachine.Proofs.Verify.Typing

namespace ScriptMachine
namespace Compile

open Verify

/-- An assignment of states to addresses of a function. -/
def Within (f : Function) (φ : Assignment) : Prop := ∀ pc state, φ pc = some state → f.contains pc

def ReturnAt (p : Program) (pc : Nat) : Prop := (p.code[pc]?).bind Instruction.op? = some .ret

/-- The stretch from `pc` to `pc'` can be given states, with `σ` at its start, in a way that is
right for every assignment that has them, has `σ'` at the end and is as `P` asks. The scopes in
which returns stand are as `R` says. -/
def Spans (p : Program) (f : Function) (owned : Nat → Prop) (R : List Scope → Prop)
    (P : Assignment → Prop) (pc pc' : Nat) (σ σ' : FlowState) : Prop :=
  ∃ flow : List FlowState, pc' = pc + flow.length ∧ (flow ++ [σ']).head? = some σ ∧
    (∀ i state, flow[i]? = some state → ReturnAt p (pc + i) → R state.scopes) ∧
    ∀ φ, Within f φ → Stands φ Eq pc flow → φ pc' = some σ' → P φ →
      ∀ i state, flow[i]? = some state → ∀ d ∈ demands p f (pc + i) state, d.Met f owned φ

namespace Spans

variable {p : Program} {f : Function} {owned : Nat → Prop} {R : List Scope → Prop}
variable {P Q : Assignment → Prop} {pc q pc' : Nat} {σ τ σ' : FlowState}

theorem refl (pc : Nat) (σ : FlowState) : Spans p f owned R P pc pc σ σ :=
  ⟨[], rfl, rfl, by simp, fun _ _ _ _ _ i state hi => by simp at hi⟩

theorem mono (h : Spans p f owned R P pc pc' σ σ') (hPQ : ∀ φ, Q φ → P φ) :
    Spans p f owned R Q pc pc' σ σ' := by
  obtain ⟨flow, hend, hstart, hreturns, hmet⟩ := h
  exact ⟨flow, hend, hstart, hreturns, fun φ hφ hflow hlast hQ => hmet φ hφ hflow hlast (hPQ φ hQ)⟩

theorem start_of_stands {flow : List FlowState} {φ : Assignment} (hend : pc' = pc + flow.length)
    (hstart : (flow ++ [σ']).head? = some σ) (hflow : Stands φ Eq pc flow)
    (hlast : φ pc' = some σ') : φ pc = some σ := by
  cases flow with
  | nil =>
    cases hstart
    rwa [hend] at hlast
  | cons s flow =>
    cases hstart
    obtain ⟨_, hs, rfl⟩ := hflow 0 σ rfl
    exact hs

theorem trans (h : Spans p f owned R (fun φ => P φ ∧ φ q = some τ) pc q σ τ)
    (h' : Spans p f owned R (fun φ => P φ ∧ φ q = some τ) q pc' τ σ') :
    Spans p f owned R P pc pc' σ σ' := by
  obtain ⟨flow, hend, hstart, hreturns, hmet⟩ := h
  obtain ⟨flow', hend', hstart', hreturns', hmet'⟩ := h'
  refine ⟨flow ++ flow', by rw [hend', hend, List.length_append, Nat.add_assoc], ?_, ?_, ?_⟩
  · cases flow with
    | nil =>
      cases hstart
      simpa using hstart'
    | cons s flow => simpa using hstart
  · intro i state hi hreturn
    by_cases hlt : i < flow.length
    · rw [List.getElem?_append_left hlt] at hi
      exact hreturns i state hi hreturn
    · rw [List.getElem?_append_right (by omega)] at hi
      apply hreturns' _ state hi
      rwa [show q + (i - flow.length) = pc + i by omega]
  · intro φ hφ hflow hlast hP i state hi
    obtain ⟨hfirst, hsecond⟩ := stands_append.1 hflow
    rw [← hend] at hsecond
    have hq := start_of_stands hend' hstart' hsecond hlast
    by_cases hlt : i < flow.length
    · rw [List.getElem?_append_left hlt] at hi
      exact hmet φ hφ hfirst hq ⟨hP, hq⟩ i state hi
    · rw [List.getElem?_append_right (by omega)] at hi
      have := hmet' φ hφ hsecond hlast ⟨hP, hq⟩ _ state hi
      rwa [show q + (i - flow.length) = pc + i by omega] at this

theorem again (h : Spans p f owned R (fun φ => P φ ∧ φ pc = some σ) pc pc' σ σ') :
    Spans p f owned R P pc pc' σ σ' := by
  obtain ⟨flow, hend, hstart, hreturns, hmet⟩ := h
  refine ⟨flow, hend, hstart, hreturns, fun φ hφ hflow hlast hP => ?_⟩
  exact hmet φ hφ hflow hlast ⟨hP, start_of_stands hend hstart hflow hlast⟩

theorem out (h : Spans p f owned R (fun φ => P φ ∧ φ pc' = some σ') pc pc' σ σ') :
    Spans p f owned R P pc pc' σ σ' := by
  obtain ⟨flow, hend, hstart, hreturns, hmet⟩ := h
  exact ⟨flow, hend, hstart, hreturns, fun φ hφ hflow hlast hP => hmet φ hφ hflow hlast ⟨hP, hlast⟩⟩

theorem append (h : Spans p f owned R P pc q σ τ) (h' : Spans p f owned R P q pc' τ σ') :
    Spans p f owned R P pc pc' σ σ' :=
  (h.mono fun _ => And.left).trans (h'.mono fun _ => And.left)

theorem single (hreturn : ReturnAt p pc → R σ.scopes)
    (h : ∀ φ, Within f φ → φ (pc + 1) = some σ' → P φ → ∀ d ∈ demands p f pc σ, d.Met f owned φ) :
    Spans p f owned R P pc (pc + 1) σ σ' := by
  have honly {i : Nat} {state : FlowState} (hi : [σ][i]? = some state) : i = 0 ∧ state = σ := by
    obtain ⟨hlt, heq⟩ := List.getElem?_eq_some_iff.1 hi
    obtain rfl : i = 0 := by simpa using hlt
    exact ⟨rfl, heq.symm⟩
  refine ⟨[σ], rfl, rfl, fun i state hi => ?_, fun φ hφ _ hlast hP i state hi => ?_⟩
  · obtain ⟨rfl, rfl⟩ := honly hi
    exact hreturn
  · obtain ⟨rfl, rfl⟩ := honly hi
    exact h φ hφ hlast hP

end Spans

/-- What a function has to have in common with the layout of its code. -/
structure Hosts (L : Layout) (f : Function) : Prop where
  locals : L.locals.length = f.localCount
  functions {i : Nat} {g : Function} : L.names.functions[i]? = some g →
    ∃ g', L.program.functions[i + 1]? = some g' ∧ g'.arity = g.arity ∧
      g'.requiredArity = g.requiredArity

theorem toInt_operand {n : Nat} (h : n ≤ maxOperand) : (BitVec.ofNat 24 n).toInt = n := by
  unfold maxOperand at h
  rw [BitVec.toInt_eq_toNat_of_lt]
  · simp
    omega
  · simp
    omega

section

variable {L : Layout} {f : Function} {owned : Nat → Prop} {R : List Scope → Prop}
variable {P : Assignment → Prop} {pc : Nat} {op : Opcode} {a b : Nat} {k n m : Nat}
  {sc : List Scope} {σ σ' : FlowState}

theorem demands_of_at (hat : L.At pc op a b) (hA : InRange L.program f op.kindA a)
    (hB : InRange L.program f op.kindB b) (hpops : Instruction.popsOf op a b ≤ σ.depth)
    (hcall : op = .call → ∀ callee, L.program.functions[a]? = some callee →
      callee.requiredArity ≤ b ∧ b ≤ callee.arity)
    (herror : op = .makeError → ((L.program.constants[a]?).bind Constant.string?).isSome) :
    demands L.program f pc σ =
      successorDemands L.program f pc op (.of op (BitVec.ofNat 24 a) (BitVec.ofNat 24 b)) σ := by
  obtain ⟨hcode, ha, hb⟩ := hat
  have hop : (Instruction.of op (BitVec.ofNat 24 a) (BitVec.ofNat 24 b)).op = .ok op := by
    simp [Instruction.op]
  have hsound : Sound L.program f op (.of op (BitVec.ofNat 24 a) (BitVec.ofNat 24 b)) σ.depth := by
    refine ⟨?_, ?_, ?_, ?_, ?_⟩
    · simpa [Instruction.of, toInt_operand ha] using hA
    · simpa [Instruction.of, toInt_operand hb] using hB
    · intro callee hop hcallee
      simp only [Instruction.of, toNat_ofNat ha, toNat_ofNat hb] at hcallee ⊢
      exact hcall hop callee hcallee
    · intro hop
      simp only [Instruction.of, toNat_ofNat ha]
      exact herror hop
    · simp only [Instruction.pops, Instruction.op?_of]
      simpa [Instruction.of, toInt_operand ha, toInt_operand hb] using hpops
  rw [demands, hcode]
  simp only [hop, instructionProblem?_eq_none.2 hsound]

theorem not_returnAt (hat : L.At pc op a b) (hop : op ≠ .ret) : ¬ReturnAt L.program pc := by
  simp [ReturnAt, hat.1, hop]

def falls (op : Opcode) : Bool := !op.isTerminator && op != .jumpIfFalse && op != .pushTry

theorem depth_after (op : Opcode) (u v : BitVec 24) (k : Nat)
    (hn : Instruction.popsOf op u.toInt v.toInt = n) (hm : Instruction.pushesOf op = m) :
    ((k + n : Nat) - (Instruction.of op u v).pops + (Instruction.of op u v).pushes).toNat =
    k + m := by
  simp only [Instruction.pops, Instruction.pushes, Instruction.op?_of]
  simp only [Instruction.of, hn, hm]
  omega

theorem depth_same (op : Opcode) (u v : BitVec 24) (k : Nat)
    (hn : Instruction.popsOf op u.toInt v.toInt = 0) (hm : Instruction.pushesOf op = 0) :
    (k - (Instruction.of op u v).pops + (Instruction.of op u v).pushes).toNat = k :=
  depth_after (n := 0) (m := 0) op u v k hn hm

theorem successorDemands_of_falls {p : Program} {u v : BitVec 24} (hfalls : falls op)
    (hn : Instruction.popsOf op u.toInt v.toInt = n) (hm : Instruction.pushesOf op = m) :
    successorDemands p f pc op (.of op u v) ⟨k + n, sc⟩ = fallThrough f pc ⟨k + m, sc⟩ := by
  have hdepth := depth_after op u v k hn hm
  cases op with
  | jump | popTry | ret | endFinally | throw | halt | jumpIfFalse | pushTry => cases hfalls
  | _ => simp only [successorDemands, hdepth]

theorem met_fallThrough {φ : Assignment} (hφ : Within f φ) (hnext : φ (pc + 1) = some σ') :
    ∀ d ∈ fallThrough f pc σ', d.Met f owned φ := by
  have hin := hφ _ _ hnext
  have hlt := (Function.contains_iff.1 hin).2
  intro d hd
  rw [fallThrough, if_neg (Nat.not_le.2 hlt)] at hd
  obtain rfl := List.mem_singleton.1 hd
  exact ⟨hin, hnext⟩

theorem spans_indexed (hat : L.At pc op a b) (hfalls : falls op)
    (hn : Instruction.popsOf op a b = n) (hm : Instruction.pushesOf op = m)
    (hA : InRange L.program f op.kindA a) (hB : InRange L.program f op.kindB b)
    (hcall : op = .call → ∀ callee, L.program.functions[a]? = some callee →
      callee.requiredArity ≤ b ∧ b ≤ callee.arity)
    (herror : op = .makeError → ((L.program.constants[a]?).bind Constant.string?).isSome) :
    Spans L.program f owned R P pc (pc + 1) ⟨k + n, sc⟩ ⟨k + m, sc⟩ := by
  have hop : op ≠ .ret := by
    rintro rfl
    cases hfalls
  refine .single (not_returnAt hat hop).elim fun φ hφ hnext _ => ?_
  rw [demands_of_at hat hA hB (by simp only [hn]; omega) hcall herror,
    successorDemands_of_falls hfalls ?_ hm]
  · exact met_fallThrough hφ hnext
  · rwa [toInt_operand hat.2.1, toInt_operand hat.2.2]

theorem spans_plain (hat : L.At pc op) (hkind : op.kindA = .none ∧ op.kindB = .none)
    (hfalls : falls op) (hn : Instruction.popsOf op 0 0 = n) (hm : Instruction.pushesOf op = m) :
    Spans L.program f owned R P pc (pc + 1) ⟨k + n, sc⟩ ⟨k + m, sc⟩ := by
  refine spans_indexed hat hfalls hn hm (by simp [hkind.1, InRange]) (by simp [hkind.2, InRange])
    ?_ ?_
  · rintro rfl
    cases hkind.1
  · rintro rfl
    cases hkind.1

theorem spans_loads {c : Constant} (h : L.Loads pc c) :
    Spans L.program f owned R P pc (pc + 1) ⟨k, sc⟩ ⟨k + 1, sc⟩ := by
  obtain ⟨i, hat, hi⟩ := h
  obtain ⟨hlt, -⟩ := Array.getElem?_eq_some_iff.1 hi
  exact spans_indexed (n := 0) (m := 1) hat rfl rfl rfl ⟨by omega, by omega⟩ trivial nofun nofun

theorem spans_reads (hf : Hosts L f) {name : Text} (h : L.Reads pc name) :
    Spans L.program f owned R P pc (pc + 1) ⟨k, sc⟩ ⟨k + 1, sc⟩ := by
  rcases h with ⟨i, hat, hi⟩ | ⟨i, hat, hi, -⟩
  · obtain ⟨hlt, -⟩ := List.getElem?_eq_some_iff.1 hi
    rw [hf.locals] at hlt
    exact spans_indexed (n := 0) (m := 1) hat rfl rfl rfl ⟨by omega, by omega⟩ trivial nofun nofun
  · obtain ⟨hlt, -⟩ := Array.getElem?_eq_some_iff.1 hi
    exact spans_indexed (n := 0) (m := 1) hat rfl rfl rfl ⟨by omega, by omega⟩ trivial nofun nofun

theorem spans_storeLocal (hf : Hosts L f) {name : Text} (hat : L.At pc .storeLocal a)
    (ha : L.locals[a]? = some name) :
    Spans L.program f owned R P pc (pc + 1) ⟨k + 1, sc⟩ ⟨k, sc⟩ := by
  obtain ⟨hlt, -⟩ := List.getElem?_eq_some_iff.1 ha
  rw [hf.locals] at hlt
  exact spans_indexed (n := 1) (m := 0) hat rfl rfl rfl ⟨by omega, by omega⟩ trivial nofun nofun

theorem spans_writes (hf : Hosts L f) {name : Text} (h : L.Writes pc name) :
    Spans L.program f owned R P pc (pc + 1) ⟨k + 1, sc⟩ ⟨k, sc⟩ := by
  rcases h with ⟨i, hat, hi, -⟩ | ⟨i, hat, hi, -⟩
  · exact spans_storeLocal hf hat hi
  · obtain ⟨hlt, -⟩ := Array.getElem?_eq_some_iff.1 hi
    exact spans_indexed (n := 1) (m := 0) hat rfl rfl rfl ⟨by omega, by omega⟩ trivial nofun nofun

theorem spans_calls (hf : Hosts L f) {name : Text} (h : L.Calls pc name n) :
    Spans L.program f owned R P pc (pc + 1) ⟨k + n, sc⟩ ⟨k + 1, sc⟩ := by
  obtain ⟨i, g, hat, -, hg, hleast, hmost⟩ := h
  obtain ⟨g', hg', harity, hrequired⟩ := hf.functions hg
  obtain ⟨hlt, -⟩ := Array.getElem?_eq_some_iff.1 hg'
  refine spans_indexed (n := n) (m := 1) hat rfl rfl rfl ⟨by omega, by omega⟩
    (show (0 : Int) ≤ n by omega) ?_ nofun
  intro _ callee hcallee
  rw [hg'] at hcallee
  cases hcallee
  omega

theorem spans_tests {lop : LogicalOp} {pc' : Nat} (h : L.Tests lop pc pc') :
    Spans L.program f owned R P pc pc' ⟨k + 1, sc⟩ ⟨k + 1, sc⟩ := by
  cases lop with
  | and =>
    cases h
    exact .refl _ _
  | or =>
    obtain ⟨hat, rfl⟩ := h
    exact spans_plain (n := 1) (m := 1) hat ⟨rfl, rfl⟩ rfl rfl rfl

theorem inRange_target {φ : Assignment} (hφ : Within f φ) (ha : φ a = some σ) :
    InRange L.program f .target a := by
  have hin := Function.contains_iff.1 (hφ _ _ ha)
  exact ⟨by omega, by omega⟩

theorem spans_jump (hat : L.At pc .jump a) (ha : ∀ φ, P φ → φ a = some ⟨k, sc⟩) :
    Spans L.program f owned R P pc (pc + 1) ⟨k, sc⟩ σ' := by
  refine .single (not_returnAt hat nofun).elim fun φ hφ _ hP => ?_
  have htarget := ha φ hP
  rw [demands_of_at hat (inRange_target hφ htarget) trivial (Int.natCast_nonneg _) nofun
    nofun]
  intro d hd
  simp only [successorDemands, List.mem_singleton] at hd
  rw [hd, depth_same _ _ _ _ rfl rfl]
  simp only [Instruction.of, toNat_ofNat hat.2.1]
  exact ⟨hφ _ _ htarget, htarget⟩

theorem spans_jumpIfFalse (hat : L.At pc .jumpIfFalse a) (ha : ∀ φ, P φ → φ a = some ⟨k, sc⟩) :
    Spans L.program f owned R P pc (pc + 1) ⟨k + 1, sc⟩ ⟨k, sc⟩ := by
  refine .single (not_returnAt hat nofun).elim fun φ hφ hnext hP => ?_
  have htarget := ha φ hP
  rw [demands_of_at (σ := ⟨k + 1, sc⟩) hat (inRange_target hφ htarget) trivial
    (show (1 : Int) ≤ (k + 1 : Nat) by omega) nofun nofun]
  intro d hd
  simp only [successorDemands, depth_after (n := 1) (m := 0) .jumpIfFalse _ _ k rfl rfl,
    List.mem_cons] at hd
  rcases hd with rfl | hd
  · simp only [Instruction.of, toNat_ofNat hat.2.1]
    exact ⟨hφ _ _ htarget, htarget⟩
  · exact met_fallThrough hφ hnext d hd

theorem spans_popTry {table : Nat} (hat : L.At pc .popTry a) (ha : ∀ φ, P φ → φ a = some ⟨k, sc⟩) :
    Spans L.program f owned R P pc (pc + 1) ⟨k, ⟨table, .guarded, k⟩ :: sc⟩ σ' := by
  refine .single (not_returnAt hat nofun).elim fun φ hφ _ hP => ?_
  have htarget := ha φ hP
  rw [demands_of_at hat (inRange_target hφ htarget) trivial (Int.natCast_nonneg _) nofun
    nofun]
  intro d hd
  simp only [successorDemands, if_true, List.mem_singleton] at hd
  rw [hd, depth_same _ _ _ _ rfl rfl]
  simp only [Instruction.of, toNat_ofNat hat.2.1]
  exact ⟨hφ _ _ htarget, htarget⟩

theorem spans_endFinally {table : Nat} (hat : L.At pc .endFinally) :
    Spans L.program f owned R P pc (pc + 1) ⟨k, ⟨table, .cleanup, k⟩ :: sc⟩ σ' := by
  refine .single (not_returnAt hat nofun).elim fun φ hφ _ _ => ?_
  rw [demands_of_at hat trivial trivial (Int.natCast_nonneg _) nofun nofun]
  simp [successorDemands]

theorem spans_ret (hat : L.At pc .ret) (hsc : R sc) :
    Spans L.program f owned R P pc (pc + 1) ⟨1, sc⟩ σ' := by
  refine .single (fun _ => hsc) fun φ hφ _ _ => ?_
  rw [demands_of_at (σ := ⟨1, sc⟩) hat trivial trivial (Int.le_refl 1) nofun nofun]
  simp [successorDemands]

theorem spans_throw (hat : L.At pc .throw) :
    Spans L.program f owned R P pc (pc + 1) ⟨1, sc⟩ σ' := by
  refine .single (not_returnAt hat nofun).elim fun φ hφ _ _ => ?_
  rw [demands_of_at (σ := ⟨1, sc⟩) hat trivial trivial (Int.le_refl 1) nofun nofun]
  simp [successorDemands]

/-- The states that a try table asks for, when its construct is entered at depth 0. -/
structure Guards (sc : List Scope) (table : Nat) (t : TryTable) (φ : Assignment) : Prop where
  handler {c : CatchClause} : c ∈ t.clauses →
    φ c.handler.toInt.toNat = some ⟨1, ⟨table, .guarded, 0⟩ :: sc⟩
  cleanup : t.cleanup ≠ noIndex →
    φ t.cleanup.toInt.toNat = some ⟨0, ⟨table, .cleanup, 0⟩ :: sc⟩

/-- The words of a try table are addresses and its filters are names. -/
structure Proper (p : Program) (t : TryTable) : Prop where
  filter {c : CatchClause} : c ∈ t.clauses → c.filter ≠ noIndex →
    ((p.constant? c.filter).bind Constant.string?).isSome
  handler {c : CatchClause} : c ∈ t.clauses → 0 ≤ c.handler.toInt
  cleanup : t.cleanup ≠ noIndex → 0 ≤ t.cleanup.toInt

theorem isTarget_of_state {φ : Assignment} {w : Int} (hφ : Within f φ) (hw : 0 ≤ w)
    (h : φ w.toNat = some σ) : isTarget f w := by
  have hin := Function.contains_iff.1 (hφ _ _ h)
  simp only [isTarget, Bool.and_eq_true, decide_eq_true_eq]
  omega

theorem spans_pushTry {table : Nat} {t : TryTable} (hat : L.At pc .pushTry table)
    (ht : L.program.tries[table]? = some t) (hproper : Proper L.program t) (howned : owned table)
    (hguards : ∀ φ, P φ → Guards sc table t φ) :
    Spans L.program f owned R P pc (pc + 1) ⟨0, sc⟩ ⟨0, ⟨table, .guarded, 0⟩ :: sc⟩ := by
  refine .single (not_returnAt hat nofun).elim fun φ hφ hnext hP => ?_
  obtain ⟨hhandler, hcleanup⟩ := hguards φ hP
  obtain ⟨hlt, -⟩ := Array.getElem?_eq_some_iff.1 ht
  rw [demands_of_at hat ⟨by omega, by omega⟩ trivial (Int.natCast_nonneg _) nofun nofun]
  intro d hd
  simp only [successorDemands, tryDemands, Instruction.of, toNat_ofNat hat.2.1,
    Array.getD_eq_getD_getElem?, ht, Option.getD_some, List.cons_append, List.mem_cons,
    List.mem_append, List.mem_map] at hd
  rcases hd with rfl | (⟨c, hc, rfl⟩ | hd) | hd
  · exact howned
  · have hstate := hhandler hc
    rw [clauseDemand, if_neg, if_pos (isTarget_of_state hφ (hproper.handler hc) hstate)]
    · exact ⟨hφ _ _ hstate, hstate⟩
    · rintro ⟨hfilter, hnone⟩
      rw [Option.isNone_iff_eq_none] at hnone
      simpa [hnone] using hproper.filter hc hfilter
  · unfold cleanupDemands TryTable.cleanup? at hd
    by_cases hnone : t.cleanup = noIndex
    · simp [hnone] at hd
    · have hstate := hcleanup hnone
      simp only [if_neg hnone, if_pos (isTarget_of_state hφ (hproper.cleanup hnone) hstate),
        List.mem_singleton] at hd
      rw [hd]
      exact ⟨hφ _ _ hstate, hstate⟩
  · exact met_fallThrough hφ hnext d hd

end

end Compile
end ScriptMachine
