import ScriptMachine.Verify.Basic

namespace ScriptMachine
namespace Verify

/-- Flow states at some of the addresses of a function. -/
abbrev Assignment := Nat → Option FlowState

/-- A demand that an assignment meets, for a function that may use the owned try tables. -/
def Demand.Met (f : Function) (owned : Nat → Prop) (φ : Assignment) : Demand → Prop
  | .refuse _ => False
  | .own table => owned table
  | .reach target state => f.contains target ∧ φ target = some state

structure Typing (p : Program) (f : Function) (owned : Nat → Prop) (φ : Assignment) : Prop where
  entry : φ f.entry = some ⟨0, []⟩
  within {pc : Nat} {state : FlowState} : φ pc = some state → f.contains pc
  met {pc : Nat} {state : FlowState} :
    φ pc = some state → ∀ d ∈ demands p f pc state, d.Met f owned φ

theorem Demand.Met.mono {f : Function} {owned owned' : Nat → Prop} {φ ψ : Assignment}
    (ho : ∀ table, owned table → owned' table)
    (hφ : ∀ pc state, φ pc = some state → ψ pc = some state) {d : Demand} (h : d.Met f owned φ) :
    d.Met f owned' ψ := by
  cases d with
  | refuse e => exact h
  | own table => exact ho table h
  | reach target state => exact ⟨h.1, hφ target state h.2⟩

theorem bind_eq_ok {x : Except ε α} {g : α → Except ε β} {b : β} :
    x >>= g = .ok b ↔ ∃ a, x = .ok a ∧ g a = .ok b := by
  cases x with
  | error e => simp [bind, Except.bind]
  | ok a => simp [bind, Except.bind]

namespace Exploration

def assignment (x : Exploration) (f : Function) : Assignment := fun pc =>
  if f.contains pc then x.states.getD (pc - f.entry) none else none

def Owns (x : Exploration) (index table : Nat) : Prop := x.owners.getD table none = some index

/-- What is still to do: addresses without a state, and addresses whose demands are open. -/
def work (x : Exploration) : Nat := x.states.count none + x.worklist.length

section

variable {f : Function} {index pc target table : Nat} {state : FlowState} {x y z : Exploration}

theorem contains_of_assignment (h : x.assignment f pc = some state) : f.contains pc := by
  unfold assignment at h
  split at h
  · assumption
  · cases h

/-- One exploration goes on from another: nothing that was found is lost, and an address that has a
state now and had none is on the worklist. -/
structure Grows (f : Function) (x y : Exploration) : Prop where
  size : y.states.size = x.states.size
  ownersSize : y.owners.size = x.owners.size
  assigned {pc : Nat} {state : FlowState} :
    x.assignment f pc = some state → y.assignment f pc = some state
  owned {index table : Nat} : x.Owns index table → y.Owns index table
  fresh {pc : Nat} {state : FlowState} :
    y.assignment f pc = some state → x.assignment f pc = some state ∨ pc ∈ y.worklist
  listed {pc : Nat} : pc ∈ x.worklist → pc ∈ y.worklist
  known {pc : Nat} : pc ∈ y.worklist → pc ∈ x.worklist ∨ (y.assignment f pc).isSome
  work : y.work = x.work

theorem Grows.refl (f : Function) (x : Exploration) : Grows f x x :=
  ⟨rfl, rfl, id, id, .inl, id, .inl, rfl⟩

theorem Grows.trans (hxy : Grows f x y) (hyz : Grows f y z) : Grows f x z where
  size := hyz.size.trans hxy.size
  ownersSize := hyz.ownersSize.trans hxy.ownersSize
  assigned h := hyz.assigned (hxy.assigned h)
  owned h := hyz.owned (hxy.owned h)
  fresh h := by
    rcases hyz.fresh h with h | h
    · exact (hxy.fresh h).imp id hyz.listed
    · exact .inr h
  listed h := hyz.listed (hxy.listed h)
  known h := by
    rcases hyz.known h with h | h
    · rcases hxy.known h with h | h
      · exact .inl h
      · obtain ⟨state, h⟩ := Option.isSome_iff_exists.1 h
        exact .inr (by rw [hyz.assigned h]; rfl)
    · exact .inr h
  work := hyz.work.trans hxy.work

theorem own_cases (h : x.own f index pc table = .ok y) :
    x.owners.getD table none = none ∧
        y = { x with owners := x.owners.setIfInBounds table (some index) } ∨
      x.Owns index table ∧ y = x := by
  unfold own at h
  split at h
  case h_1 hfree => exact .inl ⟨hfree, (Except.ok.inj h).symm⟩
  case h_2 owner howner =>
    split at h
    case isTrue heq => exact .inr ⟨by rw [Owns, howner, heq], (Except.ok.inj h).symm⟩
    case isFalse => cases h

theorem grows_own (h : x.own f index pc table = .ok y) (hsize : table < x.owners.size) :
    Grows f x y ∧ y.Owns index table := by
  obtain ⟨hfree, rfl⟩ | ⟨howns, rfl⟩ := own_cases h
  · refine ⟨⟨rfl, by simp, id, ?_, .inl, id, .inl, rfl⟩, by simp [Owns, hsize]⟩
    intro index' table' howns
    have hne : table ≠ table' := by
      rintro rfl
      rw [Owns, hfree] at howns
      cases howns
    simpa [Owns, Array.getElem?_setIfInBounds, hne] using howns
  · exact ⟨Grows.refl f y, howns⟩

theorem place_lt (hsize : x.states.size = f.stop - f.entry) (h : f.contains pc) :
    pc - f.entry < x.states.size := by
  rw [Function.contains_iff] at h
  omega

theorem assignment_set (hsize : x.states.size = f.stop - f.entry) (htarget : f.contains target)
    {worklist : List Nat} :
    assignment ⟨x.states.setIfInBounds (target - f.entry) (some state), worklist, x.owners⟩ f pc =
      if pc = target then some state else x.assignment f pc := by
  have hlt := place_lt hsize htarget
  by_cases hpc : f.contains pc
  · simp only [assignment, hpc, if_true, Array.getD_eq_getD_getElem?,
      Array.getElem?_setIfInBounds]
    rw [Function.contains_iff] at hpc htarget
    by_cases heq : pc = target
    · simp [heq, hlt]
    · rw [if_neg (by omega), if_neg heq]
  · have hne : pc ≠ target := by rintro rfl; exact hpc htarget
    simp [assignment, hpc, hne]

theorem reach_cases (h : x.reach f pc target state = .ok y) :
    f.contains target ∧
      (x.assignment f target = none ∧ y = { x with
          states := x.states.setIfInBounds (target - f.entry) (some state)
          worklist := target :: x.worklist } ∨
        x.assignment f target = some state ∧ y = x) := by
  unfold reach at h
  split at h
  case isTrue => cases h
  case isFalse hin =>
    have htarget : f.contains target := by simpa using hin
    refine ⟨htarget, ?_⟩
    split at h
    case h_1 hnone => exact .inl ⟨by simp [assignment, htarget, hnone], (Except.ok.inj h).symm⟩
    case h_2 known hknown =>
      have hold : x.assignment f target = some known := by simp [assignment, htarget, hknown]
      split at h
      case isTrue => cases h
      case isFalse hdepth =>
        split at h
        case isTrue => cases h
        case isFalse hscopes =>
          refine .inr ⟨?_, (Except.ok.inj h).symm⟩
          obtain ⟨depth, scopes⟩ := known
          obtain ⟨depth', scopes'⟩ := state
          simp only [ne_eq, Decidable.not_not] at hdepth hscopes
          rw [hold, hdepth, hscopes]

theorem work_reach {states : Array (Option FlowState)} {place : Nat} (hlt : place < states.size)
    (hnone : states[place] = none) (state : FlowState) (target : Nat) (worklist : List Nat)
    (owners : Array (Option Nat)) :
    work ⟨states.setIfInBounds place (some state), target :: worklist, owners⟩ =
      work ⟨states, worklist, owners⟩ := by
  have hcount : 0 < states.count none := by
    rw [Array.count_pos_iff]
    exact hnone ▸ Array.getElem_mem hlt
  simp only [work, Array.setIfInBounds, hlt, dif_pos, List.length_cons]
  rw [Array.count_set]
  simp only [hnone, beq_self_eq_true, if_true, reduceCtorEq, beq_iff_eq, if_false]
  omega

theorem grows_reach (hsize : x.states.size = f.stop - f.entry)
    (h : x.reach f pc target state = .ok y) :
    Grows f x y ∧ f.contains target ∧ y.assignment f target = some state := by
  obtain ⟨htarget, ⟨hold, rfl⟩ | ⟨hold, rfl⟩⟩ := reach_cases h
  · have hlt := place_lt hsize htarget
    have hnone : x.states[target - f.entry] = none := by
      simpa [assignment, htarget, Array.getD_eq_getD_getElem?,
        Array.getElem?_eq_getElem hlt] using hold
    refine ⟨⟨by simp, rfl, ?_, id, ?_, List.mem_cons_of_mem _, ?_, ?_⟩, htarget, ?_⟩
    · intro pc' state' hpc
      rw [assignment_set hsize htarget, if_neg]
      · exact hpc
      · rintro rfl
        rw [hold] at hpc
        cases hpc
    · intro pc' state' hpc
      rw [assignment_set hsize htarget] at hpc
      split at hpc
      · next heq => exact .inr (by simp [heq])
      · exact .inl hpc
    · intro pc' hpc
      rcases List.mem_cons.1 hpc with rfl | hpc
      · exact .inr (by rw [assignment_set hsize htarget, if_pos rfl]; rfl)
      · exact .inl hpc
    · exact work_reach hlt hnone state target x.worklist x.owners
    · rw [assignment_set hsize htarget, if_pos rfl]
  · exact ⟨Grows.refl f y, htarget, hold⟩

theorem grows_meet {d : Demand} (hsize : x.states.size = f.stop - f.entry)
    (hown : ∀ table, d = .own table → table < x.owners.size) (h : meet f index pc x d = .ok y) :
    Grows f x y ∧ d.Met f (y.Owns index) (y.assignment f) := by
  cases d with
  | refuse e => cases h
  | own table => exact grows_own h (hown table rfl)
  | reach target state => exact grows_reach hsize h

theorem grows_meetAll {ds : List Demand} (hsize : x.states.size = f.stop - f.entry)
    (hown : ∀ table, .own table ∈ ds → table < x.owners.size)
    (h : meetAll f index pc x ds = .ok y) :
    Grows f x y ∧ ∀ d ∈ ds, d.Met f (y.Owns index) (y.assignment f) := by
  unfold meetAll at h
  induction ds generalizing x with
  | nil =>
    cases h
    exact ⟨Grows.refl f _, by simp⟩
  | cons d ds ih =>
    rw [List.foldlM_cons, bind_eq_ok] at h
    obtain ⟨z, hz, hy⟩ := h
    obtain ⟨hxz, hd⟩ := grows_meet hsize (fun table h => hown table (h ▸ List.mem_cons_self)) hz
    have hown' (table : Nat) (h : .own table ∈ ds) : table < z.owners.size := by
      rw [hxz.ownersSize]
      exact hown table (List.mem_cons_of_mem d h)
    obtain ⟨hzy, hds⟩ := ih (hxz.size.trans hsize) hown' hy
    refine ⟨hxz.trans hzy, fun d' hd' => ?_⟩
    rcases List.mem_cons.1 hd' with rfl | hd'
    · exact hd.mono (fun _ h => hzy.owned h) (fun _ _ h => hzy.assigned h)
    · exact hds d' hd'

end

end Exploration

section

variable {p : Program} {f : Function} {pc table : Nat} {state : FlowState}
variable {op : Opcode} {ins : Instruction}

theorem fetched_of_not_refused (h : ∀ e, .refuse e ∉ demands p f pc state) :
    ∃ ins op, p.code[pc]? = some ins ∧ ins.op? = some op ∧
      instructionProblem? p f op ins state.depth = none ∧
      demands p f pc state = successorDemands p f pc op ins state := by
  unfold demands at h ⊢
  split at h
  case h_1 => simp at h
  case h_2 ins hins =>
    split at h
    case h_1 e _ => simp at h
    case h_2 op hop =>
      split at h
      case h_1 => simp at h
      case h_2 hproblem =>
        have hop' : ins.op? = some op := by
          unfold Instruction.op at hop
          split at hop
          · next hsome => cases hop; exact hsome
          · cases hop
        exact ⟨ins, op, hins, hop', hproblem, rfl⟩

/-- An operand lies in what it is an index into. -/
def InRange (p : Program) (f : Function) : OperandKind → Int → Prop
  | .none, _ => True
  | .constant, v => 0 ≤ v ∧ v < p.constants.size
  | .slot, v => 0 ≤ v ∧ v < f.localCount
  | .global, v => 0 ≤ v ∧ v < p.globals.size
  | .target, v => (f.entry : Int) ≤ v ∧ v < f.stop
  | .function, v => 0 ≤ v ∧ v < p.functions.size
  | .count, v => 0 ≤ v
  | .tryTable, v => 0 ≤ v ∧ v < p.tries.size

theorem operandProblem?_eq_none {kind : OperandKind} {v : Int} :
    operandProblem? p f kind v = none ↔ InRange p f kind v := by
  cases kind <;> simp [operandProblem?, InRange, inRange, isTarget]
  omega

theorem toNat_of_nonneg {a : BitVec 24} (h : 0 ≤ a.toInt) : (a.toNat : Int) = a.toInt := by
  rw [BitVec.toInt_eq_toNat_cond] at h ⊢
  have hlt := a.isLt
  split at h
  · rw [if_pos ‹_›]
  · omega

/-- What the checks of an instruction say when none of them finds a problem. -/
structure Sound (p : Program) (f : Function) (op : Opcode) (ins : Instruction) (depth : Nat) :
    Prop where
  rangeA : InRange p f op.kindA ins.a.toInt
  rangeB : InRange p f op.kindB ins.b.toInt
  arity {callee : Function} : op = .call → p.functions[ins.a.toNat]? = some callee →
    callee.requiredArity ≤ ins.b.toNat ∧ ins.b.toNat ≤ callee.arity
  errorType : op = .makeError →
    ((p.constants[ins.a.toNat]?).bind Constant.string?).isSome
  pops : ins.pops ≤ depth

theorem instructionProblem?_eq_none {depth : Nat} :
    instructionProblem? p f op ins depth = none ↔ Sound p f op ins depth := by
  simp only [instructionProblem?, Option.orElse_eq_orElse, Option.orElse_eq_or,
    Option.or_eq_none_iff, operandProblem?_eq_none]
  constructor
  · rintro ⟨ha, hb, hcall, herror, hpops⟩
    refine ⟨ha, hb, ?_, ?_, ?_⟩
    · rintro callee rfl hcallee
      simp only [callProblem?, hcallee] at hcall
      split at hcall
      · cases hcall
      · omega
    · rintro rfl
      rw [Option.isSome_iff_ne_none]
      intro hnone
      simp [errorTypeProblem?, hnone] at herror
    · split at hpops
      · cases hpops
      · omega
  · rintro ⟨ha, hb, hcall, herror, hpops⟩
    refine ⟨ha, hb, ?_, ?_, ?_⟩
    · unfold callProblem?
      split
      · next callee hcallee => rw [if_neg]; have := hcall rfl hcallee; omega
      · rfl
    · unfold errorTypeProblem?
      split
      · next hnone => simp [hnone] at herror
      · rfl
    · rw [if_neg (by omega)]

theorem own_not_mem_fallThrough : .own table ∉ fallThrough f pc state := by
  unfold fallThrough
  split <;> simp

theorem own_mem_tryDemands {other : Nat} (h : .own table ∈ tryDemands p f pc other state) :
    table = other := by
  simp only [tryDemands, cleanupDemands, List.cons_append, List.mem_cons, List.mem_append,
    List.mem_map] at h
  rcases h with h | ⟨clause, -, h⟩ | h
  · cases h
    rfl
  · unfold clauseDemand at h
    split at h
    · cases h
    · split at h <;> cases h
  · split at h
    · cases h
    · split at h <;> simp at h

theorem own_mem_successorDemands (h : .own table ∈ successorDemands p f pc op ins state) :
    op = .pushTry ∧ table = ins.a.toNat := by
  unfold successorDemands at h
  split at h
  case h_5 =>
    rcases List.mem_append.1 h with h | h
    · exact ⟨rfl, own_mem_tryDemands h⟩
    · exact absurd h own_not_mem_fallThrough
  case h_2 | h_3 =>
    split at h
    · split at h <;> simp at h
    · simp at h
  case h_6 => split at h <;> simp at h
  all_goals simp [own_not_mem_fallThrough] at h

theorem lt_of_own_mem (h : .own table ∈ demands p f pc state) : table < p.tries.size := by
  unfold demands at h
  split at h
  case h_1 => simp at h
  case h_2 ins hins =>
    split at h
    case h_1 => simp at h
    case h_2 op hop =>
      split at h
      case h_1 => simp at h
      case h_2 hproblem =>
        obtain ⟨rfl, rfl⟩ := own_mem_successorDemands h
        have hrange := (instructionProblem?_eq_none.1 hproblem).rangeA
        simp only [Opcode.kindA, InRange] at hrange
        have hnat := toNat_of_nonneg hrange.1
        omega

end

namespace Exploration

/-- Every state that was found has its demands met or on the worklist. -/
structure Ongoing (p : Program) (f : Function) (index : Nat) (x : Exploration) : Prop where
  size : x.states.size = f.stop - f.entry
  ownersSize : x.owners.size = p.tries.size
  listed {pc : Nat} : pc ∈ x.worklist → (x.assignment f pc).isSome
  settled {pc : Nat} {state : FlowState} : x.assignment f pc = some state →
    pc ∈ x.worklist ∨ ∀ d ∈ demands p f pc state, d.Met f (x.Owns index) (x.assignment f)

/-- Meeting the demands of one address keeps the exploration going. -/
theorem Ongoing.meetAll {p : Program} {f : Function} {index pc : Nat} {x y : Exploration}
    {rest : List Nat} {state : FlowState} {ds : List Demand} (hx : Ongoing p f index x)
    (hlist : x.worklist.Perm (pc :: rest)) (hpc : x.assignment f pc = some state)
    (hds : ds.Perm (demands p f pc state))
    (h : meetAll f index pc { x with worklist := rest } ds = .ok y) :
    Ongoing p f index y ∧ Grows f { x with worklist := rest } y := by
  have hown (table : Nat) (ht : .own table ∈ ds) : table < x.owners.size := by
    rw [hx.ownersSize]
    exact lt_of_own_mem (hds.mem_iff.1 ht)
  obtain ⟨hgrow, hmet⟩ := grows_meetAll (x := { x with worklist := rest }) hx.size hown h
  refine ⟨⟨hgrow.size.trans hx.size, hgrow.ownersSize.trans hx.ownersSize, ?_, ?_⟩, hgrow⟩
  · intro pc' hpc'
    rcases hgrow.known hpc' with hold | hnew
    · obtain ⟨st, hst⟩ := Option.isSome_iff_exists.1
        (hx.listed (hlist.mem_iff.2 (List.mem_cons_of_mem pc hold)))
      rw [hgrow.assigned hst]
      rfl
    · exact hnew
  · intro pc' state' hpc'
    rcases hgrow.fresh hpc' with hold | hnew
    · -- the demands of the address itself are met now; the others are as they were
      by_cases heq : pc' = pc
      · subst heq
        cases hpc.symm.trans hold
        exact .inr fun d hd => hmet d (hds.mem_iff.2 hd)
      · rcases hx.settled hold with hlisted | hdone
        · have hmem := List.mem_cons.1 (hlist.mem_iff.1 hlisted)
          exact .inl (hgrow.listed (hmem.resolve_left heq))
        · exact .inr fun d hd => (hdone d hd).mono (fun _ h => hgrow.owned h)
            (fun _ _ h => hgrow.assigned h)
    · exact .inl hnew

end Exploration
end Verify
end ScriptMachine
