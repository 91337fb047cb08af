import Mathlib.Data.List.Forall2
import ScriptMachine.Proofs.Machine.Delivery
import ScriptMachine.Proofs.Machine.Progress

namespace ScriptMachine

/-- The operations that are there to hand control to another frame, to a handler or to the end. -/
def Opcode.leavesFrame : Opcode → Bool
  | .call | .ret | .throw | .endFinally | .halt => true
  | _ => false

namespace Machine
open Verify

/-- A state that has an instruction to execute whose operands are in range, with as many values
above the locals as it takes. -/
structure Ready (p : Program) (f : Function) (s : State) (op : Opcode) (ins : Instruction) :
    Prop where
  function : p.functions[s.frame.function]? = some f
  code : p.code[s.frame.ip]? = some ins
  decoded : ins.op? = some op
  rangeA : InRange p f op.kindA ins.a.toInt
  rangeB : InRange p f op.kindB ins.b.toInt
  operands : (s.frame.base + f.localCount : Int) + ins.pops ≤ s.stack.size
  globals : s.world.globals.size = p.globals.size
  tables : ∀ g ∈ s.guards, g.table < p.tries.size

/-- The values below those that an instruction takes, after a `storeLocal` has written its slot. -/
def lower (s : State) (op : Opcode) (ins : Instruction) : List Value :=
  let below := s.stack.toList.take (s.stack.size - ins.pops.toNat)
  match op, s.stack.back? with
  | .storeLocal, some v => below.set (s.frame.base + ins.a.toNat) v
  | _, _ => below

/-- The values that an instruction takes have given way to as many as the table says, in the same
frame. -/
structure Replaces (op : Opcode) (ins : Instruction) (s s' : State) : Prop where
  stack : ∃ values : List Value, (values.length : Int) = ins.pushes ∧
    s'.stack.toList = lower s op ins ++ values
  frame : s'.frame = { s.frame with ip := s'.frame.ip }
  callers : s'.callers = s.callers

/-- The frame of a function starts at its arguments. The defaults of the parameters that have no
argument come next, and then nil for the other locals. -/
structure LaysOut (p : Program) (ins : Instruction) (s s' : State) (f : Function)
    (below args : List Value) (defaults : List Constant) : Prop where
  function : p.functions[ins.a.toNat]? = some f
  operands : s.stack.toList = below ++ args
  argc : args.length = ins.b.toNat
  missing : List.Forall₂ (fun d c => p.constant? d = some c) (f.defaults.drop args.length) defaults
  arity : args.length + defaults.length = f.arity
  arity_le : f.arity ≤ f.localCount
  frame : s'.frame = ⟨ins.a.toNat, f.entry, below.length⟩
  callers : s'.callers = s.callers.push { s.frame with ip := s.frame.ip + 1 }
  stack : s'.stack.toList = below ++ (args ++ defaults.map Constant.toValue ++
    List.replicate (f.localCount - f.arity) Value.nil)

/-- A state of some kind comes next, unless the operation is one that checks what it is given and an
error is raised. -/
def RaisesOr (p : Program) (limits : Limits) (s : State) (op : Opcode) (good : State → Prop) :
    Prop :=
  (op.checks = true ∧ ∃ e, Raised p limits s e) ∨ ∃ s', step p limits s = some (.next s') ∧ good s'

section

variable {p : Program} {limits : Limits} {f : Function} {s s' : State} {op : Opcode}
  {ins : Instruction}

theorem Ready.step_eq (h : Ready p f s op ins) :
    step p limits s = execute p limits (s.fetched op) op ins := step_of_code h.code h.decoded

theorem Agree.take_eq {n : Nat} {xs ys : Array Value} (h : Agree n xs ys) :
    ys.toList.take n = xs.toList.take n := by
  apply List.ext_getElem?
  intro i
  by_cases hi : i < n
  · rw [List.getElem?_take_of_lt hi, List.getElem?_take_of_lt hi, Array.getElem?_toList,
      Array.getElem?_toList, h i hi]
  · rw [List.getElem?_eq_none (by simp; omega), List.getElem?_eq_none (by simp; omega)]

theorem lower_of_ne (s : State) (ins : Instruction) (hslot : op ≠ .storeLocal) :
    lower s op ins = s.stack.toList.take (s.stack.size - ins.pops.toNat) := by
  cases op with
  | storeLocal => exact absurd rfl hslot
  | _ => rfl

theorem Ready.keeps_of_effect (h : Ready p f s op ins) (hslot : op ≠ .storeLocal)
    (heffect : Effect p (s.fetched op) (s.stack.size - ins.pops.toNat) ins.pops.toNat ins.pushes.toNat
      (op.checks = true) (execute p limits (s.fetched op) op ins)) :
    RaisesOr p limits s op (Replaces op ins s) := by
  have hoperands := h.operands
  have hpushes := pushes_nonneg ins
  unfold RaisesOr Raised
  rw [h.step_eq]
  generalize execute p limits (s.fetched op) op ins = result at heffect
  cases heffect with
  | raise hcontrol hagree hle hworld hchecks =>
    exact .inl ⟨hchecks, _, _, ⟨hcontrol.frame, hcontrol.callers, hcontrol.guards,
      hcontrol.pending ▸ Trimmed.refl _, hworld⟩, rfl⟩
  | @next s' hcontrol hsize hagree =>
    have hbelow : s'.stack.toList.take (s.stack.size - ins.pops.toNat) = lower s op ins :=
      hagree.take_eq.trans (lower_of_ne s ins hslot).symm
    refine .inr ⟨s', rfl, ⟨s'.stack.toList.drop (s.stack.size - ins.pops.toNat), ?_, ?_⟩, ?_,
      hcontrol.callers⟩
    · simp only [State.fetched] at hsize
      simp only [List.length_drop, Array.length_toList]
      omega
    · rw [← hbelow, List.take_append_drop]
    · rw [hcontrol.frame]
      rfl

theorem Taken.replaces {t : State} (h : Taken ins.pops.toNat (s.fetched op) t)
    (hslot : op ≠ .storeLocal) (hpushes : ins.pushes = 0) (hstack : s'.stack = t.stack)
    (hframe : s'.frame = { t.frame with ip := s'.frame.ip }) (hcallers : s'.callers = t.callers) :
    Replaces op ins s s' := by
  have hsize : t.stack.size + ins.pops.toNat = s.stack.size := h.size
  have hbelow : t.stack.toList.take t.stack.size = s.stack.toList.take t.stack.size :=
    h.agree.take_eq
  refine ⟨⟨[], hpushes.symm, ?_⟩, ?_, hcallers.trans h.control.callers⟩
  · rw [List.append_nil, hstack, lower_of_ne s ins hslot, show s.stack.size - ins.pops.toNat =
      t.stack.size by omega, ← hbelow, ← Array.length_toList, List.take_length]
  · rw [hframe, h.control.frame]
    rfl

theorem Ready.keeps_storeLocal (h : Ready p f s .storeLocal ins) :
    RaisesOr p limits s .storeLocal (Replaces .storeLocal ins s) := by
  have hrange := h.rangeA
  have hoperands := h.operands
  simp only [Instruction.pops, h.decoded, Instruction.popsOf, Opcode.kindA,
    InRange] at hrange hoperands
  have hnat := toNat_of_nonneg hrange.1
  obtain ⟨v, hback⟩ : ∃ v, s.stack.back? = some v :=
    Option.isSome_iff_exists.1 (by simp [Array.back?]; omega)
  refine .inr ⟨{ s.fetched .storeLocal with
    stack := s.stack.pop.setIfInBounds (s.frame.base + ins.a.toNat) v }, ?_, ⟨[], ?_, ?_⟩, rfl, rfl⟩
  · rw [h.step_eq]
    simp only [execute, Machine.storeLocal, State.pop?, State.fetched, hback, Option.bind_eq_bind,
      Option.bind_some]
    rw [if_pos (by simp; omega)]
    rfl
  · simp [Instruction.pushes, h.decoded, Instruction.pushesOf]
  · simp [lower, hback, Instruction.pops, h.decoded, Instruction.popsOf, List.dropLast_eq_take]

theorem popTry_cases (target : Nat) (htables : ∀ g ∈ s.guards, g.table < p.tries.size) :
    (∃ e, popTry p s target = raise p s e) ∨ ∃ s', popTry p s target = some (.next s') ∧
      s'.stack = s.stack ∧ s'.frame = { s.frame with ip := s'.frame.ip } ∧
      s'.callers = s.callers := by
  unfold popTry
  split
  · exact .inl ⟨_, rfl⟩
  · next g outer hguards =>
    split
    · exact .inl ⟨_, rfl⟩
    · obtain ⟨t, ht⟩ : ∃ t, p.tries[g.table]? = some t :=
        ⟨_, Array.getElem?_eq_getElem (htables g (hguards ▸ List.mem_cons_self))⟩
      simp only [ht]
      split <;> exact .inr ⟨_, rfl, rfl, rfl, rfl⟩

theorem Ready.keeps_transfer (h : Ready p f s op ins) (htransfers : op.transfers = true)
    (hleaves : op.leavesFrame = false) : RaisesOr p limits s op (Replaces op ins s) := by
  have hoperands := h.operands
  have hpops : ins.pops = Instruction.popsOf op ins.a.toInt ins.b.toInt := by
    simp [Instruction.pops, h.decoded]
  have hpushes : ins.pushes = Instruction.pushesOf op := by simp [Instruction.pushes, h.decoded]
  have hstill (hnone : ins.pops = 0) : Taken ins.pops.toNat (s.fetched op) (s.fetched op) :=
    hnone ▸ taken_none _
  unfold RaisesOr
  rw [h.step_eq]
  cases op with
  | jump => exact .inr ⟨_, rfl, (hstill hpops).replaces (by decide) hpushes rfl rfl rfl⟩
  | pushTry => exact .inr ⟨_, rfl, (hstill hpops).replaces (by decide) hpushes rfl rfl rfl⟩
  | popTry =>
    rcases popTry_cases (s := s.fetched .popTry) ins.a.toNat h.tables with
      ⟨e, hraise⟩ | ⟨s', hnext, hstack, hframe, hcallers⟩
    · exact .inl ⟨rfl, e, _, amid_fetched s .popTry, h.step_eq.trans hraise⟩
    · exact .inr ⟨s', hnext, (hstill hpops).replaces (by decide) hpushes hstack hframe hcallers⟩
  | jumpIfFalse =>
    rw [hpops] at hoperands
    obtain ⟨v, t, hpop, htaken⟩ := taken_pop (s := s.fetched .jumpIfFalse)
      (by simp only [State.fetched, Instruction.popsOf] at hoperands ⊢; omega)
    have hone : ins.pops.toNat = 1 := by rw [hpops]; rfl
    simp only [execute, hpop, Option.map_some]
    refine .inr ⟨_, rfl, ?_⟩
    split <;> exact (hone ▸ htaken).replaces (by decide) hpushes rfl rfl rfl
  | call | ret | throw | endFinally | halt => cases hleaves
  | _ => cases htransfers

theorem Ready.keeps (h : Ready p f s op ins) (hleaves : op.leavesFrame = false) :
    RaisesOr p limits s op (Replaces op ins s) := by
  by_cases htransfers : op.transfers = false
  · by_cases hslot : op = .storeLocal
    · subst hslot
      exact h.keeps_storeLocal
    · exact h.keeps_of_effect hslot
        (effect_below h.decoded htransfers hslot h.rangeA h.operands h.globals)
  · exact h.keeps_transfer (by simpa using htransfers) hleaves

theorem forall₂_of_mapM {α β : Type} {g : α → Option β} {xs : List α} {ys : List β}
    (h : xs.mapM g = some ys) : List.Forall₂ (fun x y => g x = some y) xs ys := by
  induction xs generalizing ys with
  | nil =>
    cases h
    exact .nil
  | cons x xs ih =>
    rw [List.mapM_cons] at h
    obtain ⟨y, hy, h⟩ := Option.bind_eq_some_iff.1 h
    obtain ⟨ys', hys, h⟩ := Option.bind_eq_some_iff.1 h
    cases h
    exact .cons hy (ih hys)

theorem defaults_of_laid {argc : Nat} (hlaid : Laid p f) (hrequired : f.requiredArity ≤ argc) :
    ∃ defaults, ((f.defaults.take f.arity).drop argc).mapM p.constant? = some defaults ∧
      List.Forall₂ (fun d c => p.constant? d = some c) (f.defaults.drop argc) defaults := by
  obtain ⟨defaults, hdefaults⟩ := mapM_constant?_isSome fun d hd =>
    hlaid.default_mem (List.mem_of_mem_take (List.mem_of_mem_drop hd))
      (default_of_drop hrequired hd)
  have htake : f.defaults.take f.arity = f.defaults := by
    rw [← hlaid.defaults_length, List.take_length]
  exact ⟨defaults, hdefaults, forall₂_of_mapM (htake ▸ hdefaults)⟩

theorem Ready.call_laysOut (hp : Verified p) (h : Ready p f s .call ins) :
    RaisesOr p limits s .call fun s' => ∃ callee below args defaults,
      LaysOut p ins s s' callee below args defaults := by
  have hrange := h.rangeA
  have hrangeB := h.rangeB
  have hoperands := h.operands
  simp only [Instruction.pops, h.decoded, Instruction.popsOf, Opcode.kindA, Opcode.kindB,
    InRange] at hrange hrangeB hoperands
  have hnat := toNat_of_nonneg hrange.1
  have hnatB := toNat_of_nonneg hrangeB
  obtain ⟨callee, hcallee⟩ : ∃ callee, p.functions[ins.a.toNat]? = some callee :=
    ⟨_, Array.getElem?_eq_getElem (by omega)⟩
  obtain ⟨below, args, hstack, hargc⟩ : ∃ below args : List Value,
      s.stack = (below ++ args).toArray ∧ args.length = ins.b.toNat :=
    ⟨s.stack.toList.take (s.stack.size - ins.b.toNat),
      s.stack.toList.drop (s.stack.size - ins.b.toNat), by simp, by simp; omega⟩
  have hbase : s.stack.size - args.length = below.length := by simp [hstack]
  have hstep : step p limits s = Machine.call p limits (s.fetched .call) ins.a.toNat args.length :=
    hargc ▸ h.step_eq
  simp only [Machine.call, hcallee, Option.bind_eq_bind, Option.bind_some, State.fetched,
    hbase] at hstep
  split at hstep
  · next e hrefusal => exact .inl ⟨rfl, e, _, amid_fetched s .call, hstep⟩
  · next hrefusal =>
    have hlaid := hp.laid hcallee
    obtain ⟨defaults, hdefaults, hmissing⟩ := defaults_of_laid hlaid (room_of_refusal? hrefusal).2
    have harity := arity_of_refusal? hrefusal
    have hcount : args.length + defaults.length = callee.arity := by
      rw [← hmissing.length_eq, List.length_drop, hlaid.defaults_length]
      omega
    rw [hstack, frameStack?_of_mapM hdefaults hcount hlaid.arity_le, Option.bind_some] at hstep
    exact .inr ⟨_, hstep, callee, below, args, defaults, hcallee, by rw [hstack], hargc, hmissing,
      hcount, hlaid.arity_le, rfl, rfl, rfl⟩

/-- The machine keeps to the table of what instructions take and leave, and to the layout of
frames. -/
theorem step_stackTable (h : Ready p f s op ins) :
    (op.leavesFrame = false → RaisesOr p limits s op (Replaces op ins s)) ∧
    (op = .call → ∀ q : Program, q.verify = .ok p →
      RaisesOr p limits s .call fun s' => ∃ callee below args defaults,
        LaysOut p ins s s' callee below args defaults) := by
  refine ⟨h.keeps, ?_⟩
  rintro rfl q hverify
  exact h.call_laysOut (verified_of_verify hverify)

end

/-- A program that stores a value and calls a function of two parameters, one of them with a
default, with the other alone. -/
def shortCall : Program where
  constants := #[.boolean true, .boolean false]
  functions := #[⟨mainName, 0, 5, 0, 1, [], 1⟩, ⟨"f", 5, 7, 2, 3, [noIndex, 1], 1⟩]
  code := #[.of .loadConst, .of .storeLocal, .of .loadLocal, .of .call 1 1, .of .ret,
    .of .loadLocal 1, .of .ret]

def shortCallAt (ip : Nat) (stack : Array Value) : State where
  stack
  frame := ⟨0, ip, 0⟩
  callers := #[]
  guards := []
  pending := #[]
  world := {}
  stats := none

def shortCallStores : State := shortCallAt 1 #[.nil, .boolean true]

def shortCallCalls : State := shortCallAt 3 #[.boolean true, .boolean true]

/-- The frame of the function has its argument, the default and nil. -/
theorem step_stackTable_shortCall : shortCall.verify = .ok shortCall ∧
    Ready shortCall shortCall.functions[0] shortCallStores .storeLocal (.of .storeLocal) ∧
    RaisesOr shortCall {} shortCallStores .storeLocal
      (Replaces .storeLocal (.of .storeLocal) shortCallStores) ∧
    Ready shortCall shortCall.functions[0] shortCallCalls .call (.of .call 1 1) ∧
    (RaisesOr shortCall {} shortCallCalls .call fun s' => ∃ callee below args defaults,
      LaysOut shortCall (.of .call 1 1) shortCallCalls s' callee below args defaults) ∧
    step shortCall {} shortCallCalls = some (.next { shortCallCalls with
      stack := #[.boolean true, .boolean true, .boolean false, .nil]
      frame := ⟨1, 5, 1⟩
      callers := #[⟨0, 4, 0⟩] }) := by
  have hverify : shortCall.verify = .ok shortCall := eq_ok_of_toOption (by decide +kernel)
  have hstores : Ready shortCall shortCall.functions[0] shortCallStores .storeLocal
      (.of .storeLocal) :=
    ⟨rfl, rfl, rfl, ⟨by decide, by decide⟩, trivial, by decide, rfl,
      by simp [shortCallStores, shortCallAt]⟩
  have hcount : InRange shortCall shortCall.functions[0] .count (1 : BitVec 24).toInt := by
    simp [InRange]
  have hcalls : Ready shortCall shortCall.functions[0] shortCallCalls .call (.of .call 1 1) :=
    ⟨rfl, rfl, rfl, ⟨by decide, by decide⟩, hcount, by decide, rfl,
      by simp [shortCallCalls, shortCallAt]⟩
  exact ⟨hverify, hstores, (step_stackTable hstores).1 rfl, hcalls,
    (step_stackTable hcalls).2 rfl shortCall hverify, by decide +kernel⟩

end Machine
end ScriptMachine
