import ScriptMachine.Machine.Run
import ScriptMachine.Proofs.Verify.Typing

namespace ScriptMachine

/-- The operations that move control elsewhere than to the next instruction, or open or close a try
construct. -/
def Opcode.transfers : Opcode → Bool
  | .jump | .jumpIfFalse | .call | .ret | .pushTry | .popTry | .endFinally | .halt => true
  | _ => false

/-- The operations that may refuse what they are given. The others raise no error. -/
def Opcode.checks : Opcode → Bool
  | .loadConst | .loadLocal | .storeLocal | .storeGlobal | .not | .equal | .notEqual | .jump
  | .jumpIfFalse | .pop | .makeList | .pushTry | .makeError | .print | .input => false
  | _ => true

namespace Machine

theorem step_of_code {p : Program} {limits : Limits} {s : State} {ins : Instruction} {op : Opcode}
    (hcode : p.code[s.frame.ip]? = some ins) (hop : ins.op? = some op) :
    step p limits s = execute p limits (s.fetched op) op ins := by
  simp only [step, hcode, hop, Option.bind_eq_bind, Option.bind_some]

theorem step_cases (p : Program) (limits : Limits) (s : State) :
    step p limits s = none ∨ ∃ ins op, p.code[s.frame.ip]? = some ins ∧ ins.op? = some op ∧
      step p limits s = execute p limits (s.fetched op) op ins := by
  cases hcode : p.code[s.frame.ip]? with
  | none => exact .inl (by simp only [step, hcode]; rfl)
  | some ins =>
    cases hop : ins.op? with
    | none =>
      exact .inl (by simp only [step, hcode, Option.bind_eq_bind, Option.bind_some, hop]; rfl)
    | some op => exact .inr ⟨ins, op, rfl, hop, step_of_code hcode hop⟩

/-- Frames, guards and pending completions are the same, and there are as many globals. -/
structure SameControl (s s' : State) : Prop where
  frame : s'.frame = s.frame
  callers : s'.callers = s.callers
  guards : s'.guards = s.guards
  pending : s'.pending = s.pending
  globals : s'.world.globals.size = s.world.globals.size

theorem SameControl.refl (s : State) : SameControl s s := ⟨rfl, rfl, rfl, rfl, rfl⟩

theorem SameControl.trans {s s' s'' : State} (h : SameControl s s') (h' : SameControl s' s'') :
    SameControl s s'' :=
  ⟨h'.frame.trans h.frame, h'.callers.trans h.callers, h'.guards.trans h.guards,
    h'.pending.trans h.pending, h'.globals.trans h.globals⟩

/-- The same values in the first `n` places. -/
def Agree (n : Nat) (xs ys : Array Value) : Prop := ∀ i, i < n → ys[i]? = xs[i]?

theorem Agree.mono {n m : Nat} {xs ys : Array Value} (h : Agree n xs ys) (hm : m ≤ n) :
    Agree m xs ys := fun i hi => h i (Nat.lt_of_lt_of_le hi hm)

theorem Agree.trans {n : Nat} {xs ys zs : Array Value} (h : Agree n xs ys) (h' : Agree n ys zs) :
    Agree n xs zs := fun i hi => (h' i hi).trans (h i hi)

theorem agree_push (xs : Array Value) (v : Value) : Agree xs.size xs (xs.push v) := by
  intro i hi
  rw [Array.getElem?_push, if_neg (by omega)]

theorem agree_pop (xs : Array Value) : Agree (xs.size - 1) xs xs.pop := by
  intro i hi
  rw [Array.getElem?_pop, if_pos hi]

theorem getElem?_shrink {xs : Array α} {n i : Nat} (h : i < n) : (xs.shrink n)[i]? = xs[i]? := by
  rw [← Array.getElem?_toList, Array.toList_shrink, List.getElem?_take_of_lt h,
    Array.getElem?_toList]

theorem agree_resize {n m : Nat} (xs : Array Value) (hm : n ≤ m) (hn : n ≤ xs.size) :
    Agree n xs (resize xs m .nil) := by
  intro i hi
  unfold resize
  split
  · exact getElem?_shrink (by omega)
  · rw [Array.getElem?_append_left (by omega)]

@[simp] theorem size_resize (xs : Array α) (n : Nat) (fill : α) : (resize xs n fill).size = n := by
  unfold resize
  split
  · simp only [Array.size_shrink]
    omega
  · simp only [Array.size_append, Array.size_replicate]
    omega

theorem resize_of_size_le {xs : Array α} {n : Nat} {fill : α} (h : xs.size ≤ n) :
    resize xs n fill = xs ++ Array.replicate (n - xs.size) fill := by
  unfold resize
  split
  · have hn : n = xs.size := by omega
    subst hn
    simp
  · rfl

/-- What an instruction on operands does: it puts `pushes` values in the place of `pops`, or if it
`fails` raises an error after taking some of them. The first `kept` places of the stack stay as they
are. -/
inductive Effect (p : Program) (s : State) (kept pops pushes : Nat) (fails : Prop) :
    Option Progress → Prop
  | next {s' : State} : SameControl s s' → s'.stack.size + pops = s.stack.size + pushes →
      Agree kept s.stack s'.stack → Effect p s kept pops pushes fails (some (.next s'))
  | raise {s' : State} {e : ScriptError} : SameControl s s' → Agree kept s.stack s'.stack →
      kept ≤ s'.stack.size → s'.world = s.world → fails →
      Effect p s kept pops pushes fails (raise p s' e)

section

variable {fails : Prop} {p : Program} {n m index count : Nat} {s s₁ s' : State}

theorem Effect.mono {kept kept' pops pushes : Nat} {result : Option Progress}
    (h : Effect p s kept pops pushes fails result) (hk : kept' ≤ kept) :
    Effect p s kept' pops pushes fails result := by
  cases h with
  | next hcontrol hsize hagree => exact .next hcontrol hsize (hagree.mono hk)
  | raise hcontrol hagree hle hworld hfails =>
    exact .raise hcontrol (hagree.mono hk) (Nat.le_trans hk hle) hworld hfails

structure Taken (n : Nat) (s s' : State) : Prop where
  control : SameControl s s'
  world : s'.world = s.world
  size : s'.stack.size + n = s.stack.size
  agree : Agree s'.stack.size s.stack s'.stack

theorem taken_pop (h : 0 < s.stack.size) : ∃ v s', s.pop? = some (v, s') ∧ Taken 1 s s' := by
  cases hback : s.stack.back? with
  | none =>
    rw [Array.back?_eq_none_iff] at hback
    simp [hback] at h
  | some v =>
    refine ⟨v, { s with stack := s.stack.pop }, by rw [State.pop?, hback],
      ⟨rfl, rfl, rfl, rfl, rfl⟩,
      rfl, ?_, ?_⟩
    · simp only [Array.size_pop]
      omega
    · simpa using agree_pop s.stack

theorem Taken.trans {s'' : State} (h : Taken n s s') (h' : Taken m s' s'') :
    Taken (n + m) s s'' where
  control := h.control.trans h'.control
  world := h'.world.trans h.world
  size := by have := h.size; have := h'.size; omega
  agree := (h.agree.mono (by have := h'.size; omega)).trans h'.agree

theorem taken_pop2 (h : 2 ≤ s.stack.size) : ∃ l r s', pop2? s = some (l, r, s') ∧ Taken 2 s s' := by
  obtain ⟨r, s₁, hr, h₁⟩ := taken_pop (s := s) (by omega)
  obtain ⟨l, s₂, hl, h₂⟩ := taken_pop (s := s₁) (by have := h₁.size; omega)
  exact ⟨l, r, s₂, by simp [pop2?, hr, hl], h₁.trans h₂⟩

theorem Taken.effect_push {v : Value} (h : Taken n s s₁) (hcontrol : SameControl s₁ s')
    (hstack : s'.stack = s₁.stack.push v) :
    Effect p s (s.stack.size - n) n 1 fails (some (.next s')) := by
  have hsize := h.size
  refine .next (h.control.trans hcontrol) ?_ ?_
  · rw [hstack, Array.size_push]
    omega
  · rw [hstack]
    exact (h.agree.trans (agree_push _ v)).mono (by omega)

theorem Taken.effect_raise {e : ScriptError} (h : Taken n s s₁) (hfails : fails) :
    Effect p s (s.stack.size - n) n m fails (raise p s₁ e) := by
  have hsize := h.size
  exact .raise h.control (h.agree.mono (by omega)) (by omega) h.world hfails

theorem Taken.effect_world (h : Taken n s s₁) (hcontrol : SameControl s₁ s')
    (hstack : s'.stack = s₁.stack) :
    Effect p s (s.stack.size - n) n 0 fails (some (.next s')) := by
  have hsize := h.size
  refine .next (h.control.trans hcontrol) ?_ ?_
  · rw [hstack]
    omega
  · rw [hstack]
    exact h.agree.mono (by omega)

theorem Taken.effect_settle {result : Except ScriptError Value} (h : Taken n s s₁)
    (hfails : ∀ e, result = .error e → fails) :
    Effect p s (s.stack.size - n) n 1 fails (settle p s₁ result) := by
  cases result with
  | ok v => exact h.effect_push ⟨rfl, rfl, rfl, rfl, rfl⟩ rfl
  | error e => exact h.effect_raise (hfails e rfl)

theorem taken_none (s : State) : Taken 0 s s := ⟨SameControl.refl s, rfl, rfl, fun _ _ => rfl⟩

theorem effect_push (s : State) (v : Value) :
    Effect p s (s.stack.size - 0) 0 1 fails (some (.next (s.push v))) :=
  (taken_none s).effect_push ⟨rfl, rfl, rfl, rfl, rfl⟩ rfl

theorem effect_unary {f : Heap → Value → Except ScriptError Value}
    (hfails : ∀ h v e, f h v = .error e → fails) (h : 1 ≤ s.stack.size) :
    Effect p s (s.stack.size - 1) 1 1 fails (unary p s f) := by
  obtain ⟨v, s₁, hpop, htaken⟩ := taken_pop h
  simp only [unary, hpop, Option.bind_eq_bind, Option.bind_some]
  exact htaken.effect_settle (hfails _ _)

theorem effect_binary {f : Heap → Value → Value → Except ScriptError Value}
    (hfails : ∀ h l r e, f h l r = .error e → fails) (h : 2 ≤ s.stack.size) :
    Effect p s (s.stack.size - 2) 2 1 fails (binary p s f) := by
  obtain ⟨l, r, s₁, hpop, htaken⟩ := taken_pop2 h
  simp only [binary, hpop, Option.bind_eq_bind, Option.bind_some]
  exact htaken.effect_settle (hfails _ _ _)

theorem effect_add (hfails : fails) (h : 2 ≤ s.stack.size) :
    Effect p s (s.stack.size - 2) 2 1 fails (add p s) := by
  obtain ⟨l, r, s₁, hpop, htaken⟩ := taken_pop2 h
  simp only [add, hpop, Option.bind_eq_bind, Option.bind_some]
  cases s₁.world.heap.add l r with
  | ok result => exact htaken.effect_push ⟨rfl, rfl, rfl, rfl, rfl⟩ rfl
  | error e => exact htaken.effect_raise hfails

theorem effect_loadGlobal (hfails : fails) (h : index < p.globals.size)
    (hglobals : s.world.globals.size = p.globals.size) :
    Effect p s (s.stack.size - 0) 0 1 fails (loadGlobal p s index) := by
  obtain ⟨value?, hvalue⟩ : ∃ value?, s.world.globals[index]? = some value? :=
    ⟨_, Array.getElem?_eq_getElem (by omega)⟩
  obtain ⟨name, hname⟩ : ∃ name, p.globals[index]? = some name :=
    ⟨_, Array.getElem?_eq_getElem h⟩
  simp only [loadGlobal, hvalue, Option.bind_eq_bind, Option.bind_some]
  cases value? with
  | some v => exact (taken_none s).effect_push ⟨rfl, rfl, rfl, rfl, rfl⟩ rfl
  | none =>
    simp only [hname, Option.bind_some]
    exact (taken_none s).effect_raise hfails

theorem effect_storeGlobal (hindex : index < s.world.globals.size) (h : 1 ≤ s.stack.size) :
    Effect p s (s.stack.size - 1) 1 0 fails (storeGlobal s index) := by
  obtain ⟨v, s₁, hpop, htaken⟩ := taken_pop h
  simp only [storeGlobal, hpop, Option.bind_eq_bind, Option.bind_some]
  rw [if_pos (by simpa [htaken.world] using hindex)]
  exact htaken.effect_world ⟨rfl, rfl, rfl, rfl, by simp⟩ rfl

theorem taken_shrink (h : n ≤ s.stack.size) :
    Taken n s { s with stack := s.stack.shrink (s.stack.size - n) } := by
  refine ⟨⟨rfl, rfl, rfl, rfl, rfl⟩, rfl, ?_, ?_⟩
  · simp only [Array.size_shrink]
    omega
  · intro i hi
    simp only [Array.size_shrink] at hi
    exact getElem?_shrink (by omega)

theorem effect_makeList (h : count ≤ s.stack.size) :
    Effect p s (s.stack.size - count) count 1 fails (makeList s count) := by
  unfold makeList
  rw [if_pos h]
  exact (taken_shrink h).effect_push ⟨rfl, rfl, rfl, rfl, rfl⟩ rfl

theorem effect_makeDict (hfails : fails) (h : count * 2 ≤ s.stack.size) :
    Effect p s (s.stack.size - count * 2) (count * 2) 1 fails (makeDict p s count) := by
  simp only [makeDict]
  rw [if_pos h]
  split
  · exact (taken_shrink h).effect_push ⟨rfl, rfl, rfl, rfl, rfl⟩ rfl
  · exact (taken_shrink h).effect_raise hfails

theorem effect_indexSet (hfails : fails) (h : 3 ≤ s.stack.size) :
    Effect p s (s.stack.size - 3) 3 0 fails (indexSet p s) := by
  obtain ⟨v, s₁, hpop, htaken⟩ := taken_pop (s := s) (by omega)
  obtain ⟨l, r, s₂, hpop2, htaken2⟩ := taken_pop2 (s := s₁) (by have := htaken.size; omega)
  simp only [indexSet, hpop, hpop2, Option.bind_eq_bind, Option.bind_some]
  cases s₂.world.heap.indexSet l r v with
  | ok heap => exact (htaken.trans htaken2).effect_world ⟨rfl, rfl, rfl, rfl, rfl⟩ rfl
  | error e => exact (htaken.trans htaken2).effect_raise hfails

theorem effect_throw (hfails : fails) (h : 1 ≤ s.stack.size) :
    Effect p s (s.stack.size - 1) 1 0 fails (throw p s) := by
  obtain ⟨v, s₁, hpop, htaken⟩ := taken_pop h
  simp only [throw, hpop, Option.bind_eq_bind, Option.bind_some]
  split <;> exact htaken.effect_raise hfails

theorem effect_makeError (hindex : index < p.constants.size) (h : 1 ≤ s.stack.size) :
    Effect p s (s.stack.size - 1) 1 1 fails (makeError p s index) := by
  obtain ⟨v, s₁, hpop, htaken⟩ := taken_pop h
  simp only [makeError, Array.getElem?_eq_getElem hindex, hpop, Option.bind_eq_bind,
    Option.bind_some]
  exact htaken.effect_push ⟨rfl, rfl, rfl, rfl, rfl⟩ rfl

theorem effect_print (h : 1 ≤ s.stack.size) :
    Effect p s (s.stack.size - 1) 1 0 fails (print s) := by
  obtain ⟨v, s₁, hpop, htaken⟩ := taken_pop h
  simp only [print, hpop, Option.bind_eq_bind, Option.bind_some]
  exact htaken.effect_world ⟨rfl, rfl, rfl, rfl, rfl⟩ rfl

theorem effect_readFile (hfails : fails) (h : 1 ≤ s.stack.size) :
    Effect p s (s.stack.size - 1) 1 1 fails (readFile p s) := by
  obtain ⟨v, s₁, hpop, htaken⟩ := taken_pop h
  simp only [readFile, hpop, Option.bind_eq_bind, Option.bind_some]
  split
  · split
    · exact htaken.effect_push ⟨rfl, rfl, rfl, rfl, rfl⟩ rfl
    · exact htaken.effect_raise hfails
  · exact htaken.effect_raise hfails

theorem effect_writeFile (hfails : fails) (h : 2 ≤ s.stack.size) :
    Effect p s (s.stack.size - 2) 2 0 fails (writeFile p s) := by
  obtain ⟨l, r, s₁, hpop, htaken⟩ := taken_pop2 h
  simp only [writeFile, hpop, Option.bind_eq_bind, Option.bind_some]
  split
  · split
    · exact htaken.effect_world ⟨rfl, rfl, rfl, rfl, rfl⟩ rfl
    · exact htaken.effect_raise hfails
  · exact htaken.effect_raise hfails

theorem effect_storeLocal {slot : Nat} (h : s.frame.base + slot + 1 < s.stack.size) :
    Effect p s s.frame.base 1 0 fails (storeLocal s slot) := by
  obtain ⟨v, s₁, hpop, htaken⟩ := taken_pop (s := s) (by omega)
  have hsize := htaken.size
  have hframe := htaken.control.frame
  simp only [storeLocal, hpop, Option.bind_eq_bind, Option.bind_some]
  rw [hframe, if_pos (by omega)]
  refine .next ⟨rfl, htaken.control.callers, htaken.control.guards, htaken.control.pending,
    htaken.control.globals⟩ (by simpa using hsize) ?_
  intro i hi
  rw [Array.getElem?_setIfInBounds_ne (by omega)]
  exact htaken.agree i (by omega)

end

/-- Every instruction that is not a transfer of control and writes no slot, on a stack that holds a
frame's locals and the operands that the instruction takes. It leaves all of the stack below these
operands as it is. -/
theorem effect_below {p : Program} {limits : Limits} {f : Function} {s : State} {op : Opcode}
    {ins : Instruction} (hop : ins.op? = some op) (htransfers : op.transfers = false)
    (hslot : op ≠ .storeLocal) (hrange : Verify.InRange p f op.kindA ins.a.toInt)
    (hsize : (s.frame.base + f.localCount : Int) + ins.pops ≤ s.stack.size)
    (hglobals : s.world.globals.size = p.globals.size) :
    Effect p s (s.stack.size - ins.pops.toNat) ins.pops.toNat ins.pushes.toNat (op.checks = true)
      (execute p limits s op ins) := by
  simp only [Instruction.pops, Instruction.pushes, hop] at hsize ⊢
  cases op with
  | jump | jumpIfFalse | call | ret | pushTry | popTry | endFinally | halt => cases htransfers
  | storeLocal => exact absurd rfl hslot
  | loadConst =>
    simp only [Opcode.kindA, Verify.InRange] at hrange
    have hnat := Verify.toNat_of_nonneg hrange.1
    obtain ⟨c, hc⟩ : ∃ c, p.constants[ins.a.toNat]? = some c :=
      ⟨_, Array.getElem?_eq_getElem (by omega)⟩
    simp only [execute, hc, Option.map_some]
    exact effect_push s _
  | loadLocal =>
    simp only [Opcode.kindA, Verify.InRange, Instruction.popsOf] at hrange hsize
    have hnat := Verify.toNat_of_nonneg hrange.1
    obtain ⟨v, hv⟩ : ∃ v, s.stack[s.frame.base + ins.a.toNat]? = some v :=
      ⟨_, Array.getElem?_eq_getElem (by omega)⟩
    simp only [execute, hv, Option.map_some]
    exact effect_push s _
  | loadGlobal =>
    simp only [Opcode.kindA, Verify.InRange] at hrange
    have hnat := Verify.toNat_of_nonneg hrange.1
    exact effect_loadGlobal rfl (by omega) hglobals
  | storeGlobal =>
    simp only [Opcode.kindA, Verify.InRange, Instruction.popsOf] at hrange hsize
    have hnat := Verify.toNat_of_nonneg hrange.1
    exact effect_storeGlobal (by omega) (by omega)
  | makeList =>
    simp only [Opcode.kindA, Verify.InRange, Instruction.popsOf] at hrange hsize ⊢
    have hnat := Verify.toNat_of_nonneg hrange
    rw [show ins.a.toInt.toNat = ins.a.toNat by omega]
    exact effect_makeList (by omega)
  | makeDict =>
    simp only [Opcode.kindA, Verify.InRange, Instruction.popsOf] at hrange hsize ⊢
    have hnat := Verify.toNat_of_nonneg hrange
    rw [show (ins.a.toInt * 2).toNat = ins.a.toNat * 2 by omega]
    exact effect_makeDict rfl (by omega)
  | makeError =>
    simp only [Opcode.kindA, Verify.InRange, Instruction.popsOf] at hrange hsize
    have hnat := Verify.toNat_of_nonneg hrange.1
    exact effect_makeError (by omega) (by omega)
  | add =>
    simp only [Instruction.popsOf] at hsize
    exact effect_add rfl (by omega)
  | sub | mul | div | mod | less | lessEqual | greater | greaterEqual | indexGet =>
    simp only [Instruction.popsOf] at hsize
    have htwo : 2 ≤ s.stack.size := by omega
    simp only [execute]
    exact effect_binary (fun _ _ _ _ _ => rfl) htwo
  | equal | notEqual =>
    simp only [Instruction.popsOf] at hsize
    have htwo : 2 ≤ s.stack.size := by omega
    simp only [execute]
    exact effect_binary (by simp) htwo
  | negate | errorMessage | errorType =>
    simp only [Instruction.popsOf] at hsize
    have hone : 1 ≤ s.stack.size := by omega
    simp only [execute]
    exact effect_unary (fun _ _ _ _ => rfl) hone
  | not =>
    simp only [Instruction.popsOf] at hsize
    have hone : 1 ≤ s.stack.size := by omega
    simp only [execute]
    exact effect_unary (by simp) hone
  | pop =>
    simp only [Instruction.popsOf] at hsize
    obtain ⟨v, s₁, hpop, htaken⟩ := taken_pop (s := s) (by omega)
    simp only [execute, hpop, Option.map_some]
    exact htaken.effect_world (SameControl.refl s₁) rfl
  | indexSet =>
    simp only [Instruction.popsOf] at hsize
    exact effect_indexSet rfl (by omega)
  | throw =>
    simp only [Instruction.popsOf] at hsize
    exact effect_throw rfl (by omega)
  | print =>
    simp only [Instruction.popsOf] at hsize
    exact effect_print (by omega)
  | input => exact (taken_none s).effect_push ⟨rfl, rfl, rfl, rfl, rfl⟩ rfl
  | readFile =>
    simp only [Instruction.popsOf] at hsize
    exact effect_readFile rfl (by omega)
  | writeFile =>
    simp only [Instruction.popsOf] at hsize
    exact effect_writeFile rfl (by omega)

theorem effect_execute {p : Program} {limits : Limits} {f : Function} {s : State} {op : Opcode}
    {ins : Instruction} {depth : Nat} (hop : ins.op? = some op) (htransfers : op.transfers = false)
    (hsound : Verify.Sound p f op ins depth)
    (hsize : s.stack.size = s.frame.base + f.localCount + depth)
    (hglobals : s.world.globals.size = p.globals.size) :
    Effect p s s.frame.base ins.pops.toNat ins.pushes.toNat (op.checks = true)
      (execute p limits s op ins) := by
  have hrange := hsound.rangeA
  have hpops := hsound.pops
  by_cases hslot : op = .storeLocal
  · subst hslot
    simp only [Instruction.pops, Instruction.pushes, hop, Opcode.kindA, Verify.InRange,
      Instruction.popsOf] at hrange hpops ⊢
    have hnat := Verify.toNat_of_nonneg hrange.1
    exact effect_storeLocal (by omega)
  · exact (effect_below hop htransfers hslot hrange (by omega) hglobals).mono (by omega)

end Machine
end ScriptMachine
