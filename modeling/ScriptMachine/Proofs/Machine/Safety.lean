import ScriptMachine.Proofs.Machine.Progress

namespace ScriptMachine
namespace Machine
open Verify

/-- The guards and the waiting completions of the frame at a position, innermost first, are its
guarded and its cleanup scopes in order. Its operands start at `low`. -/
inductive Mirrors (φ : Assignment) (position low : Nat) :
    List Scope → List Guard → List Pending → Prop
  | nil : Mirrors φ position low [] [] []
  | guarded {table depth pendingSize : Nat} {phase : Phase} {outer : List Scope}
      {guards : List Guard} {waiting : List Pending} : Mirrors φ position low outer guards waiting →
      Mirrors φ position low (⟨table, .guarded, depth⟩ :: outer)
        (⟨table, position, low + depth, pendingSize, phase⟩ :: guards) waiting
  | cleanup {completion : Completion} {table depth : Nat} {outer : List Scope} {guards : List Guard}
      {waiting : List Pending} : Mirrors φ position low outer guards waiting →
      (∀ target, completion = .jump target → φ target = some ⟨depth, outer⟩) →
      Mirrors φ position low (⟨table, .cleanup, depth⟩ :: outer) guards
        (⟨position, completion⟩ :: waiting)

/-- A state in which the executing frame agrees with the flow state of its address and the next
instruction reaches nothing outside of the frame's operands, the tables and the code. -/
structure Safe (p : Program) (limits : Limits) (s : State) (f : Function) (state : FlowState)
    (op : Opcode) (ins : Instruction) : Prop where
  function : p.functions[s.frame.function]? = some f
  inside : f.contains s.frame.ip
  flow : p.flowState? s.frame.function s.frame.ip = some state
  size : s.stack.size = s.frame.base + f.localCount + state.depth
  room : s.stack.size ≤ limits.maxStack
  mirrors : Mirrors (p.flowState? s.frame.function) s.depth
    (s.frame.base + f.localCount) state.scopes (s.guards.filter (·.frame == s.depth))
    (s.waiting.filter (·.frame == s.depth))
  code : p.code[s.frame.ip]? = some ins
  decoded : ins.op? = some op
  pops : s.frame.base + f.localCount + ins.pops.toNat ≤ s.stack.size
  rangeA : InRange p f op.kindA ins.a.toInt
  rangeB : InRange p f op.kindB ins.b.toInt
  globals : s.world.globals.size = p.globals.size
  /-- An error that is raised finds the tables and the filters of all open constructs. -/
  tables : ∀ g ∈ s.guards, ∃ t, p.tries[g.table]? = some t ∧
    ∀ clause ∈ t.clauses, clause.filter ≠ noIndex → (filterText? p clause).isSome
  steps : (step p limits s).isSome
  kept : ∀ s', step p limits s = some (.next s') → s.depth ≤ s'.depth →
    Agree s.frame.base s.stack s'.stack
  /-- There is a try construct to leave. -/
  leaves : op = .popTry → ∃ g guards, s.guards = g :: guards ∧ g.frame = s.depth
  /-- There is a completion to go on with. -/
  resumes : op = .endFinally → ∃ pending, s.pending.back? = some pending ∧ pending.frame = s.depth

section

variable {loose : Prop} {p : Program} {limits : Limits} {maxStack : Nat} {s : State} {f : Function}
variable {state : FlowState} {scopes : List Scope} {guards : List Guard}
    {slots : List (Option Pending)}

theorem Tracks.mirrors {φ : Assignment} {position low below : Nat}
    (h : Tracks False φ position low below scopes guards slots) :
    Mirrors φ position low scopes guards (live slots) := by
  induction h with
  | nil => exact .nil
  | guarded _ ih => exact .guarded ih
  | @cleanup table depth outer guards slots completion _ hresume ih =>
    refine .cleanup ih ?_
    rintro target ⟨⟩
    exact hresume
  | @returning table depth dropped outer guards v _ _ hloose ih =>
    have hnil : dropped = [] := Decidable.byContradiction hloose
    subst hnil
    exact .cleanup ih (by simp)

theorem Framed.mirrors (h : Framed False p maxStack s.frames scopes s.guards slots)
    (hwaiting : s.waiting = live slots) (hf : p.functions[s.frame.function]? = some f) :
    Mirrors (p.flowState? s.frame.function) s.depth (s.frame.base + f.localCount) scopes
      (s.guards.filter (·.frame == s.depth)) (s.waiting.filter (·.frame == s.depth)) := by
  obtain ⟨f', own, guards, mine, slots', hown, rfl, hfocus⟩ := Framed.focus h
  cases hf.symm.trans hfocus.holds.function
  have hdepth : s.callers.toList.reverse.length = s.depth := length_callers s
  have htracks := hfocus.holds.tracks
  have hguards := hfocus.guards_lt
  have hslots := hfocus.slots_lt
  rw [hdepth] at htracks hguards hslots
  have hown' : (own ++ guards).filter (·.frame == s.depth) = own := by
    rw [List.filter_append, List.filter_eq_self.2, List.filter_eq_nil_iff.2, List.append_nil]
    · intro g hg
      simpa using Nat.ne_of_lt (hguards g hg)
    · intro g hg
      simpa using htracks.frame_eq.1 g hg
  have hmine : (live mine ++ live slots').filter (·.frame == s.depth) = live mine := by
    rw [List.filter_append, List.filter_eq_self.2, List.filter_eq_nil_iff.2, List.append_nil]
    · intro pending hpending
      simpa using Nat.ne_of_lt (hslots pending hpending)
    · intro pending hpending
      simpa using htracks.frame_eq.2 pending hpending
  rw [hown, hwaiting, live_append, hown', hmine]
  exact htracks.mirrors

theorem Framed.tables {frames : List Frame}
    (h : Framed loose p maxStack frames scopes guards slots) :
    ∀ g ∈ guards, ∃ t, p.tries[g.table]? = some t ∧
      ∀ clause ∈ t.clauses, clause.filter ≠ noIndex → (filterText? p clause).isSome := by
  induction guards generalizing frames scopes slots with
  | nil => simp
  | cons g outer ih =>
    obtain ⟨frame, rest, f, depth, scopes', slots', -, -, -, -, -, -, htyped, hframed, -⟩ :=
      h.at_guard
    obtain ⟨t, ht, hclauses, -⟩ := htyped.1
    exact List.forall_mem_cons.2
      ⟨⟨t, ht, fun clause hclause => (hclauses clause hclause).filter⟩, ih hframed⟩

theorem Standing.safe (hp : Verified p) (hreturn : ReturnsDischarge False p)
    (h : Standing False p limits.maxStack s f state slots) :
    ∃ op ins, Safe p limits s f state op ins := by
  obtain ⟨op, ins, hins⟩ := poised_of_flow hp h.function h.flow
  have hsize := h.size
  have hpops := hins.sound.pops
  have hlands := h.lands_step hp hreturn
  obtain ⟨f', own, guards, mine, slots', -, -, hfocus⟩ := Framed.focus h.framed
  cases h.function.symm.trans hfocus.holds.function
  have hroom := hfocus.holds.room
  have hdepth := hp.depth h.function h.flow
  refine ⟨op, ins, h.function, hins.inside, h.flow, hsize, by omega,
    h.framed.mirrors h.waiting h.function, hins.code, hins.decoded, by omega, hins.sound.rangeA,
    hins.sound.rangeB, h.globals, h.framed.tables, ?_, ?_, ?_, ?_⟩
  · generalize step p limits s = result at hlands
    cases hlands <;> rfl
  · intro s' hstep hle
    rw [hstep] at hlands
    cases hlands with
    | next _ _ _ _ hagree => exact hagree hle
  · rintro rfl
    obtain ⟨table, outer, hscopes, -⟩ := hins.popTry
    obtain ⟨g, guards, hguards, hg, -⟩ := h.innermost_guard hscopes
    exact ⟨g, guards, hguards, hg⟩
  · rintro rfl
    obtain ⟨table, outer, hscopes⟩ := hins.endFinally
    obtain ⟨pending, -, -, -, -, -, hback, hframe, -⟩ := h.innermost_slot hscopes
    exact ⟨pending, hback, hframe⟩

theorem standing_of_start {index : Nat} {w : World} (limits : Limits) (args : List Value)
    (hp : Verified p) (hf : p.functions[index]? = some f)
    (hglobals : w.globals.size = p.globals.size) :
    (∃ finished, start p limits w f index args = some (.done finished)) ∨
      ∃ s, start p limits w f index args = some (.next s) ∧ s.guards = [] ∧ s.callers = #[] ∧
        Standing loose p limits.maxStack s f ⟨0, []⟩ [] := by
  unfold start
  cases hrefusal : refusal? limits f 0 0 args.length with
  | some e => exact .inl ⟨_, rfl⟩
  | none =>
    obtain ⟨hroom, hargc⟩ := room_of_refusal? hrefusal
    obtain ⟨stack, hstack, hsize, -⟩ := frameStack?_of_laid (hp.laid hf) hargc
      (Nat.zero_le args.toArray.size)
    obtain ⟨owned, htyping⟩ := hp.typing hf
    simp only [hstack]
    refine .inr ⟨_, rfl, rfl, rfl, hf, htyping.entry, hsize, ?_, rfl, hglobals⟩
    exact .entry rfl ⟨hf, hroom, trivial, .nil⟩

/-- The run lemma: an execution from a state that stands does not get stuck, and comes only to
states that stand. -/
theorem Standing.run (hp : Verified p) (hreturn : ReturnsDischarge loose p)
    (h : Standing loose p limits.maxStack s f state slots) (n : Nat) :
    run p limits n s ≠ .stuck ∧ ∀ s', run p limits n s = .unfinished s' →
      ∃ f' state' slots', Standing loose p limits.maxStack s' f' state' slots' := by
  induction n generalizing s f state slots with
  | zero =>
    refine ⟨by simp [Machine.run], ?_⟩
    rintro s' ⟨⟩
    exact ⟨f, state, slots, h⟩
  | succ n ih =>
    have hlands := h.lands_step hp hreturn
    unfold Machine.run
    generalize step p limits s = result at hlands
    cases hlands with
    | done => simp
    | next slots' hstanding _ _ _ => exact ih hstanding

end

/-- No return instruction that control comes to stands inside a finally block. -/
def ReturnsOutsideCleanup (p : Program) : Prop :=
  ∀ index < p.functions.size, ∀ pc < p.code.size,
    (p.code[pc]?).bind Instruction.op? = some .ret →
    ∀ state ∈ p.flowState? index pc, ∀ scope ∈ state.scopes, scope.kind = .guarded

instance (p : Program) : Decidable (ReturnsOutsideCleanup p) :=
  inferInstanceAs (Decidable (∀ index < p.functions.size, ∀ pc < p.code.size,
    (p.code[pc]?).bind Instruction.op? = some .ret →
    ∀ state ∈ p.flowState? index pc, ∀ scope ∈ state.scopes, scope.kind = .guarded))

theorem lt_of_flowState? {p : Program} {index pc : Nat} {state : FlowState}
    (h : p.flowState? index pc = some state) : index < p.functions.size := by
  obtain ⟨f, hf, -⟩ := Option.bind_eq_some_iff.1 h
  exact (Array.getElem?_eq_some_iff.1 hf).1

theorem ReturnsOutsideCleanup.discharge {loose : Prop} {p : Program} (h : ReturnsOutsideCleanup p) :
    ReturnsDischarge loose p := by
  intro index pc ins state hcode hop hflow
  have hpc := (Array.getElem?_eq_some_iff.1 hcode).1
  have hguarded := h index (lt_of_flowState? hflow) pc hpc (by simp [hcode, hop]) state hflow
  refine discharges_of_guarded (List.countP_eq_zero.2 fun scope hscope => ?_)
  simp [hguarded scope hscope]

/-- Every execution of a verified program whose returns stand outside of finally blocks is safe,
whatever function it starts with, on whatever arguments and world, however long it runs. -/
theorem invoke_safe {p q : Program} (hverify : p.verify = .ok q) (hreturn : ReturnsOutsideCleanup q)
    (m : Machine) (hprogram : m.program = q) (hglobals : m.world.globals.size = q.globals.size)
    (index : Nat) (hindex : index < q.functions.size) (args : List Value) (n : Nat) :
    ∃ r, m.invoke n index args = .ok r ∧ r ≠ .stuck ∧
      ∀ s, r = .unfinished s → ∃ f state op ins, Safe q m.limits s f state op ins := by
  have hp := verified_of_verify hverify
  have hdischarge : ReturnsDischarge False q := hreturn.discharge
  subst hprogram
  have hf : m.program.functions[index]? = some m.program.functions[index] :=
    Array.getElem?_eq_getElem hindex
  simp only [invoke, hf]
  rcases standing_of_start (w := { m.world with output := #[] }) m.limits args hp hf hglobals with
    ⟨finished, hstart⟩ | ⟨s, hstart, -, -, hstanding⟩
  · rw [hstart]
    exact ⟨_, rfl, by simp, by simp⟩
  · rw [hstart]
    obtain ⟨hstuck, hreach⟩ := hstanding.run hp hdischarge n
    refine ⟨_, rfl, hstuck, fun s' hs' => ?_⟩
    obtain ⟨f', state', slots', hstanding'⟩ := hreach s' hs'
    obtain ⟨op, ins, hsafe⟩ := hstanding'.safe hp hdischarge
    exact ⟨f', state', op, ins, hsafe⟩

theorem eq_ok_of_toOption {x : Except ε α} {a : α} (h : x.toOption = some a) : x = .ok a := by
  cases x with
  | error e => cases h
  | ok b => simpa [Except.toOption] using h

/-- An error that goes through a handler and a finally block to the end of the program. -/
def guardedThrow : Program where
  constants := #[.nil]
  functions := #[⟨mainName, 0, 8, 0, 0, [], 1⟩]
  tries := #[⟨[⟨noIndex, 3⟩], 5⟩]
  code := #[.of .pushTry, .of .loadConst, .of .throw, .of .pop, .of .popTry 6, .of .endFinally,
    .of .loadConst, .of .ret]

/-- In the middle of its finally block the program is safe. -/
theorem invoke_safe_guardedThrow : guardedThrow.verify = .ok guardedThrow ∧
    ReturnsOutsideCleanup guardedThrow ∧
    ∃ r, (create guardedThrow {} [] {}).invoke 5 0 [] = .ok r ∧ r ≠ .stuck ∧
      ∀ s, r = .unfinished s → ∃ f state op ins, Safe guardedThrow {} s f state op ins := by
  have hverify : guardedThrow.verify = .ok guardedThrow := eq_ok_of_toOption (by decide +kernel)
  have hreturn : ReturnsOutsideCleanup guardedThrow := by decide +kernel
  exact ⟨hverify, hreturn,
    invoke_safe hverify hreturn (create guardedThrow {} [] {}) rfl rfl 0 (by decide) [] 5⟩

end Machine
end ScriptMachine
