import ScriptMachine.Proofs.Machine.Blindness

namespace ScriptMachine

namespace Stats

section counting

variable (x : Stats) (op : Opcode)

def Full : Prop := x.counts.size = Opcode.all.size

theorem full_countInstruction {x : Stats} (h : x.Full) (stackSize : Nat) :
    (x.countInstruction op stackSize).Full := by
  simpa [Full, countInstruction] using h

theorem ctorIdx_lt : op.ctorIdx < Opcode.all.size := by
  cases op <;> decide

theorem sum_modify {counts : List Nat} {i : Nat} (h : i < counts.length) :
    (counts.modify i (· + 1)).sum = counts.sum + 1 := by
  induction counts generalizing i with
  | nil => cases h
  | cons count rest ih =>
    cases i with
    | zero => simp [Nat.add_right_comm]
    | succ i =>
      have hrest := ih (Nat.lt_of_succ_lt_succ h)
      simp [hrest, Nat.add_assoc]

theorem sum_countInstruction {x : Stats} (h : x.Full) (stackSize : Nat) :
    (x.countInstruction op stackSize).counts.toList.sum = x.counts.toList.sum + 1 := by
  rw [countInstruction, Array.toList_modify]
  apply sum_modify
  rw [Array.length_toList, h]
  exact ctorIdx_lt op

theorem count_countInstruction {x : Stats} (h : x.Full) (stackSize : Nat) (op' : Opcode) :
    (x.countInstruction op stackSize).count op' = x.count op' + if op = op' then 1 else 0 := by
  have hsame : op.ctorIdx = op'.ctorIdx ↔ op = op' := by
    constructor
    · intro hidx
      rw [← Opcode.ofNat_ctorIdx op, hidx, Opcode.ofNat_ctorIdx]
    · exact congrArg _
  have hlt : op'.ctorIdx < x.counts.size := h ▸ ctorIdx_lt op'
  simp only [count, countInstruction, Array.getD_eq_getD_getElem?, Array.getElem?_modify, hsame]
  split
  · simp [hlt]
  · simp

end counting

end Stats

namespace Machine

/-- The largest value of a measure over some states, 0 if there are none. -/
def peak (measure : State → Nat) (ss : List State) : Nat := (ss.map measure).foldr max 0

/-- The number of frames that an execution through some states has made: one to begin with, and one
with every step that goes deeper. -/
def framesMade : List State → Nat
  | [] => 0
  | [_] => 1
  | s :: s' :: rest => framesMade (s' :: rest) + if s.depth < s'.depth then 1 else 0

/-- The counters are those of an execution, within a limit for its frames, that has executed an
instruction in each of some states. -/
structure Tallies (p : Program) (limit : Nat) (ss : List State) (x : Stats) : Prop where
  instructions : x.instructions = ss.length
  sum : x.counts.toList.sum = ss.length
  count (op : Opcode) : x.count op = ss.countP fun s => s.op? p = some op
  calls : x.calls = framesMade ss
  maxStack : x.maxStack = peak (·.stack.size) ss
  maxFrames : x.maxFrames = peak (·.frames.length) ss
  within : x.maxFrames ≤ limit

/-- Counters with what an execution through some states adds to them, when they have counted the
frames of the first. -/
structure Adds (p : Program) (x : Stats) (ss : List State) (y : Stats) : Prop where
  instructions : y.instructions = x.instructions + ss.length
  sum : y.counts.toList.sum = x.counts.toList.sum + ss.length
  count (op : Opcode) : y.count op = x.count op + ss.countP fun s => s.op? p = some op
  calls : y.calls + 1 = x.calls + framesMade ss
  maxStack : y.maxStack = max x.maxStack (peak (·.stack.size) ss)
  maxFrames : y.maxFrames = max x.maxFrames (peak (·.frames.length) ss)

section adds

variable {p : Program} {s s' : State} {x : Stats} {op : Opcode}

theorem called_next (s s' : State) (x : Stats) : Progress.called s x (.next s') =
    { x with
      calls := x.calls + if s.depth < s'.depth then 1 else 0
      maxFrames :=
        if s.depth < s'.depth then max x.maxFrames (s'.depth + 1) else x.maxFrames } := by
  by_cases hlt : s.depth < s'.depth
  · simp [Progress.called, Stats.countCall, hlt]
  · simp [Progress.called, hlt]

theorem Adds.last (hfull : x.Full) (hop : s.op? p = some op) (hframes : s.depth + 1 ≤ x.maxFrames) :
    Adds p x [s] (x.countInstruction op s.stack.size) where
  instructions := rfl
  sum := Stats.sum_countInstruction op hfull _
  count op' := by simp [Stats.count_countInstruction op hfull, hop, List.countP_cons]
  calls := rfl
  maxStack := by simp [Stats.countInstruction, peak]
  maxFrames := by simp [Stats.countInstruction, peak, length_frames, hframes]

theorem Adds.cons {rest : List State} {y : Stats} (hfull : x.Full) (hop : s.op? p = some op)
    (hframes : s.depth + 1 ≤ x.maxFrames)
    (h : Adds p (Progress.called s (x.countInstruction op s.stack.size) (.next s'))
      (s' :: rest) y) :
    Adds p x (s :: s' :: rest) y := by
  have hsum' := Stats.sum_countInstruction op hfull s.stack.size
  have hcount' := Stats.count_countInstruction op hfull s.stack.size
  obtain ⟨hinstructions, hsum, hcount, hcalls, hmaxStack, hmaxFrames⟩ := h
  rw [called_next] at hinstructions hsum hcount hcalls hmaxStack hmaxFrames
  refine ⟨?_, ?_, ?_, ?_, ?_, ?_⟩
  · simp only [hinstructions, Stats.countInstruction, List.length_cons]
    omega
  · simp only [hsum, hsum', List.length_cons]
    omega
  · intro op'
    have hrest : y.count op' = (x.countInstruction op s.stack.size).count op' + _ := hcount op'
    rw [hrest, hcount', List.countP_cons (a := s), hop]
    simp only [Option.some.injEq, decide_eq_true_eq]
    omega
  · simp only [hcalls, Stats.countInstruction, framesMade]
    omega
  · simp only [hmaxStack, Stats.countInstruction, peak, List.map_cons, List.foldr_cons]
    omega
  · simp only [hmaxFrames, Stats.countInstruction, peak, List.map_cons, List.foldr_cons,
      length_frames]
    split
    · omega
    · omega

end adds

section runs

variable {p : Program} {limits : Limits}

/-- The states whose instructions an execution of at most the given length executes. -/
def trail (p : Program) (limits : Limits) : Nat → State → List State
  | 0, _ => []
  | n + 1, s => s :: match step p limits s with
    | some (.next s') => trail p limits n s'
    | _ => []

/-- The run lemma: at the end, the states of the execution have been added to the counters. -/
theorem run_stats {n : Nat} {s : State} {x : Stats} {f : Finished} (hstats : s.stats = some x)
    (hfull : x.Full) (hframes : s.depth + 1 ≤ x.maxFrames) (hrun : run p limits n s = .finished f) :
    ∃ y, f.stats = some y ∧ Adds p x (trail p limits n s) y := by
  induction n generalizing s x with
  | zero => cases hrun
  | succ n ih =>
    unfold run at hrun
    unfold trail
    cases hstep : step p limits s with
    | none => simp [hstep] at hrun
    | some r =>
      obtain ⟨op, hop⟩ := op?_of_step hstep
      have hr := step_stats hop hstep
      rw [hstats] at hr
      cases r with
      | done f' =>
        simp only [hstep, Run.finished.injEq] at hrun
        subst hrun
        exact ⟨_, hr, Adds.last hfull hop hframes⟩
      | next s' =>
        simp only [hstep] at hrun
        have hfull' : (Progress.called s (x.countInstruction op s.stack.size) (.next s')).Full := by
          rw [called_next]
          exact Stats.full_countInstruction op hfull s.stack.size
        have hframes' : s'.depth + 1 ≤
            (Progress.called s (x.countInstruction op s.stack.size) (.next s')).maxFrames := by
          rw [called_next]
          simp only [Stats.countInstruction]
          split
          · omega
          · omega
        obtain ⟨y, hy, hadds⟩ := ih hr hfull' hframes' hrun
        refine ⟨y, hy, ?_⟩
        cases n with
        | zero => cases hrun
        | succ n => exact Adds.cons hfull hop hframes hadds

theorem getElem?_trail {n : Nat} {s : State} {f : Finished} (hrun : run p limits n s = .finished f)
    (i : Nat) (t : State) :
    (trail p limits n s)[i]? = some t ↔ run p limits i s = .unfinished t := by
  induction n generalizing s i with
  | zero => cases hrun
  | succ n ih =>
    unfold run at hrun
    unfold trail
    cases i with
    | zero => simp [run]
    | succ i =>
      rw [List.getElem?_cons_succ, run]
      cases hstep : step p limits s with
      | none => simp
      | some r =>
        cases r with
        | done f' => simp
        | next s' =>
          simp only [hstep] at hrun
          exact ih hrun i

def Run.untallied : Run → Run
  | .finished f => .finished (f.tallied none)
  | .stuck => .stuck
  | .unfinished s => .unfinished (s.tallied none)

theorem run_untallied (n : Nat) (s : State) :
    run p limits n (s.tallied none) = (run p limits n s).untallied := by
  induction n generalizing s with
  | zero => rfl
  | succ n ih =>
    simp only [run, step_untallied]
    cases step p limits s with
    | none => rfl
    | some r =>
      cases r with
      | done f => rfl
      | next s' => exact ih s'

theorem run_collectStats (on : Bool) (n : Nat) (s : State) :
    run p { limits with collectStats := on } n s = run p limits n s := by
  have hstep (s : State) : step p { limits with collectStats := on } s = step p limits s := rfl
  induction n generalizing s with
  | zero => rfl
  | succ n ih => simp only [run, hstep, ih]

end runs

def collecting (m : Machine) (on : Bool) : Machine :=
  { m with limits := { m.limits with collectStats := on } }

theorem start_collecting (p : Program) (limits : Limits) (w : World) (f : Function) (index : Nat)
    (args : List Value) :
    start p { limits with collectStats := false } w f index args =
      (start p { limits with collectStats := true } w f index args).map
      (Progress.tallied none) := by
  unfold start
  rw [show refusal? { limits with collectStats := false } = refusal? limits from rfl,
    show refusal? { limits with collectStats := true } = refusal? limits from rfl]
  cases refusal? limits f 0 0 args.length with
  | some e => rfl
  | none =>
    cases frameStack? p f 0 args.length args.toArray with
    | none => rfl
    | some stack => rfl

theorem invoke_collecting (m : Machine) (n index : Nat) (args : List Value) :
    (m.collecting false).invoke n index args =
      ((m.collecting true).invoke n index args).map Run.untallied := by
  simp only [invoke, collecting, start_collecting]
  cases m.program.functions[index]? with
  | none => rfl
  | some f =>
    dsimp only
    cases start m.program { m.limits with collectStats := true }
      { m.world with output := #[] } f index
        args with
    | none => rfl
    | some r =>
      cases r with
      | done f => rfl
      | next s =>
        simp only [Option.map_some, Progress.tallied, run_collectStats, run_untallied]
        rfl

theorem peak_le {measure : State → Nat} {ss : List State} {bound : Nat}
    (h : ∀ s ∈ ss, measure s ≤ bound) : peak measure ss ≤ bound := by
  induction ss with
  | nil => exact Nat.zero_le _
  | cons s rest ih =>
    have hrest := ih fun s hs => h s (List.mem_cons_of_mem _ hs)
    exact Nat.max_le.2 ⟨h s List.mem_cons_self, hrest⟩

theorem full_new : ({} : Stats).Full := Array.size_replicate

theorem tallies_nil (p : Program) (limit : Nat) : Tallies p limit [] {} where
  instructions := rfl
  sum := by simp
  count op := by simp [Stats.count, Stats.ctorIdx_lt]
  calls := rfl
  maxStack := rfl
  maxFrames := rfl
  within := Nat.zero_le _

theorem Adds.tallies {p : Program} {limit : Nat} {s : State} {rest : List State} {x : Stats}
    (h : Adds p (({} : Stats).countCall 1) (s :: rest) x)
    (hdepth : ∀ t ∈ s :: rest, t.depth < limit) : Tallies p limit (s :: rest) x := by
  obtain ⟨hinstructions, hsum, hcount, hcalls, hmaxStack, hmaxFrames⟩ := h
  have hnew := tallies_nil p limit
  have hpeak : x.maxFrames = peak (·.frames.length) (s :: rest) := by
    rw [hmaxFrames]
    simp only [Stats.countCall, peak, List.map_cons, List.foldr_cons, length_frames]
    omega
  refine ⟨?_, ?_, ?_, ?_, ?_, hpeak, ?_⟩
  · exact hinstructions.trans (Nat.zero_add _)
  · rw [hsum]
    exact congrArg (· + _) hnew.sum |>.trans (Nat.zero_add _)
  · intro op
    rw [hcount op]
    exact congrArg (· + _) (hnew.count op) |>.trans (Nat.zero_add _)
  · simp only [Stats.countCall] at hcalls
    omega
  · exact hmaxStack.trans (Nat.zero_max _)
  · rw [hpeak]
    apply peak_le
    intro t ht
    rw [length_frames]
    exact hdepth t ht

theorem start_stats {p : Program} {limits : Limits} {w : World} {f : Function} (index : Nat)
    (args : List Value) (hon : limits.collectStats = true) :
    (∀ f', start p limits w f index args = some (.done f') → f'.stats = some {}) ∧
      ∀ s, start p limits w f index args = some (.next s) →
        s.stats = some (({} : Stats).countCall 1) ∧ s.depth = 0 := by
  unfold start
  simp only [hon, if_true]
  cases refusal? limits f 0 0 args.length with
  | some e => simp
  | none =>
    cases frameStack? p f 0 args.length args.toArray with
    | none => simp
    | some stack => simp [State.depth]

theorem invoke_tallies (m : Machine) (hon : m.limits.collectStats = true) {n index : Nat}
    {args : List Value} {f : Finished} (h : m.invoke n index args = .ok (.finished f)) :
    ∃ x ss, f.stats = some x ∧
      (∀ i s, ss[i]? = some s ↔ m.invoke i index args = .ok (.unfinished s)) ∧
      Tallies m.program m.limits.maxFrames ss x := by
  have htrajectory := trajectory_of_invoke m index args
  unfold invoke at h htrajectory ⊢
  cases hfunction : m.program.functions[index]? with
  | none => simp [hfunction] at h
  | some function =>
    simp only [hfunction] at h htrajectory ⊢
    obtain ⟨hrefused, hstarted⟩ :=
      start_stats (p := m.program) (w := { m.world with output := #[] })
        (f := function) index args hon
    cases hstart : start m.program m.limits { m.world with output := #[] } function index args with
    | none => simp [hstart] at h
    | some r =>
      simp only [hstart] at h htrajectory ⊢
      cases r with
      | done f' =>
        simp only [Except.ok.injEq, Run.finished.injEq] at h
        subst h
        exact ⟨{}, [], hrefused f' hstart, by simp, tallies_nil _ _⟩
      | next s =>
        simp only [Except.ok.injEq] at h htrajectory ⊢
        obtain ⟨hstats, hdepth⟩ := hstarted s hstart
        obtain ⟨x, hx, hadds⟩ := run_stats hstats full_new (by rw [hdepth]; exact Nat.le_refl 1) h
        have hget := getElem?_trail h
        refine ⟨x, _, hx, hget, ?_⟩
        cases n with
        | zero => cases h
        | succ n =>
          apply Adds.tallies hadds
          intro t ht
          obtain ⟨i, hi⟩ := List.mem_iff_getElem?.1 ht
          exact (htrajectory.nested ((hget i t).1 hi)).depth_lt

/-- Counters only observe. Collecting them changes nothing else in what an execution comes to, be it
at its end or after some instructions; and of a finished execution, they are those of the states in
which it executed an instruction. -/
theorem invoke_observed (m : Machine) (index : Nat) (args : List Value) :
    (∀ n, (m.collecting false).invoke n index args =
      ((m.collecting true).invoke n index args).map Run.untallied) ∧
    ∀ n f, (m.collecting true).invoke n index args = .ok (.finished f) →
      ∃ x ss, f.stats = some x ∧
        (∀ i s, ss[i]? = some s ↔ (m.collecting true).invoke i index args = .ok (.unfinished s)) ∧
        Tallies m.program m.limits.maxFrames ss x := by
  refine ⟨fun n => invoke_collecting m n index args, ?_⟩
  intro n f hf
  obtain ⟨x, ss, hx, hss, htallies⟩ := invoke_tallies (m.collecting true) rfl hf
  exact ⟨x, ss, hx, hss, htallies⟩

def Run.finished? : Run → Option Finished
  | .finished f => some f
  | _ => none

theorem Run.eq_finished {r : Run} {f : Finished} (h : r.finished? = some f) : r = .finished f := by
  cases r with
  | finished f' => exact congrArg Run.finished (Option.some.inj h)
  | stuck => cases h
  | unfinished s => cases h

/-- A function that calls itself, until the error comes to the handler of the main program. -/
def endless : Program where
  constants := #[.nil]
  functions := #[⟨mainName, 0, 8, 0, 0, [], 1⟩, ⟨[0x66], 8, 10, 0, 0, [], 1⟩]
  tries := #[⟨[⟨noIndex, 4⟩], noIndex⟩]
  code := #[.of .pushTry, .of .call 1, .of .pop, .of .popTry 6, .of .pop, .of .popTry 6,
    .of .loadConst, .of .ret, .of .call 1, .of .ret]

def endlessMachine : Machine := create endless { maxFrames := 4 } [] {}

/-- The call that is refused is an instruction and no frame. -/
theorem invoke_observed_endless : endless.verify = .ok endless ∧
    ∃ f x ss, (endlessMachine.collecting true).invoke 20 0 [] = .ok (.finished f) ∧
      (endlessMachine.collecting false).invoke 20 0 [] = .ok (.finished (f.tallied none)) ∧
      f.stats = some x ∧ Tallies endless 4 ss x ∧
      x.instructions = 9 ∧ x.count .call = 4 ∧ x.calls = 4 ∧ x.maxFrames = 4 := by
  have hverify : endless.verify = .ok endless := eq_ok_of_toOption (by decide +kernel)
  have hrun : ∃ f ∈ ((endlessMachine.collecting true).invoke 20 0 []).toOption.bind Run.finished?,
      ∃ x ∈ f.stats, x.instructions = 9 ∧ x.count .call = 4 ∧ x.calls = 4 ∧ x.maxFrames = 4 := by
    decide +kernel
  obtain ⟨f, hf, x, hx, hcounts⟩ := hrun
  obtain ⟨r, hr, hfinished⟩ := Option.bind_eq_some_iff.1 hf
  have hinvoke : (endlessMachine.collecting true).invoke 20 0 [] = .ok (.finished f) := by
    rw [eq_ok_of_toOption hr, Run.eq_finished hfinished]
  obtain ⟨hsame, htallies⟩ := invoke_observed endlessMachine 0 []
  obtain ⟨x', ss, hx', -, htallies⟩ := htallies 20 f hinvoke
  cases hx.symm.trans hx'
  refine ⟨hverify, f, x, ss, hinvoke, ?_, hx, htallies, hcounts⟩
  rw [hsame, hinvoke]
  rfl

end Machine
end ScriptMachine
