import ScriptMachine.Proofs.Machine.Traces

namespace ScriptMachine
namespace Machine

/-- A state with other counters. -/
def State.tallied (stats : Option Stats) (s : State) : State := { s with stats }

def Finished.tallied (stats : Option Stats) (f : Finished) : Finished := { f with stats }

def Progress.tallied (stats : Option Stats) : Progress → Progress
  | .next s => .next (s.tallied stats)
  | .done f => .done (f.tallied stats)

/-- An action does not depend on the counters and leaves them alone. -/
def Blind (act : State → Option Progress) : Prop :=
  ∀ stats s, act (s.tallied stats) = (act s).map (Progress.tallied stats)

section state

variable (stats : Option Stats) (s : State)

@[simp] theorem stack_tallied : (s.tallied stats).stack = s.stack := rfl

@[simp] theorem frame_tallied : (s.tallied stats).frame = s.frame := rfl

@[simp] theorem callers_tallied : (s.tallied stats).callers = s.callers := rfl

@[simp] theorem depth_tallied : (s.tallied stats).depth = s.depth := rfl

@[simp] theorem guards_tallied : (s.tallied stats).guards = s.guards := rfl

@[simp] theorem pending_tallied : (s.tallied stats).pending = s.pending := rfl

@[simp] theorem world_tallied : (s.tallied stats).world = s.world := rfl

theorem pop?_tallied :
    (s.tallied stats).pop? = s.pop?.map fun popped => (popped.1, popped.2.tallied stats) := by
  unfold State.pop?
  rw [stack_tallied]
  cases s.stack.back? with
  | none => rfl
  | some v => rfl

theorem backTo?_tallied (position : Nat) :
    (s.tallied stats).backTo? position = (s.backTo? position).map (State.tallied stats) := by
  unfold State.backTo?
  rw [callers_tallied]
  split
  · rfl
  · cases s.callers[position]? with
    | none => rfl
    | some frame => rfl

theorem rewind?_tallied (g : Guard) :
    rewind? (s.tallied stats) g = (rewind? s g).map (State.tallied stats) := by
  unfold rewind?
  rw [backTo?_tallied]
  cases s.backTo? g.frame with
  | none => rfl
  | some s => rfl

theorem leaveFrame_tallied (v : Value) :
    leaveFrame (s.tallied stats) v = (leaveFrame s v).tallied stats := by
  unfold leaveFrame
  rw [callers_tallied]
  cases s.callers.back? with
  | none => rfl
  | some frame => rfl

end state

section transfers

variable (p : Program)

theorem blind_unwind (e : ScriptError) (guards : List Guard) : Blind (unwind p e · guards) := by
  intro stats s
  induction guards generalizing s with
  | nil => rfl
  | cons g outer ih =>
    simp only [unwind, rewind?_tallied]
    cases p.tries[g.table]? with
    | none => rfl
    | some t =>
      cases rewind? s g with
      | none => rfl
      | some s₁ =>
        simp only [Option.bind_eq_bind, Option.bind_some, Option.map_some]
        split
        · rfl
        · rfl
        · exact ih s₁

theorem blind_raise (e : ScriptError) : Blind (raise p · e) :=
  fun stats s => blind_unwind p (traced p s e) s.guards stats s

theorem blind_returnThrough (v : Value) (guards : List Guard) :
    Blind (returnThrough p v · guards) := by
  intro stats s
  induction guards with
  | nil => exact congrArg some (leaveFrame_tallied stats { s with guards := [] } v)
  | cons g outer ih =>
    dsimp only at ih ⊢
    unfold returnThrough
    rw [depth_tallied]
    split
    · exact congrArg some (leaveFrame_tallied stats { s with guards := g :: outer } v)
    · cases p.tries[g.table]? with
      | none => rfl
      | some t =>
        dsimp only
        cases t.cleanup? with
        | none => exact ih
        | some address => rfl

theorem blind_completeReturn (v : Value) : Blind (completeReturn p · v) := fun stats s =>
  blind_returnThrough p v s.guards stats
    { s with pending := s.pending.popWhile fun pending => pending.frame == s.depth }

end transfers

section operations

variable (p : Program)

theorem blind_pop? {k : Value × State → Option Progress} (h : ∀ v, Blind fun s => k (v, s)) :
    Blind fun s => s.pop? >>= k := by
  intro stats s
  simp only [pop?_tallied]
  cases s.pop? with
  | none => rfl
  | some popped => exact h popped.1 stats popped.2

theorem blind_pop2? {k : Value × Value × State → Option Progress}
    (h : ∀ l r, Blind fun s => k (l, r, s)) : Blind fun s => pop2? s >>= k := by
  intro stats s
  simp only [pop2?, pop?_tallied]
  cases s.pop? with
  | none => rfl
  | some first =>
    simp only [Option.map_some, Option.bind_eq_bind, Option.bind_some, pop?_tallied]
    cases first.2.pop? with
    | none => rfl
    | some second => exact h second.1 first.1 stats second.2

theorem blind_settle (r : Except ScriptError Value) : Blind (settle p · r) := by
  cases r with
  | ok v => exact fun _ _ => rfl
  | error e => exact blind_raise p e

theorem blind_unary (f : Heap → Value → Except ScriptError Value) : Blind (unary p · f) :=
  blind_pop? fun v stats s => blind_settle p (f s.world.heap v) stats s

theorem blind_binary (f : Heap → Value → Value → Except ScriptError Value) : Blind (binary p · f) :=
  blind_pop2? fun l r stats s => blind_settle p (f s.world.heap l r) stats s

theorem blind_loadGlobal (index : Nat) : Blind (loadGlobal p · index) := by
  intro stats s
  simp only [loadGlobal, world_tallied]
  cases s.world.globals[index]? with
  | none => rfl
  | some value? =>
    cases value? with
    | some v => rfl
    | none =>
      cases p.globals[index]? with
      | none => rfl
      | some name => exact blind_raise p _ stats s

theorem blind_storeGlobal (index : Nat) : Blind (storeGlobal · index) := by
  apply blind_pop?
  intro v stats s
  dsimp only
  rw [world_tallied]
  split
  · rfl
  · rfl

theorem blind_storeLocal (slot : Nat) : Blind (storeLocal · slot) := by
  apply blind_pop?
  intro v stats s
  dsimp only
  rw [frame_tallied, stack_tallied]
  split
  · rfl
  · rfl

theorem blind_add : Blind (add p) := by
  apply blind_pop2?
  intro l r stats s
  dsimp only
  rw [world_tallied]
  cases s.world.heap.add l r with
  | ok result => rfl
  | error e => exact blind_raise p e stats s

theorem blind_makeList (count : Nat) : Blind (makeList · count) := by
  intro stats s
  dsimp only [makeList]
  rw [stack_tallied]
  split
  · rfl
  · rfl

theorem blind_makeDict (count : Nat) : Blind (makeDict p · count) := by
  intro stats s
  dsimp only [makeDict]
  rw [stack_tallied]
  split
  · cases pairUp (s.stack.extract (s.stack.size - count * 2) s.stack.size).toList with
    | ok pairs => rfl
    | error e =>
      exact blind_raise p e stats { s with stack := s.stack.shrink (s.stack.size - count * 2) }
  · rfl

theorem blind_indexSet : Blind (indexSet p) := by
  apply blind_pop?
  intro v
  apply blind_pop2?
  intro collection index stats s
  dsimp only
  rw [world_tallied]
  cases s.world.heap.indexSet collection index v with
  | ok heap => rfl
  | error e => exact blind_raise p e stats s

theorem blind_popTry (target : Nat) : Blind (popTry p · target) := by
  intro stats s
  have hrefused :=
    blind_raise p (.make .runtime "Internal error: no active try block to leave") stats s
  dsimp only [popTry]
  rw [guards_tallied, depth_tallied]
  cases s.guards with
  | nil => exact hrefused
  | cons g outer =>
    dsimp only
    split
    · exact hrefused
    · cases p.tries[g.table]? with
      | none => rfl
      | some t =>
        dsimp only
        cases t.cleanup? with
        | none => rfl
        | some address => rfl

theorem blind_endFinally : Blind (endFinally p) := by
  intro stats s
  have hrefused :=
    blind_raise p (.make .runtime "Internal error: finally block has nothing to resume") stats s
  dsimp only [endFinally]
  rw [pending_tallied, depth_tallied]
  cases s.pending.back? with
  | none => exact hrefused
  | some pending =>
    dsimp only
    split
    · exact hrefused
    · cases pending.completion with
      | jump target => rfl
      | rethrow e => exact blind_raise p e stats { s with pending := s.pending.pop }
      | result v => exact blind_completeReturn p v stats { s with pending := s.pending.pop }

theorem blind_throw : Blind (throw p) := by
  apply blind_pop?
  intro v stats s
  cases v with
  | error r => exact blind_raise p _ stats s
  | _ => exact blind_raise p _ stats s

theorem blind_makeError (index : Nat) : Blind (makeError p · index) := by
  intro stats s
  dsimp only [makeError]
  cases p.constants[index]? with
  | none => rfl
  | some c =>
    simp only [Option.bind_eq_bind, Option.bind_some]
    exact blind_pop? (fun v => fun stats s => rfl) stats s

theorem blind_print : Blind print := blind_pop? fun _ _ _ => rfl

theorem blind_readFile : Blind (readFile p) := by
  apply blind_pop?
  intro path stats s
  cases path with
  | string path =>
    dsimp only
    rw [world_tallied]
    cases s.world.files.read? path with
    | some content => rfl
    | none => exact blind_raise p _ stats s
  | _ => exact blind_raise p _ stats s

theorem blind_writeFile : Blind (writeFile p) := by
  apply blind_pop2?
  intro content path stats s
  cases path with
  | string path =>
    dsimp only
    rw [world_tallied]
    cases s.world.files.write? path (s.world.heap.display content) with
    | some files => rfl
    | none => exact blind_raise p _ stats s
  | _ => exact blind_raise p _ stats s

theorem blind_execute (limits : Limits) {op : Opcode} (hop : op ≠ .call) (ins : Instruction) :
    Blind (execute p limits · op ins) := by
  cases op with
  | call => exact absurd rfl hop
  | loadConst =>
    intro stats s
    simp only [execute, Option.map_map]
    rfl
  | loadLocal =>
    intro stats s
    simp only [execute, Option.map_map]
    rfl
  | storeLocal => exact blind_storeLocal _
  | loadGlobal => exact blind_loadGlobal p _
  | storeGlobal => exact blind_storeGlobal _
  | add => exact blind_add p
  | sub | mul | div | mod | less | lessEqual | greater | greaterEqual | equal | notEqual
  | indexGet =>
    simp only [execute]
    exact blind_binary p _
  | negate | not | errorMessage | errorType =>
    simp only [execute]
    exact blind_unary p _
  | jump => exact fun _ _ => rfl
  | jumpIfFalse =>
    intro stats s
    simp only [execute, pop?_tallied, Option.map_map]
    congr 1
    funext popped
    by_cases htest : popped.2.world.heap.truthy popped.1
    · simp [htest, Progress.tallied]
    · simp [htest, Progress.tallied, State.tallied, State.jump]
  | pop =>
    intro stats s
    simp only [execute, pop?_tallied, Option.map_map]
    rfl
  | ret => exact blind_pop? fun v => blind_completeReturn p v
  | makeList => exact blind_makeList _
  | makeDict => exact blind_makeDict p _
  | indexSet => exact blind_indexSet p
  | pushTry => exact fun _ _ => rfl
  | popTry => exact blind_popTry p _
  | endFinally => exact blind_endFinally p
  | throw => exact blind_throw p
  | makeError => exact blind_makeError p _
  | print => exact blind_print
  | input => exact fun _ _ => rfl
  | readFile => exact blind_readFile p
  | writeFile => exact blind_writeFile p
  | halt => exact fun _ _ => rfl

end operations

section steps

variable {p : Program} {limits : Limits} {s s' : State}

def Progress.stats : Progress → Option Stats
  | .next s => s.stats
  | .done f => f.stats

/-- What a step makes of the counters in which its instruction is counted. -/
def Progress.called (s : State) (x : Stats) : Progress → Stats
  | .next s' => if s.depth < s'.depth then x.countCall (s'.depth + 1) else x
  | .done _ => x

theorem called_of_le {r : Progress} (h : ∀ s', r = .next s' → s'.depth ≤ s.depth) (x : Stats) :
    r.called s x = x := by
  cases r with
  | done f => rfl
  | next s' => exact if_neg (Nat.not_lt.2 (h s' rfl))

theorem depth_le_of_raise {e : ScriptError} (h : raise p s e = some (.next s')) :
    s'.depth ≤ s.depth :=
  (delivered_unwind (FrameIn.refl s) (Trimmed.refl _) rfl h).frameIn.depth_le

theorem depth_lt_iff_called (hstep : step p limits s = some (.next s')) :
    s.depth < s'.depth ↔ Called p s s' := by
  constructor
  · intro hlt
    rcases raised_or_kept hstep with ⟨t, e, -, -, -, hdelivered⟩ | ⟨-, hframe | hcalled⟩
    · exact absurd hlt (Nat.not_lt.2 hdelivered.frameIn.depth_le)
    · exact absurd hlt (Nat.not_lt.2 hframe.depth_le)
    · exact hcalled
  · intro hcalled
    simp [State.depth, hcalled.callers]

theorem call_tallied (stats : Option Stats) (index argc : Nat) :
    call p limits (s.tallied stats) index argc =
      (call p limits s index argc).map fun r => r.tallied (stats.map fun x => r.called s x) := by
  unfold call
  cases p.functions[index]? with
  | none => rfl
  | some f =>
    simp only [Option.bind_eq_bind, Option.bind_some, depth_tallied, stack_tallied]
    cases refusal? limits f (s.depth + 1) (s.stack.size - argc) argc with
    | some e =>
      have hblind := blind_raise p e stats s
      dsimp only at hblind ⊢
      rw [hblind]
      apply Option.map_congr
      intro r hr
      have hcalled (x : Stats) : r.called s x = x :=
        called_of_le (fun s' hs' => depth_le_of_raise (hs' ▸ hr)) x
      simp [hcalled]
    | none =>
      cases frameStack? p f (s.stack.size - argc) argc s.stack with
      | none => rfl
      | some stack => simp [Progress.tallied, Progress.called, State.tallied, State.depth]

/-- The step lemma: with other counters, a step does the same, and counts its instruction and the
frame that it makes. -/
theorem step_tallied (stats : Option Stats) {op : Opcode} (hop : s.op? p = some op) :
    step p limits (s.tallied stats) = (step p limits s).map fun r =>
      r.tallied (stats.map fun x => r.called s (x.countInstruction op s.stack.size)) := by
  obtain ⟨ins, hcode, hins⟩ := Option.bind_eq_some_iff.1 hop
  have hexecute (s₁ : State) (hframe : s₁.frame = s.frame) :
      step p limits s₁ = execute p limits (s₁.fetched op) op ins :=
    step_of_code (by rw [hframe, hcode]) hins
  let counted := stats.map fun x => x.countInstruction op s.stack.size
  have hfetched : (s.tallied stats).fetched op = (s.fetched op).tallied counted := rfl
  rw [hexecute (s.tallied stats) rfl, hfetched]
  by_cases hcall : op = .call
  · subst hcall
    rw [hexecute s rfl]
    refine (call_tallied counted _ _).trans ?_
    congr 1
    funext r
    simp only [counted, Option.map_map]
    rfl
  · have hblind := blind_execute p limits hcall ins counted (s.fetched op)
    dsimp only at hblind
    rw [hblind, ← hexecute s rfl]
    apply Option.map_congr
    intro r hr
    have hcalled (x : Stats) : r.called s x = x := by
      apply called_of_le
      rintro s' rfl
      apply Nat.not_lt.1
      rw [depth_lt_iff_called hr]
      rintro ⟨⟨ins', hcode', hop', -⟩, -, -⟩
      cases hcode.symm.trans hcode'
      exact hcall (Option.some.inj (hins.symm.trans hop'))
    simp [hcalled, counted]

theorem step_stats {r : Progress} {op : Opcode} (hop : s.op? p = some op)
    (hstep : step p limits s = some r) :
    r.stats = s.stats.map fun x => r.called s (x.countInstruction op s.stack.size) := by
  have htallied : step p limits (s.tallied s.stats) = _ := step_tallied s.stats hop
  have hself : step p limits (s.tallied s.stats) = some r := hstep
  rw [hself, hstep] at htallied
  have hr := Option.some.inj htallied
  cases r with
  | next s' => exact congrArg Progress.stats hr
  | done f => exact congrArg Progress.stats hr

theorem op?_of_step {r : Progress} (hstep : step p limits s = some r) :
    ∃ op, s.op? p = some op := by
  obtain ⟨ins, hcode, hstep⟩ := Option.bind_eq_some_iff.1 hstep
  obtain ⟨op, hins, -⟩ := Option.bind_eq_some_iff.1 hstep
  exact ⟨op, Option.bind_eq_some_iff.2 ⟨ins, hcode, hins⟩⟩

theorem step_untallied : step p limits (s.tallied none) =
    (step p limits s).map (Progress.tallied none) := by
  cases hop : s.op? p with
  | some op => exact step_tallied none hop
  | none =>
    have hstuck (s₁ : State) (hframe : s₁.frame = s.frame) : step p limits s₁ = none := by
      cases hstep : step p limits s₁ with
      | none => rfl
      | some r =>
        obtain ⟨op, hop₁⟩ := op?_of_step hstep
        rw [State.op?, hframe, ← State.op?, hop] at hop₁
        cases hop₁
    rw [hstuck s rfl, hstuck (s.tallied none) rfl]
    rfl

end steps

end Machine
end ScriptMachine
