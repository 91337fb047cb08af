import ScriptMachine.Proofs.Meaning.Expression

namespace ScriptMachine

theorem Text.digit_injective {c d : Char} (hc : c.isDigit) (hd : d.isDigit)
    (h : Text.digit c = Text.digit d) : c = d := by
  simp only [Char.isDigit, Bool.and_eq_true, decide_eq_true_eq] at hc hd
  have hnat := congrArg UInt8.toNat h
  simp only [Text.digit, Nat.toUInt8, UInt8.toNat_ofNat'] at hnat
  have hc' : c.toNat ≤ 57 := hc.2
  have hd' : d.toNat ≤ 57 := hd.2
  apply Char.ext
  apply UInt32.toNat_inj.1
  simp only [Char.toNat] at hnat hc' hd'
  omega

theorem Text.map_digit_injective {cs ds : List Char} (hcs : ∀ c ∈ cs, c.isDigit)
    (hds : ∀ d ∈ ds, d.isDigit) (h : cs.map Text.digit = ds.map Text.digit) : cs = ds := by
  induction cs generalizing ds with
  | nil =>
    cases ds with
    | nil => rfl
    | cons d ds => cases h
  | cons c cs ih =>
    cases ds with
    | nil => cases h
    | cons d ds =>
      rw [List.forall_mem_cons] at hcs hds
      simp only [List.map_cons, List.cons.injEq] at h
      rw [Text.digit_injective hcs.1 hds.1 h.1, ih hcs.2 hds.2 h.2]

theorem Text.decimal_injective {n m : Nat} (h : Text.decimal n = Text.decimal m) : n = m := by
  have hdigits (k : Nat) : ∀ c ∈ Nat.toDigits 10 k, c.isDigit := fun c hc =>
    Nat.isDigit_of_mem_toDigits (by decide) (by decide) hc
  have hchars := Text.map_digit_injective (hdigits n) (hdigits m) h
  rw [← Nat.ofDigitChars_ten_toDigits (n := n), hchars, Nat.ofDigitChars_ten_toDigits]

namespace Compile

theorem counterName_injective {n m : Nat} (h : counterName n = counterName m) : n = m := by
  refine Text.decimal_injective ?_
  simpa [counterName, Text.concat] using h

end Compile

namespace Meaning
open Machine Compile

theorem not_plain_counterName (n : Nat) : ¬ Plain (counterName n) := by
  intro h
  exact h rfl

/-- The counters of the loops around a statement are as they were. -/
def Keeps (L : Layout) (low : Nat) (cells cells' : List Value) : Prop :=
  ∀ i n : Nat, n < low → L.locals[i]? = some (counterName n) → cells'[i]? = cells[i]?

theorem Keeps.refl {L : Layout} {low : Nat} {cells : List Value} : Keeps L low cells cells :=
  fun _ _ _ _ => rfl

theorem Keeps.mono {L : Layout} {low low' : Nat} {cells cells' : List Value}
    (h : Keeps L low' cells cells') (hle : low ≤ low') : Keeps L low cells cells' :=
  fun i n hn hi => h i n (Nat.lt_of_lt_of_le hn hle) hi

theorem Keeps.trans {L : Layout} {low : Nat} {cells cells' cells'' : List Value}
    (h : Keeps L low cells cells') (h' : Keeps L low cells' cells'') : Keeps L low cells cells'' :=
  fun i n hn hi => (h' i n hn hi).trans (h i n hn hi)

/-- No completion waits in the frame at hand. -/
def Site.Settled (c : Site) : Prop :=
  c.pending.popWhile (fun q => q.frame == c.callers.size) = c.pending

/-- The state in which statements have ended, given the address behind them and the way out of the
loop around them. -/
def Ended (limits : Limits) (L : Layout) (c : Site) (exits : Option Exits) (out : Nat)
    (cells : List Value) (μ : Memory) : Ending → State → Prop
  | .normal, s => ∃ x, Scene.Shows L.program x μ ∧ s = c.state cells out [] x
  | .exit way, s => ∃ x e pc, Scene.Shows L.program x μ ∧ exits = some e ∧ L.Leaves e.leave pc ∧
    L.At (pc + e.leave) .jump (e.target way) ∧ s = c.state cells pc [] x
  | .ret v, s => c.Settled ∧ ∃ x, Scene.Shows L.program x μ ∧
    step L.program limits s = returnThrough L.program v (c.state cells 0 [] x) c.guards
  | .throw e, s => Raised L.program limits c cells e μ s

/-- From a state the machine does what statements do, in at least `K` steps if they have no end. The
cells are those in which the locals were, and a state in which the statements have ended is of the
given kind. -/
def Does (limits : Limits) (K : Nat) (L : Layout) (low : Nat) (cells : List Value)
    (P : List Value → Memory → Ending → State → Prop) (s : State) : Option (Ending × Store) → Prop
  | none => Lasts L.program limits K s
  | some (ending, σ) => ∃ cells', Matches L cells' σ.locals ∧ Keeps L low cells cells' ∧
    Leads L.program limits s (P cells' σ.memory ending)

def Performs (limits : Limits) (K : Nat) (L : Layout) (c : Site) (exits : Option Exits) (low : Nat)
    (cells : List Value) (pc : Nat) (operands : List Value) (out : Nat) (run : Exec) : Prop :=
  ∀ x σ, Matches L cells σ.locals → Scene.Shows L.program x σ.memory →
    Does limits K L low cells (Ended limits L c exits out) (c.state cells pc operands x) (run σ)

namespace Exec

theorem andThen_eq_bind (run rest : Exec) (σ : Store) : andThen run rest σ = (run σ).bind fun
    | (.normal, σ') => rest σ'
    | (ending, σ') => some (ending, σ') := by
  unfold andThen
  rcases run σ with _ | ⟨ending, σ'⟩
  · rfl
  · cases ending <;> rfl

theorem round_eq_bind (run next : Exec) (σ : Store) : round run next σ = (run σ).bind fun
    | (.normal, σ') => next σ'
    | (.exit .skip, σ') => next σ'
    | (.exit .stop, σ') => some (.normal, σ')
    | (ending, σ') => some (ending, σ') := by
  unfold round
  rcases run σ with _ | ⟨ending, σ'⟩
  · rfl
  · rcases ending with _ | ⟨_ | _⟩ | _ | _ <;> rfl

end Exec

section

variable {limits : Limits} {K k : Nat} {L : Layout} {c : Site} {exits : Option Exits} {low : Nat}
variable {cells operands : List Value} {pc out : Nat} {run : Exec} {s : State}
variable {r : Option (Ending × Store)} {P : List Value → Memory → Ending → State → Prop}

theorem Does.mono {low' : Nat} (h : Does limits K L low' cells P s r) (hk : k ≤ K)
    (hlow : low ≤ low') : Does limits k L low cells P s r := by
  cases r with
  | none => exact Lasts.mono h hk
  | some r =>
    obtain ⟨cells', hcells, hkeeps, hleads⟩ := h
    exact ⟨cells', hcells, hkeeps.mono hlow, hleads⟩

theorem Performs.mono {low' : Nat} (h : Performs limits K L c exits low' cells pc operands out run)
    (hk : k ≤ K) (hlow : low ≤ low') : Performs limits k L c exits low cells pc operands out run :=
  fun x σ hσ hx => (h x σ hσ hx).mono hk hlow

theorem Does.keeps {cells' : List Value} (hkeeps : Keeps L low cells cells')
    (h : Does limits K L low cells' P s r) : Does limits K L low cells P s r := by
  cases r with
  | none => exact h
  | some r =>
    obtain ⟨cells'', hcells, hkeeps', hleads⟩ := h
    exact ⟨cells'', hcells, hkeeps.trans hkeeps', hleads⟩

theorem Does.step {t : State} (hstep : step L.program limits s = some (.next t))
    (h : Does limits k L low cells P t r) : Does limits (k + 1) L low cells P s r := by
  cases r with
  | none => exact Lasts.step hstep h
  | some r =>
    obtain ⟨cells', hcells, hkeeps, hleads⟩ := h
    exact ⟨cells', hcells, hkeeps, Leads.step hstep hleads⟩

theorem Does.after {t : State} (hs : Leads L.program limits s (· = t))
    (h : Does limits K L low cells P t r) : Does limits K L low cells P s r := by
  cases r with
  | none => exact hs.lasts fun _ ht => ht ▸ h
  | some r =>
    obtain ⟨cells', hcells, hkeeps, hleads⟩ := h
    exact ⟨cells', hcells, hkeeps, hs.trans fun _ ht => ht ▸ hleads⟩

theorem Does.here {σ : Store} {ending : Ending} (hcells : Matches L cells σ.locals)
    (h : P cells σ.memory ending s) : Does limits K L low cells P s (some (ending, σ)) :=
  ⟨cells, hcells, Keeps.refl, Leads.here h⟩

theorem Does.bind {Q : List Value → Memory → Ending → State → Prop} {low' : Nat}
    {f : Ending × Store → Option (Ending × Store)} (hlow : low ≤ low')
    (h : Does limits K L low' cells P s r)
    (hf : ∀ cells' ending σ t, Matches L cells' σ.locals → Keeps L low' cells cells' →
      P cells' σ.memory ending t → Does limits K L low cells' Q t (f (ending, σ))) :
    Does limits K L low cells Q s (r.bind f) := by
  cases r with
  | none => exact h
  | some r =>
    obtain ⟨cells', hcells, hkeeps, n, t, hn, ht⟩ := h
    have hrest := hf cells' r.1 r.2 t hcells hkeeps ht
    exact Does.keeps (hkeeps.mono hlow) (Does.after ⟨n, t, hn, rfl⟩ hrest)

theorem Does.leads {Q : List Value → Memory → Ending → State → Prop}
    (h : Does limits K L low cells P s r)
    (hPQ : ∀ cells μ ending s, cells.length = L.locals.length → P cells μ ending s →
      Leads L.program limits s (Q cells μ ending)) : Does limits K L low cells Q s r := by
  cases r with
  | none => exact h
  | some r =>
    obtain ⟨cells', hcells, hkeeps, hleads⟩ := h
    exact ⟨cells', hcells, hkeeps, hleads.trans fun s hs => hPQ _ _ _ _ hcells.length hs⟩

theorem performs_ends_normal : Performs limits K L c exits low cells pc [] pc (.ends .normal) :=
  fun x _ hσ hx => ⟨cells, hσ, Keeps.refl, Leads.here ⟨x, hx, rfl⟩⟩

theorem Performs.evaluate {m : Locals → Eval α} {next : α → Exec} {pc' : α → Nat}
    {operands' : α → List Value}
    (hm : ∀ locals, Matches L cells locals →
      Runs L.program limits K c cells pc operands (m locals) pc' operands')
    (hnext : ∀ a, Performs limits K L c exits low cells (pc' a) (operands' a) out (next a)) :
    Performs limits K L c exits low cells pc operands out (.evaluate m next) := by
  intro x σ hσ hx
  have hfirst := hm σ.locals hσ x σ.memory hx
  unfold Exec.evaluate
  cases hrun : m σ.locals σ.memory with
  | none =>
    rw [hrun] at hfirst
    exact hfirst
  | some r =>
    obtain ⟨r, μ⟩ := r
    rw [hrun] at hfirst
    cases r with
    | error e => exact ⟨cells, hσ, Keeps.refl, hfirst⟩
    | ok a =>
      obtain ⟨n, s, hn, x', hx', rfl⟩ := hfirst
      exact (hnext a x' { σ with memory := μ } hσ hx').after ⟨n, _, hn, rfl⟩

theorem Ended.elsewhere {out' : Nat} {μ : Memory} {ending : Ending}
    (h : Ended limits L c exits out cells μ ending s) (hne : ending ≠ .normal) :
    Ended limits L c exits out' cells μ ending s := by
  cases ending with
  | normal => exact absurd rfl hne
  | exit way => exact h
  | ret v => exact h
  | throw e => exact h

theorem Performs.andThen {rest : Exec} {q : Nat}
    (hrun : Performs limits K L c exits low cells pc operands q run)
    (hrest : ∀ cells', Keeps L low cells cells' →
      Performs limits K L c exits low cells' q [] out rest) :
    Performs limits K L c exits low cells pc operands out (.andThen run rest) := by
  intro x σ hσ hx
  rw [Exec.andThen_eq_bind]
  refine .bind (Nat.le_refl low) (hrun x σ hσ hx) fun cells' ending σ' t hcells hkeeps hended => ?_
  cases ending with
  | normal =>
    obtain ⟨x', hx', rfl⟩ := hended
    exact hrest cells' hkeeps x' σ' hcells hx'
  | _ => exact .here hcells (hended.elsewhere (by simp))

theorem step_jump {q : Nat} (hat : L.At q .jump out) (cells : List Value) (x : Scene) : ∃ stats,
    step L.program limits (c.state cells q [] x) =
    some (.next (c.state cells out [] ⟨x.world, stats⟩)) := by
  obtain ⟨stats, hstep⟩ := step_of_at limits c cells [] hat x
  simp only [execute, Instruction.of, toNat_ofNat hat.2.1, Site.jump_state] at hstep
  exact ⟨stats, hstep⟩

theorem Performs.afterJump {q : Nat} (hat : L.At q .jump pc)
    (h : Performs limits k L c exits low cells pc [] out run) :
    Performs limits (k + 1) L c exits low cells q [] out run := by
  intro x σ hσ hx
  obtain ⟨stats, hstep⟩ := step_jump hat cells x
  exact (h _ σ hσ (hx.counted stats)).step hstep

theorem Performs.thenJump {q : Nat} (h : Performs limits K L c exits low cells pc operands q run)
    (hat : L.At q .jump out) : Performs limits K L c exits low cells pc operands out run := by
  intro x σ hσ hx
  refine (h x σ hσ hx).leads fun cells' μ ending t _ hended => ?_
  cases ending with
  | normal =>
    obtain ⟨x', hx', rfl⟩ := hended
    obtain ⟨stats, hstep⟩ := step_jump hat cells' x'
    exact Leads.step hstep (Leads.here ⟨_, hx'.counted stats, rfl⟩)
  | _ => exact Leads.here (hended.elsewhere (by simp))

theorem Performs.round {next : Exec} {skip y low' : Nat} (hlow : low ≤ low')
    (hbody : Performs limits K L c (some ⟨0, out, skip⟩) low' cells pc [] y run)
    (hnormal : ∀ cells', Keeps L low' cells cells' →
      Performs limits K L c exits low cells' y [] out next)
    (hskip : ∀ cells', Keeps L low' cells cells' → ∀ {q}, L.At q .jump skip →
      Performs limits K L c exits low cells' q [] out next) :
    Performs limits K L c exits low cells pc [] out (.round run next) := by
  intro x σ hσ hx
  rw [Exec.round_eq_bind]
  refine .bind hlow (hbody x σ hσ hx) fun cells' ending σ' t hcells hkeeps hended => ?_
  cases ending with
  | normal =>
    obtain ⟨x', hx', rfl⟩ := hended
    exact hnormal cells' hkeeps x' σ' hcells hx'
  | exit way =>
    obtain ⟨x', _, q, hx', ⟨⟩, -, hat, rfl⟩ := hended
    cases way with
    | stop =>
      obtain ⟨stats, hstep⟩ := step_jump hat cells' x'
      exact ⟨cells', hcells, Keeps.refl, Leads.step hstep (Leads.here ⟨_, hx'.counted stats, rfl⟩)⟩
    | skip => exact hskip cells' hkeeps hat x' σ' hcells hx'
  | ret v => exact .here hcells hended
  | throw e => exact .here hcells hended

theorem performs_whileLoop {test : Locals → Eval Bool} {q y : Nat}
    (htest : ∀ cells locals, Matches L cells locals → Runs L.program limits K c cells pc []
      (test locals) (fun holds => if holds then q + 1 else y + 1) fun _ => [])
    (hbody : ∀ cells, Performs limits K L c (some ⟨0, y + 1, pc⟩) low cells (q + 1) [] y run)
    (hat : L.At y .jump pc) (hk : k ≤ K) (cells : List Value) :
    Performs limits k L c exits low cells pc [] (y + 1) (.whileLoop test run k) := by
  induction k generalizing cells with
  | zero => exact fun x σ _ _ => ⟨_, rfl⟩
  | succ k ih =>
    have ih := ih (Nat.le_of_succ_le hk)
    refine .evaluate (fun locals hlocals => (htest cells locals hlocals).mono hk) fun holds => ?_
    cases holds with
    | true =>
      refine .round (Nat.le_refl low) ((hbody cells).mono hk (Nat.le_refl low)) ?_ ?_
      · exact fun cells' _ => (ih cells').afterJump hat
      · exact fun cells' _ _ hjump => (ih cells').afterJump hjump
    | false => exact performs_ends_normal

theorem step_storeLocal {slot : Nat} (hat : L.At pc .storeLocal slot) (hslot : slot < cells.length)
    (v : Value) (x : Scene) : ∃ stats, step L.program limits (c.state cells pc [v] x) =
      some (.next (c.state (cells.set slot v) (pc + 1) [] ⟨x.world, stats⟩)) := by
  obtain ⟨stats, hstep⟩ := step_of_at limits c cells [v] hat x
  refine ⟨stats, ?_⟩
  have hstack : (c.below ++ cells).set (c.below.length + slot) v = c.below ++ cells.set slot v := by
    rw [List.set_append_right _ _ (Nat.le_add_right _ _), Nat.add_sub_cancel_left]
  rw [hstep]
  simp only [execute, storeLocal, Instruction.of, toNat_ofNat hat.2.1, Site.pop?_state,
    Option.bind_eq_bind, Option.bind_some, Site.frame_state, Site.size_state, List.length_nil]
  rw [if_pos (by omega)]
  simp [Site.state, hstack]

theorem keeps_set {i : Nat} {name : Text} (hi : L.locals[i]? = some name)
    (hname : ∀ n, n < low → name ≠ counterName n) (v : Value) :
    Keeps L low cells (cells.set i v) := by
  intro j n hn hj
  have hne : i ≠ j := by
    rintro rfl
    exact hname n hn (Option.some.inj (hi.symm.trans hj))
  exact List.getElem?_set_ne hne

theorem Matches.set_counter {locals : Locals} {slot n : Nat} (h : Matches L cells locals)
    (hslot : L.locals[slot]? = some (counterName n)) (v : Value) :
    Matches L (cells.set slot v) locals := by
  refine ⟨by rw [List.length_set, h.length], fun {i name} hi hname => ?_⟩
  have hne : slot ≠ i := by
    rintro rfl
    rw [hslot, Option.some.injEq] at hi
    exact not_plain_counterName n (hi ▸ hname)
  rw [List.getElem?_set_ne hne]
  exact h.cell hi hname

theorem Matches.lt {locals : Locals} {i : Nat} {name : Text} (h : Matches L cells locals)
    (hi : L.locals[i]? = some name) : i < cells.length := by
  rw [h.length]
  exact (List.getElem?_eq_some_iff.1 hi).1

theorem Performs.count {slot n : Nat} {v : Value} (hat : L.At pc .storeLocal slot)
    (hslot : L.locals[slot]? = some (counterName n)) (hlow : low ≤ n)
    (h : Performs limits K L c exits low (cells.set slot v) (pc + 1) [] out run) :
    Performs limits K L c exits low cells pc [v] out run := by
  intro x σ hσ hx
  obtain ⟨stats, hstep⟩ := step_storeLocal hat (hσ.lt hslot) v x
  have hkeeps : Keeps L low cells (cells.set slot v) := by
    refine keeps_set hslot (fun m hm heq => ?_) v
    have := counterName_injective heq
    omega
  have hrest := h _ σ (hσ.set_counter hslot v) (hx.counted stats)
  exact (hrest.keeps hkeeps).after ⟨1, _, run_of_step hstep 0, rfl⟩

theorem runs_greater {q : Nat} {v w : Value} (hat : L.At q .greater) (hc : c.Stands cells.length) :
    Runs L.program limits K c cells q (w :: v :: operands)
    (.query fun _ => OrderOp.greater.apply v w)
      (fun _ => q + 1) fun v => v :: operands := by
  refine runs_settle (fun _ => OrderOp.greater.apply v w) hat hc (fun _ => rfl)
    (fun _ => fresh_order _ v w) fun x => ?_
  simp [execute, binary, settle_state]

theorem runs_sub {q : Nat} {v w : Value} (hat : L.At q .sub) (hc : c.Stands cells.length) :
    Runs L.program limits K c cells q (w :: v :: operands)
    (.query fun _ => ArithmeticOp.sub.apply v w)
      (fun _ => q + 1) fun v => v :: operands := by
  refine runs_settle (fun _ => ArithmeticOp.sub.apply v w) hat hc (fun _ => rfl)
    (fun _ => fresh_arithmetic _ v w) fun x => ?_
  simp [execute, binary, settle_state]

/-- The loop counts a value down, which the code keeps in a slot of its own. -/
theorem performs_countdown {slot q y : Nat} (hc : c.Stands L.locals.length)
    (hslot : L.locals[slot]? = some (counterName low)) (hload : L.At q .loadLocal slot)
    (hzero : L.Loads (q + 1) (.number .zero)) (hgreater : L.At (q + 2) .greater)
    (htest : L.At (q + 3) .jumpIfFalse (y + 5))
    (hbody : ∀ cells, Performs limits K L c (some ⟨0, y + 5, y⟩) (low + 1) cells (q + 4) [] y run)
    (hload' : L.At y .loadLocal slot) (hone : L.Loads (y + 1) (.number .one))
    (hsub : L.At (y + 2) .sub) (hstore : L.At (y + 3) .storeLocal slot)
    (hjump : L.At (y + 4) .jump q) (hk : k ≤ K) {count : Value} {cells : List Value}
    (hlength : cells.length = L.locals.length) (hcount : cells[slot]? = some count) :
    Performs limits k L c exits low cells q [] (y + 5) (.countdown run k count) := by
  induction k generalizing cells count with
  | zero => exact fun x σ _ _ => ⟨_, rfl⟩
  | succ k ih =>
    have hstands {cells : List Value} (h : cells.length = L.locals.length) :
        c.Stands cells.length :=
      h ▸ hc
    have hnext (cells' : List Value) (hkeeps : Keeps L (low + 1) cells cells') :
        Performs limits (k + 1) L c exits low cells' y [] (y + 5)
          (.evaluate (fun _ => .query fun _ => ArithmeticOp.sub.apply count (.number .one))
            (.countdown run k)) := by
      intro x σ hσ hx
      have hcount' : cells'[slot]? = some count := by
        rw [hkeeps slot low (Nat.lt_succ_self low) hslot, hcount]
      have hless : ∀ locals, Matches L cells' locals → Runs L.program limits (k + 1) c cells' y []
          (.query fun _ => ArithmeticOp.sub.apply count (.number .one)) (fun _ => y + 3)
          fun v => [v] := fun locals hlocals =>
        ((runs_loadLocal hload' hcount').before ((runs_loads hone).before
          (runs_sub hsub (hstands hlocals.length))))
      refine Performs.evaluate hless (fun v => ?_) x σ hσ hx
      refine .count hstore hslot (Nat.le_refl low) (.afterJump hjump ?_)
      exact ih (Nat.le_of_succ_le hk) (by rw [List.length_set, hσ.length])
        (List.getElem?_set_self (hσ.lt hslot))
    have hmore : ∀ locals, Matches L cells locals → Runs L.program limits (k + 1) c cells q []
        (do
          let more ← .query fun _ => OrderOp.greater.apply count (.number .zero)
          .truth more)
        (fun holds => if holds then q + 4 else y + 5) fun _ => [] := fun _ _ =>
      (runs_loadLocal hload hcount).before ((runs_loads hzero).before
        ((runs_greater hgreater (hstands hlength)).bind fun more => runs_jumpIfFalse htest more))
    refine Performs.evaluate hmore fun holds => ?_
    cases holds with
    | true =>
      refine .round (Nat.le_succ low) ((hbody cells).mono hk (Nat.le_refl _)) hnext ?_
      exact fun cells' hkeeps _ hat => ((hnext cells' hkeeps).afterJump hat).mono (Nat.le_succ _)
        (Nat.le_refl low)
    | false => exact performs_ends_normal

theorem getElem?_of_globalIndex? {p : Program} {name : Text} {i : Nat}
    (h : p.globalIndex? name = some i) : p.globals[i]? = some name := by
  obtain ⟨hlt, hname, -⟩ := Array.findIdx?_eq_some_iff_getElem.1 h
  rw [Array.getElem?_eq_getElem hlt, eq_of_beq hname]

theorem memory_setGlobal {p : Program} {w : World} {name : Text} {i : Nat} (v : Value)
    (hsize : w.globals.size = p.globals.size) (hi : p.globals[i]? = some name)
    (hindex : p.globalIndex? name = some i) :
    Memory.of p { w with globals := w.globals.setIfInBounds i (some v) } =
      { Memory.of p w with globals := replace (Memory.of p w).globals name (some v) } := by
  have hlt : i < w.globals.size := by
    rw [hsize]
    exact (Array.getElem?_eq_some_iff.1 hi).1
  have hglobals : (Memory.of p { w with globals := w.globals.setIfInBounds i (some v) }).globals =
      replace (Memory.of p w).globals name (some v) := by
    funext other
    simp only [Memory.of, replace]
    by_cases hother : other = name
    · rw [if_pos hother, hother, hindex]
      simp [Array.getD_eq_getD_getElem?, hlt]
    · rw [if_neg hother]
      cases hj : p.globalIndex? other with
      | none => rfl
      | some j =>
        have hne : i ≠ j := by
          rintro rfl
          have := getElem?_of_globalIndex? hj
          rw [hi, Option.some.injEq] at this
          exact hother this.symm
        simp [Array.getD_eq_getD_getElem?, Array.getElem?_setIfInBounds_ne hne]
  simp only [Memory.of] at hglobals ⊢
  rw [hglobals]

theorem Matches.assign {scope : Scope} {locals : Locals} {i : Nat} {name : Text}
    (h : Matches L cells locals) (hresolves : Resolves L scope) (hi : L.locals[i]? = some name)
    (v : Value) : Matches L (cells.set i v) (replace locals name v) := by
  have hlt := h.lt hi
  refine ⟨by rw [List.length_set, h.length], fun {j other} hj hother => ?_⟩
  by_cases hij : i = j
  · subst hij
    rw [hi, Option.some.injEq] at hj
    simp [replace, hj, hlt]
  · have hne : other ≠ name := by
      rintro rfl
      rw [h.length] at hlt
      exact hij ((List.getElem?_inj hlt hresolves.nodup).1 (hi.trans hj.symm))
    simp only [List.getElem?_set_ne hij, replace, if_neg hne]
    exact h.cell hj hother

theorem performs_assign {scope : Scope} (h : Resolves L scope) {name : Text} (hname : Plain name)
    (hat : L.Writes pc name) (v : Value) :
    Performs limits K L c exits low cells pc [v] (pc + 1) (.assign scope name v) := by
  intro x σ hσ hx
  rcases hat with ⟨i, hat, hi, -⟩ | ⟨i, hat, hi, hshared⟩
  · obtain ⟨stats, hstep⟩ := step_storeLocal hat (hσ.lt hi) v x
    simp only [Exec.assign, h.slot hi hname, if_true]
    refine ⟨cells.set i v, hσ.assign h hi v, keeps_set hi (fun n _ heq => ?_) v,
      Leads.step hstep (Leads.here ⟨_, hx.counted stats, rfl⟩)⟩
    exact not_plain_counterName n (heq ▸ hname)
  · obtain ⟨stats, hstep⟩ := step_of_at limits c cells [v] hat x
    have hlt : i < x.world.globals.size := by
      rw [hx.globals]
      exact (Array.getElem?_eq_some_iff.1 hi).1
    simp only [execute, storeGlobal, Instruction.of, toNat_ofNat hat.2.1, Site.pop?_state,
      Option.bind_eq_bind, Option.bind_some, Site.world_state, Array.size_setIfInBounds, hlt,
      if_true] at hstep
    simp only [Exec.assign, h.shared hshared, Bool.false_eq_true, if_false]
    refine ⟨cells, hσ, Keeps.refl, Leads.step hstep (Leads.here
      ⟨⟨{ x.world with globals := x.world.globals.setIfInBounds i (some v) }, stats⟩, ⟨?_, ?_⟩,
      rfl⟩)⟩
    · rw [Array.size_setIfInBounds, hx.globals]
    · rw [memory_setGlobal v hx.globals hi (h.global hi), hx.memory]

theorem performs_take {scope : Scope} (h : Resolves L scope) {binder : Text} (hname : Plain binder)
    (hat : L.Takes pc binder) (v : Value) :
    Performs limits K L c exits low cells pc [v] (pc + 1) (.take scope binder v) := by
  unfold Layout.Takes at hat
  unfold Exec.take
  split at hat
  · next hempty =>
    rw [if_pos hempty]
    intro x σ hσ hx
    obtain ⟨stats, hstep⟩ := step_of_at limits c cells [v] hat x
    simp only [execute, Site.pop?_state, Option.map_some] at hstep
    exact ⟨cells, hσ, Keeps.refl, Leads.step hstep
      (Leads.here ⟨_, hx.counted stats, rfl⟩)⟩
  · next hempty =>
    rw [if_neg hempty]
    exact performs_assign h hname hat v

end

end Meaning
end ScriptMachine
