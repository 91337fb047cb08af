import ScriptMachine.Proofs.Compile.Assembled
import ScriptMachine.Proofs.Machine.Progress
import ScriptMachine.Proofs.Meaning.Statement

namespace ScriptMachine
namespace Meaning
open Machine Compile

theorem bind_of_not_mem {ps : List Parameter} {args : List Value} {name : Text}
    (h : name ∉ ps.map Parameter.name) : bind ps args name = .nil := by
  induction ps generalizing args with
  | nil => rfl
  | cons q ps ih =>
    rw [List.map_cons, List.mem_cons, not_or] at h
    cases args <;> simp [bind, h.1, ih h.2]

theorem exists_missing {p : Program} {seen : Bool} {ps : List Parameter} {ws : List Int32}
    (h : DefaultsAt p.constants seen ps ws) (hnodup : (ps.map Parameter.name).Nodup)
    {args : List Value} (hle : args.length ≤ ps.length)
    (hdefaults : ∀ w ∈ ws.drop args.length, w ≠ noIndex) :
    ∃ missing, (ws.drop args.length).mapM p.constant? = some missing ∧
      args.length + missing.length = ps.length ∧
      ∀ (i : Nat) (q : Parameter), ps[i]? = some q →
        (args ++ missing.map Constant.toValue)[i]? = some (bind ps args q.name) := by
  induction ps generalizing seen ws args with
  | nil =>
    cases h
    have hargs : args = [] := List.eq_nil_of_length_eq_zero (Nat.le_zero.1 hle)
    subst hargs
    exact ⟨[], rfl, rfl, by simp⟩
  | cons q ps ih =>
    obtain ⟨w, later, seen', rfl, hlater, hword⟩ := DefaultsAt.uncons h
    rw [List.map_cons, List.nodup_cons] at hnodup
    have hother {q' : Parameter} {i : Nat} (hq' : ps[i]? = some q') : q'.name ≠ q.name := by
      intro heq
      exact hnodup.1 (heq ▸ List.mem_map_of_mem (List.mem_of_getElem? hq'))
    cases args with
    | cons v args =>
      obtain ⟨missing, hmissing, hlength, hvalues⟩ := ih hlater hnodup.2
        (Nat.le_of_succ_le_succ hle) hdefaults
      refine ⟨missing, hmissing, by rw [List.length_cons, List.length_cons]; omega,
        fun i q' hq' => ?_⟩
      cases i with
      | zero =>
        cases hq'
        simp [bind]
      | succ i => simpa [bind, hother hq'] using hvalues i q' hq'
    | nil =>
      have hnone : ([] : List Value).length ≤ ps.length := Nat.zero_le _
      obtain ⟨missing, hmissing, hlength, hvalues⟩ := ih hlater hnodup.2 hnone
        fun w' hw' => hdefaults w' (List.mem_cons_of_mem _ hw')
      cases hq : q.fallback with
      | none =>
        simp only [hq] at hword
        exact absurd hword (hdefaults w List.mem_cons_self)
      | some e =>
        simp only [hq] at hword
        obtain ⟨k, n, hk, hn, hconstant⟩ := hword
        have hfirst : p.constant? w = some k := by simp [Program.constant?, hn, hconstant]
        rw [List.length_nil, List.drop_zero] at hmissing
        refine ⟨k :: missing, ?_, ?_, fun i q' hq' => ?_⟩
        · simp [hfirst, hmissing]
        · simpa using hlength
        · cases i with
          | zero =>
            cases hq'
            simp [bind, hq, hk]
          | succ i => simpa [bind, hother hq'] using hvalues i q' hq'

/-- A function of a program against its declaration. -/
structure Callee (S : Script) (L : Layout) (d : Declaration) (f : Function) : Prop where
  names : Resolves L ⟨false, d.parameters.map Parameter.name, S.known⟩
  isMain : L.names.isMain = false
  locals : L.locals.length = f.localCount
  slots : d.parameters.map Parameter.name <+: L.locals
  arity : f.arity = d.parameters.length
  defaults : DefaultsAt L.program.constants false d.parameters f.defaults
  code : ∃ lo stop, ∃ m : Mark, BlockAt L d.body none ⟨f.entry, lo, 0⟩ m ∧ L.Ends m.pc stop
  plain : ∀ name ∈ blockVariables d.body, Plain name
  tidy : blockTidy d.body

theorem Callee.matches_bind {S : Script} {L : Layout} {d : Declaration} {f : Function}
    (h : Callee S L d f) {args values : List Value} (hlength : values.length = d.parameters.length)
    (hvalues : ∀ (i : Nat) (q : Parameter), d.parameters[i]? = some q →
      values[i]? = some (bind d.parameters args q.name)) :
    Matches L (values ++ List.replicate (f.localCount - d.parameters.length) .nil)
      (bind d.parameters args) := by
  have hslots := h.slots.length_le
  rw [List.length_map, h.locals] at hslots
  refine ⟨?_, fun {i name} hi _ => ?_⟩
  · rw [List.length_append, List.length_replicate, h.locals]
    omega
  · by_cases hlt : i < d.parameters.length
    · have hname : name = d.parameters[i].name := by
        have hslot := List.prefix_iff_getElem?.1 h.slots i (by simpa using hlt)
        rw [hi, Option.some.injEq] at hslot
        simpa using hslot
      rw [List.getElem?_append_left (by omega), hname]
      exact hvalues i _ (List.getElem?_eq_getElem hlt)
    · have hlocal : i < f.localCount := h.locals ▸ (List.getElem?_eq_some_iff.1 hi).1
      have habsent : name ∉ d.parameters.map Parameter.name := by
        intro hmem
        obtain ⟨rest, hrest⟩ := h.slots
        have hnames := h.names.nodup
        rw [← hrest, List.getElem?_append_right (by simp; omega)] at hi
        rw [← hrest] at hnames
        exact (List.nodup_append.1 hnames).2.2 name hmem name (List.mem_of_getElem? hi) rfl
      rw [bind_of_not_mem habsent, List.getElem?_append_right (by omega),
        List.getElem?_replicate, if_pos (by omega)]

theorem Callee.frame {S : Script} {L : Layout} {d : Declaration} {f : Function}
    (h : Callee S L d f) {args : List Value} (hrequired : f.requiredArity ≤ args.length)
    (harity : args.length ≤ f.arity) (below : List Value) : ∃ cells,
      Matches L cells (bind d.parameters args) ∧
      frameStack? L.program f below.length args.length (below ++ args).toArray =
        some (below ++ cells).toArray := by
  have hnodup : (d.parameters.map Parameter.name).Nodup := h.names.nodup.sublist h.slots.sublist
  have hlength := DefaultsAt.length h.defaults
  have htake : f.defaults.take f.arity = f.defaults := by
    rw [h.arity, ← hlength, List.take_length]
  obtain ⟨missing, hmissing, hsize, hvalues⟩ := exists_missing h.defaults hnodup
    (h.arity ▸ harity) fun w hw => default_of_drop hrequired (by rwa [htake])
  have hslots := h.slots.length_le
  rw [List.length_map, h.locals] at hslots
  refine ⟨args ++ missing.map Constant.toValue ++
    List.replicate (f.localCount - d.parameters.length) .nil, h.matches_bind (by simpa) hvalues, ?_⟩
  have hcount := h.arity
  rw [← hcount]
  exact frameStack?_of_mapM (by rwa [htake]) (by omega) (by omega)

/-- Where a function that is called stands, above the operands of its caller. -/
def Site.inside (c : Site) (function : Nat) (cells : List Value) (pc : Nat)
    (operands : List Value) : Site where
  function
  below := c.below ++ cells ++ operands.reverse
  callers := c.callers.push ⟨c.function, pc, c.below.length⟩
  guards := c.guards
  pending := c.pending

section

variable {c : Site} {cells : List Value} (function pc : Nat) (operands : List Value)

theorem Site.Stands.inside (h : c.Stands cells.length) (size : Nat) :
    (c.inside function cells pc operands).Stands size := by
  refine ⟨h.guards.mono (by simp [Site.inside]) ?_ (Nat.le_refl _), fun hq => ?_⟩
  · simp only [Site.inside, List.length_append]
    omega
  · have hle := h.pending hq
    simp only [Site.inside, Array.size_push]
    omega

theorem Site.Stands.settled_inside (h : c.Stands cells.length) :
    (c.inside function cells pc operands).Settled := by
  rw [Site.settled_iff]
  simp only [Site.inside, Array.size_push]
  cases hpending : c.pending.toList.reverse with
  | nil => rfl
  | cons q rest =>
    have hq : q ∈ c.pending := by
      rw [← Array.mem_toList_iff, ← List.mem_reverse, hpending]
      exact List.mem_cons_self
    have hle := h.pending hq
    rw [List.dropWhile_cons, if_neg (by simp; omega)]

theorem Site.extends_inside (cells' : List Value) (x : Scene) :
    Extends (c.state cells 0 [] x) ((c.inside function cells pc operands).state cells' 0 [] x) := by
  refine ⟨rfl, rfl, ?_, List.prefix_refl _, pc,
    [⟨function, 0, (c.inside function cells pc operands).below.length⟩], ?_⟩
  · exact ⟨operands.reverse ++ cells', by simp [Site.state, Site.inside]⟩
  · simp [State.frames, Site.state, Site.inside]

theorem Site.Stands.returnThrough_inside (h : c.Stands cells.length) (p : Program) (v : Value)
    (cells' : List Value) (x : Scene) :
    returnThrough p v ((c.inside function cells pc operands).state cells' 0 [] x) c.guards =
      some (.next (c.state cells pc (v :: operands) x)) := by
  have hleave : leaveFrame { (c.inside function cells pc operands).state cells' 0 [] x with
      guards := c.guards } v = .next (c.state cells pc (v :: operands) x) := by
    let below := c.below ++ cells ++ operands.reverse
    have hprefix : below.toArray.toList <+: (below ++ cells' ++ [].reverse).toArray.toList := by
      simp
    have hstack : resize (below ++ cells' ++ [].reverse).toArray below.length .nil =
        below.toArray := by
      have hsize : below.length = below.toArray.size := List.size_toArray.symm
      rw [resize_of_isPrefix hprefix (Nat.le_of_eq hsize), resize_of_size _ hsize]
    simp only [leaveFrame, Site.state, Site.inside, Array.back?_push, Array.pop_push]
    rw [hstack]
    simp [below]
  -- the guards are those of frames below, so the return passes none of them
  cases hguards : c.guards with
  | nil =>
    rw [hguards] at hleave
    rw [returnThrough, hleave]
  | cons g outer =>
    have hframe : g.frame ≤ c.callers.size := by
      have hfits := h.guards
      rw [hguards] at hfits
      exact hfits.1
    have hne : g.frame ≠ ((c.inside function cells pc operands).state cells' 0 [] x).depth := by
      simp only [Site.depth_state, Site.inside, Array.size_push]
      omega
    rw [hguards] at hleave
    rw [returnThrough, if_pos hne, hleave]

end

/-- A program has every function that a script declares, at the place that calls refer to. -/
structure Serves (S : Script) (p : Program) (functions : Array Function) : Prop where
  callee {i : Nat} {name : Text} {header : Function} :
    functions.findIdx? (·.name == name) = some i → functions[i]? = some header →
    ∃ d L, S.declaration? name = some d ∧ p.functions[i + 1]? = some (S.function name) ∧
      L.program = p ∧ L.names.functions = functions ∧ Callee S L d (S.function name)

theorem activate_andThen (body : Exec) (locals : Locals) :
    activate (.andThen body (.ends (.ret .nil))) locals = activate body locals := by
  funext μ
  unfold activate Exec.andThen
  cases body ⟨locals, μ⟩ with
  | none => rfl
  | some r =>
    obtain ⟨ending, σ⟩ := r
    cases ending <;> rfl

theorem Exec.andThen_ret_ne_normal (body : Exec) (v : Value) (σ σ' : Store) :
    Exec.andThen body (.ends (.ret v)) σ ≠ some (.normal, σ') := by
  unfold Exec.andThen Exec.ends
  split
  · nofun
  · next hne => exact fun h => hne σ' h

section

variable {S : Script} {p : Program} {functions : Array Function} {L : Layout} {c : Site}
variable {cells operands args : List Value} {pc : Nat}

theorem Callee.performs {d : Declaration} {f : Function} {X : Activation} {rounds : Nat}
    {limits : Limits} (h : Callee S L d f) (hX : Works limits rounds L X c)
    (hc : c.Stands L.locals.length) (hsettled : c.Settled) (cells : List Value) :
    Performs limits rounds L c none 0 cells f.entry [] 0
      (.andThen (block X rounds d.body) (.ends (.ret .nil))) := by
  obtain ⟨lo, stop, m, hblock, hends⟩ := h.code
  simp only [Layout.Ends, h.isMain, Bool.false_eq_true, if_false] at hends
  obtain ⟨hload, hret, -⟩ := hends
  refine .andThen (performs_block d.body hX hc hblock (Nat.zero_le _) h.plain h.tidy
    (fun _ => hsettled) cells) fun cells' _ => ?_
  exact .before (runs_loads hload) (performs_ret hret hsettled .nil)

theorem step_call_refused {limits : Limits} {i : Nat} {f : Function} {e : ScriptError}
    (hat : L.At pc .call (i + 1) args.length) (hf : L.program.functions[i + 1]? = some f)
    (hrefused : refusal? limits f (c.callers.size + 1)
      (c.below.length + cells.length + operands.length) args.length = some e) (x : Scene) :
    ∃ stats, step L.program limits (c.state cells pc (args.reverse ++ operands) x) =
      raise L.program (c.state cells (pc + 1) (args.reverse ++ operands) ⟨x.world, stats⟩) e := by
  obtain ⟨stats, hstep⟩ := step_of_at limits c cells (args.reverse ++ operands) hat x
  refine ⟨stats, ?_⟩
  have hbase : c.below.length + cells.length + (args.length + operands.length) - args.length =
      c.below.length + cells.length + operands.length := by omega
  rw [hstep]
  simp only [execute, Machine.call, Instruction.of, toNat_ofNat hat.2.1, toNat_ofNat hat.2.2, hf,
    Option.bind_eq_bind, Option.bind_some, Site.size_state, List.length_append, List.length_reverse,
    Site.depth_state, hbase, hrefused]

theorem step_call {limits : Limits} {i : Nat} {f : Function} {cells' : List Value}
    (hat : L.At pc .call (i + 1) args.length) (hf : L.program.functions[i + 1]? = some f)
    (hrefused : refusal? limits f (c.callers.size + 1)
      (c.below.length + cells.length + operands.length) args.length = none)
    (hframe : frameStack? L.program f (c.below ++ cells ++ operands.reverse).length args.length
      (c.below ++ cells ++ operands.reverse ++ args).toArray =
        some (c.below ++ cells ++ operands.reverse ++ cells').toArray) (x : Scene) :
    ∃ stats, step L.program limits (c.state cells pc (args.reverse ++ operands) x) =
      some (.next ((c.inside (i + 1) cells (pc + 1) operands).state cells' f.entry []
        ⟨x.world, stats⟩)) := by
  obtain ⟨stats, hstep⟩ := step_of_at limits c cells (args.reverse ++ operands) hat x
  have hbase : c.below.length + cells.length + (args.length + operands.length) - args.length =
      c.below.length + cells.length + operands.length := by omega
  have hlength : (c.below ++ cells ++ operands.reverse).length =
      c.below.length + cells.length + operands.length := by
    rw [List.length_append, List.length_append, List.length_reverse]
  have hstack : (c.state cells (pc + 1) (args.reverse ++ operands) ⟨x.world, stats⟩).stack =
      (c.below ++ cells ++ operands.reverse ++ args).toArray := by
    simp [Site.state]
  rw [hlength, ← hstack] at hframe
  rw [hstep]
  simp only [execute, Machine.call, Instruction.of, toNat_ofNat hat.2.1, toNat_ofNat hat.2.2, hf,
    Option.bind_eq_bind, Option.bind_some, Site.size_state, List.length_append, List.length_reverse,
    Site.depth_state, hbase, hrefused, hframe]
  refine ⟨stats.map (·.countCall (c.callers.size + 2)), ?_⟩
  refine congrArg (fun s => some (Progress.next s)) ?_
  simp [Site.state, Site.inside, Nat.add_assoc]

theorem Performs.returns {limits : Limits} {K i q : Nat} {cells' : List Value} {body : Exec}
    {locals : Locals} {x : Scene} {μ : Memory} (hc : c.Stands cells.length)
    (h : Performs limits K L (c.inside i cells pc operands) none 0 cells' q [] 0
      (.andThen body (.ends (.ret .nil)))) (hcells : Matches L cells' locals)
    (hx : x.Shows L.program μ) :
    Computes L.program limits K c cells (fun _ => pc) (fun v => v :: operands)
      ((c.inside i cells pc operands).state cells' q [] x) (activate body locals μ) := by
  have hdoes := h x ⟨locals, μ⟩ hcells hx
  rw [← activate_andThen]
  unfold activate
  cases hr : Exec.andThen body (.ends (.ret .nil)) ⟨locals, μ⟩ with
  | none =>
    rw [hr] at hdoes
    exact hdoes
  | some r =>
    obtain ⟨ending, σ⟩ := r
    rw [hr] at hdoes
    obtain ⟨cells'', -, -, hleads⟩ := hdoes
    cases ending with
    | ret v =>
      refine hleads.trans ?_
      rintro s ⟨-, x', hx', hstep⟩
      have hreturn : step L.program limits s = some (.next (c.state cells pc (v :: operands) x')) :=
        hstep.trans (hc.returnThrough_inside i pc operands L.program v cells'' x')
      exact Leads.step hreturn (Leads.here ⟨x', hx', rfl⟩)
    | throw e =>
      refine hleads.trans ?_
      rintro s ⟨x', e', hx', he', hstep⟩
      refine Leads.here ⟨x', e', hx', he', hstep.trans ?_⟩
      exact unwind_of_extends (Site.extends_inside i pc operands cells'' x') (hc.fits 0 x')
    | exit way =>
      obtain ⟨_, _, _, _, _, _, _, hnone, _⟩ := hleads
      cases hnone
    | normal => exact absurd hr (Exec.andThen_ret_ne_normal body .nil _ σ)

/-- Calls do on the machine what they do in the text. -/
theorem answers (hS : Serves S p functions) (rounds : Nat) {L : Layout} {X : Activation} {c : Site}
    {cells : List Value} (hp : L.program = p) (hfunctions : L.names.functions = functions)
    (hcall : X.call = S.call rounds (c.callers.size + 1)) (hc : c.Stands cells.length) :
    Answers S.limits rounds L X c cells := by
  induction rounds generalizing L X c cells with
  | zero =>
    intro pc name args operands _ x μ _
    rw [hcall]
    exact ⟨_, rfl⟩
  | succ rounds ih =>
    intro pc name args operands hcalls x μ hx
    obtain ⟨i, header, hat, hindex, hheader, -, -⟩ := hcalls
    rw [hfunctions] at hindex hheader
    obtain ⟨d, L', hd, hf, hp', hfunctions', hcallee⟩ := hS.callee hindex hheader
    rw [← hp] at hf
    rw [hcall, Script.call, hd]
    cases hrefused : refusal? S.limits (S.function name) (c.callers.size + 1)
        (c.below.length + cells.length + operands.length) args.length with
    | some e =>
      obtain ⟨stats, hstep⟩ := step_call_refused hat hf hrefused x
      have hraised := raised_of_step hc (hx.counted stats) hstep
      rw [refusal?_untraced hrefused] at hraised
      exact Leads.here hraised
    | none =>
      obtain ⟨cells', hcells, hframe⟩ := hcallee.frame (room_of_refusal? hrefused).2
        (arity_of_refusal? hrefused) (c.below ++ cells ++ operands.reverse)
      rw [hp', ← hp] at hframe
      obtain ⟨stats, hstep⟩ := step_call hat hf hrefused hframe x
      let X' : Activation :=
        { scope := ⟨false, d.parameters.map Parameter.name, S.known⟩
          base := c.below.length + cells.length + operands.length + (S.function name).localCount
          call := S.call rounds (c.callers.size + 1 + 1) }
      have hworks : Works S.limits rounds L' X' (c.inside (i + 1) cells (pc + 1) operands) := by
        refine ⟨hcallee.names, ?_, fun {guards pending cells''} hstands hlength => ?_⟩
        · simp [X', Site.inside, hcallee.locals, Nat.add_assoc]
        · refine ih hp' hfunctions' ?_ (hlength ▸ hstands)
          simp [X', Site.inside]
      have hperforms := hcallee.performs hworks (hc.inside (i + 1) (pc + 1) operands _)
        (hc.settled_inside (i + 1) (pc + 1) operands) cells'
      have hscene : Scene.Shows L'.program ⟨x.world, stats⟩ μ := by
        rw [hp', ← hp]
        exact hx.counted stats
      have hreturns := hperforms.returns hc hcells hscene
      rw [hp', ← hp] at hreturns
      -- the call itself is the step that makes up for the round it takes
      exact hreturns.step hstep

end

end Meaning
end ScriptMachine
