import ScriptMachine.Proofs.Machine.Transfer

namespace ScriptMachine
namespace Machine
open Verify

/-- The instruction at an address of a function, with its demands met. -/
structure Poised (p : Program) (f : Function) (φ : Assignment) (pc : Nat) (state : FlowState)
    (op : Opcode) (ins : Instruction) : Prop where
  inside : f.contains pc
  code : p.code[pc]? = some ins
  decoded : ins.op? = some op
  sound : Sound p f op ins state.depth
  met : ∃ owned, ∀ d ∈ successorDemands p f pc op ins state, d.Met f owned φ

section

variable {loose : Prop} {p : Program} {limits : Limits} {maxStack pc depth table : Nat}
variable {s s' : State} {f : Function} {φ : Assignment} {state : FlowState}
    {scopes outer : List Scope}
variable {slots : List (Option Pending)} {op : Opcode} {ins : Instruction}

theorem poised_of_flow (hp : Verified p) {index : Nat} (hf : p.functions[index]? = some f)
    (hflow : p.flowState? index pc = some state) :
    ∃ op ins, Poised p f (p.flowState? index) pc state op ins := by
  obtain ⟨owned, htyping⟩ := hp.typing hf
  have hmet := htyping.met hflow
  obtain ⟨ins, op, hcode, hop, hproblem, hdemands⟩ := fetched_of_not_refused fun e he => hmet _ he
  rw [hdemands] at hmet
  exact ⟨op, ins, htyping.within hflow, hcode, hop, instructionProblem?_eq_none.1 hproblem, owned,
    hmet⟩

/-- A try construct is left where one is open, with as many operands as it began with, for an
address at which the scopes around it are open. -/
theorem Poised.popTry (h : Poised p f φ pc ⟨depth, scopes⟩ .popTry ins) :
    ∃ table outer, scopes = ⟨table, .guarded, depth⟩ :: outer ∧
      φ ins.a.toNat = some ⟨depth, outer⟩ := by
  obtain ⟨owned, hmet⟩ := h.met
  simp only [successorDemands, Instruction.pops, Instruction.pushes, h.decoded,
    Instruction.popsOf, Instruction.pushesOf] at hmet
  split at hmet
  case h_2 => exact (hmet _ List.mem_cons_self).elim
  case h_1 table entered outer =>
    split at hmet
    case isFalse => exact (hmet _ List.mem_cons_self).elim
    case isTrue heq =>
      subst heq
      have hflow := (hmet _ List.mem_cons_self).2
      simp only [Int.sub_zero, Int.add_zero, Int.toNat_natCast] at hflow
      exact ⟨table, outer, rfl, hflow⟩

theorem Poised.endFinally (h : Poised p f φ pc ⟨depth, scopes⟩ .endFinally ins) :
    ∃ table outer, scopes = ⟨table, .cleanup, depth⟩ :: outer := by
  obtain ⟨owned, hmet⟩ := h.met
  simp only [successorDemands] at hmet
  split at hmet
  case h_2 => exact (hmet _ List.mem_cons_self).elim
  case h_1 table entered outer =>
    split at hmet
    case isFalse => exact (hmet _ List.mem_cons_self).elim
    case isTrue heq =>
      subst heq
      exact ⟨table, outer, rfl⟩

theorem flow_of_fallThrough {owned : Nat → Prop} (h : ∀ d ∈ fallThrough f pc state,
    d.Met f owned φ) : φ (pc + 1) = some state := by
  unfold fallThrough at h
  split at h
  · exact (h _ List.mem_cons_self).elim
  · exact (h _ List.mem_cons_self).2

theorem tableTyped_of_met {owned : Nat → Prop} {outer : FlowState} (htable : table < p.tries.size)
    (h : ∀ d ∈ tryDemands p f pc table outer, d.Met f owned φ) : TableTyped p φ table outer := by
  have hget : p.tries.getD table {} = p.tries[table] := by simp [htable]
  simp only [tryDemands, hget, List.cons_append, List.mem_cons, List.mem_append, List.mem_map] at h
  refine ⟨p.tries[table], Array.getElem?_eq_getElem htable, ?_, ?_⟩
  · intro clause hclause
    have hmet := h _ (.inr (.inl ⟨clause, hclause, rfl⟩))
    unfold clauseDemand at hmet
    split at hmet
    · exact hmet.elim
    · next hfilter =>
      split at hmet
      · refine ⟨fun hne => ?_, hmet.2⟩
        have hsome := fun hnone => hfilter ⟨hne, hnone⟩
        exact Option.isSome_iff_ne_none.2 fun hnone => hsome (Option.isNone_iff_eq_none.2 hnone)
      · exact hmet.elim
  · intro address haddress
    simp only [cleanupDemands, haddress] at h
    split at h
    · exact (h _ (.inr (.inr List.mem_cons_self))).2
    · exact (h _ (.inr (.inr List.mem_cons_self))).elim

theorem Standing.lands_in {target : Nat} {state' : FlowState} {slots' : List (Option Pending)}
    (h : Standing loose p maxStack s f state slots)
    (hframe : s'.frame = { s.frame with ip := target }) (hcallers : s'.callers = s.callers)
    (hframed : Framed loose p maxStack (s.frame :: s.frames.tail) state'.scopes s'.guards slots')
    (hwaiting : s'.waiting = live slots') (hglobals : s'.world.globals.size = s.world.globals.size)
    (hflow : p.flowState? s.frame.function target = some state')
    (hsize : s'.stack.size = s.frame.base + f.localCount + state'.depth)
    (hagree : Agree s.frame.base s.stack s'.stack)
    (hpassage : Passage p s state.scopes slots s' state'.scopes slots') :
    Lands loose p maxStack s state.scopes slots (some (.next s')) := by
  have hframes : s'.frames = { s.frame with ip := target } :: s.frames.tail := by
    simp [State.frames, hframe, hcallers]
  refine .next slots' (f := f) ⟨?_, ?_, ?_, ?_, hwaiting, hglobals.trans h.globals⟩ hpassage
    ⟨s.frame, ?_⟩ fun _ => hagree
  · rw [hframe]
    exact h.function
  · rw [hframe]
    exact hflow
  · rw [hframe]
    exact hsize
  · rw [hframes]
    exact hframed.move rfl rfl
  · rw [hframes]
    exact List.suffix_cons _ _

theorem passage_keep {scopes' : List Scope} {slots' : List (Option Pending)}
    (hcallers : s'.callers = s.callers) (hscopes : scopes' <:+ scopes) (hslots : slots' <:+ slots) :
    Passage p s scopes slots s' scopes' slots' := by
  refine .keep (remains_of_suffix hslots) ?_
  intro position table entered inner hopen
  unfold State.frames at hopen ⊢
  rw [hcallers] at hopen
  exact (OpenAt.move s.frame hopen).widen hscopes

theorem Standing.lands_at {target : Nat} (h : Standing loose p maxStack s f state slots)
    (hframe : s'.frame = { s.frame with ip := target }) (hcallers : s'.callers = s.callers)
    (hguards : s'.guards = s.guards) (hpending : s'.pending = s.pending)
    (hglobals : s'.world.globals.size = s.world.globals.size)
    (hflow : p.flowState? s.frame.function target = some ⟨depth, state.scopes⟩)
    (hsize : s'.stack.size = s.frame.base + f.localCount + depth)
    (hagree : Agree s.frame.base s.stack s'.stack) :
    Lands loose p maxStack s state.scopes slots (some (.next s')) := by
  refine h.lands_in hframe hcallers (hguards ▸ h.framed) ?_ hglobals hflow hsize hagree
    (passage_keep hcallers (List.suffix_refl _) (List.suffix_refl _))
  unfold State.waiting
  rw [hpending]
  exact h.waiting

theorem Standing.control (h : Standing loose p maxStack s f state slots)
    (hcontrol : SameControl (s.fetched op) s') :
    Framed loose p maxStack s'.frames state.scopes s'.guards slots ∧ s'.waiting = live slots ∧
      s'.world.globals.size = p.globals.size := by
  refine ⟨?_, ?_, hcontrol.globals.trans h.globals⟩
  · unfold State.frames
    rw [hcontrol.callers, hcontrol.guards]
    exact Framed.move h.framed (by rw [hcontrol.frame]; rfl) (by rw [hcontrol.frame]; rfl)
  · unfold State.waiting
    rw [hcontrol.pending]
    exact h.waiting

theorem Standing.lands_raise (e : ScriptError) (h : Standing loose p maxStack s f state slots)
    (hcontrol : SameControl (s.fetched op) s') (hle : s.frame.base ≤ s'.stack.size)
    (hagree : Agree s.frame.base s.stack s'.stack) :
    Lands loose p maxStack s state.scopes slots (raise p s' e) := by
  obtain ⟨hframed, hwaiting, hglobals⟩ := h.control hcontrol
  have hbase : s'.frame.base = s.frame.base := by rw [hcontrol.frame]; rfl
  have hlands := lands_of_raise e hframed hwaiting hglobals (by omega)
  exact hlands.before hcontrol.callers hbase hagree (List.suffix_refl _) (List.suffix_refl _)

theorem successorDemands_of_plain (htransfers : op.transfers = false) (hthrow : op ≠ .throw) :
    successorDemands p f pc op ins state =
      fallThrough f pc ⟨(state.depth - ins.pops + ins.pushes).toNat, state.scopes⟩ := by
  cases op with
  | jump | jumpIfFalse | call | ret | pushTry | popTry | endFinally | halt => cases htransfers
  | throw => exact absurd rfl hthrow
  | _ => rfl

theorem pops_nonneg (hop : ins.op? = some op) (h : Sound p f op ins depth) : 0 ≤ ins.pops := by
  obtain ⟨hrange, hrangeB, -⟩ := h
  simp only [Instruction.pops, hop]
  cases op <;> simp only [Instruction.popsOf, Opcode.kindA, Opcode.kindB,
    InRange] at hrange hrangeB ⊢ <;>
    omega

theorem pushes_nonneg (ins : Instruction) : 0 ≤ ins.pushes := by
  unfold Instruction.pushes
  split
  · next op _ => cases op <;> simp [Instruction.pushesOf]
  · exact Int.le_refl 0

theorem Standing.lands_plain (h : Standing loose p maxStack s f state slots)
    (hins : Poised p f (p.flowState? s.frame.function) s.frame.ip state op ins)
    (htransfers : op.transfers = false) (hthrow : op ≠ .throw) :
    Lands loose p maxStack s state.scopes slots (execute p limits (s.fetched op) op ins) := by
  obtain ⟨owned, hmet⟩ := hins.met
  rw [successorDemands_of_plain htransfers hthrow] at hmet
  have hflow := flow_of_fallThrough hmet
  have hpops := hins.sound.pops
  have heffect : Effect p (s.fetched op) s.frame.base ins.pops.toNat ins.pushes.toNat
      (op.checks = true) (execute p limits (s.fetched op) op ins) :=
    effect_execute hins.decoded htransfers hins.sound h.size h.globals
  generalize execute p limits (s.fetched op) op ins = result at heffect
  cases heffect with
  | @next s' hcontrol hsize hagree =>
    refine h.lands_at hcontrol.frame hcontrol.callers hcontrol.guards hcontrol.pending
      hcontrol.globals hflow ?_ hagree
    have hsize' := h.size
    have hpops' := pops_nonneg hins.decoded hins.sound
    have hpushes := pushes_nonneg ins
    simp only [State.fetched] at hsize
    omega
  | raise hcontrol hagree hle =>
    exact h.lands_raise _ hcontrol hle hagree

theorem default_of_drop {argc : Nat} (h : f.requiredArity ≤ argc) {d : Int32}
    (hd : d ∈ (f.defaults.take f.arity).drop argc) : d ≠ noIndex := by
  have hsplit : f.defaults.take f.arity =
      ((f.defaults.take f.arity).reverse.dropWhile (· != noIndex)).reverse ++
        ((f.defaults.take f.arity).reverse.takeWhile (· != noIndex)).reverse := by
    rw [← List.reverse_append, List.takeWhile_append_dropWhile, List.reverse_reverse]
  have hlength : ((f.defaults.take f.arity).reverse.dropWhile (· != noIndex)).reverse.length ≤
      argc := by
    simpa [Function.requiredArity] using h
  rw [hsplit, List.drop_append, List.drop_eq_nil_of_le hlength, List.nil_append] at hd
  have hmem := List.mem_reverse.1 (List.mem_of_mem_drop hd)
  simpa using List.all_eq_true.1 List.all_takeWhile d hmem

theorem mapM_constant?_isSome {ds : List Int32} (h : ∀ d ∈ ds, (p.constant? d).isSome) :
    ∃ cs, ds.mapM p.constant? = some cs := by
  induction ds with
  | nil => exact ⟨[], rfl⟩
  | cons d ds ih =>
    obtain ⟨c, hc⟩ := Option.isSome_iff_exists.1 (h d List.mem_cons_self)
    obtain ⟨cs, hcs⟩ := ih fun d' hd' => h d' (List.mem_cons_of_mem d hd')
    exact ⟨c :: cs, by simp [hc, hcs]⟩

theorem frameStack?_of_laid {argc base : Nat} {stack : Array Value} (hlaid : Laid p f)
    (hargc : f.requiredArity ≤ argc) (hbase : base ≤ stack.size) :
    ∃ stack', frameStack? p f base argc stack = some stack' ∧ stack'.size = base + f.localCount ∧
      Agree base stack stack' := by
  obtain ⟨cs, hcs⟩ := mapM_constant?_isSome fun d hd =>
    hlaid.default_mem (List.mem_of_mem_take (List.mem_of_mem_drop hd)) (default_of_drop hargc hd)
  refine ⟨_, by simp only [frameStack?, hcs, Option.bind_eq_bind, Option.bind_some]; rfl,
    size_resize _ _ _, ?_⟩
  have hlist : (stack ++ cs.map Constant.toValue).toList =
      stack.toList ++ cs.map Constant.toValue :=
    Array.toList_appendList
  have hle : base ≤ (stack ++ cs.map Constant.toValue).size := by
    have := congrArg List.length hlist
    simp only [Array.length_toList, List.length_append] at this
    omega
  have happend : Agree base stack (stack ++ cs.map Constant.toValue) := by
    intro i hi
    rw [← Array.getElem?_toList, hlist, List.getElem?_append_left (by simp; omega),
      Array.getElem?_toList]
  exact happend.trans (agree_resize _ (by omega) hle)

theorem frameStack?_of_mapM {below args : List Value} {missing : List Constant}
    (hmissing : ((f.defaults.take f.arity).drop args.length).mapM p.constant? =
      some missing) (hcount : args.length + missing.length = f.arity) (hle :
      f.arity ≤ f.localCount) :
    frameStack? p f below.length args.length (below ++ args).toArray =
      some (below ++ (args ++ missing.map Constant.toValue ++
        List.replicate (f.localCount - f.arity) Value.nil)).toArray := by
  have hframe : (below ++ args).toArray ++ missing.map Constant.toValue =
      (below ++ (args ++ missing.map Constant.toValue)).toArray := by
    apply Array.ext'
    rw [Array.toList_appendList]
    exact List.append_assoc _ _ _
  have hsize : (below ++ (args ++ missing.map Constant.toValue)).toArray.size =
      below.length + f.arity := by
    simp
    omega
  simp only [frameStack?, hmissing, Option.bind_eq_bind, Option.bind_some, Option.pure_def]
  rw [hframe, resize_of_size_le (by rw [hsize]; omega), hsize, Nat.add_sub_add_left]
  simp

theorem OpenAt.of_call {frame caller caller' : Frame} {rest : List Frame} {inner : List Scope}
    {position : Nat} {scope : Scope}
    (h : OpenAt p (frame :: caller' :: rest) [] position (scope :: inner))
    (hflow : p.flowState? caller'.function caller'.ip = some ⟨depth, scopes⟩) :
    OpenAt p (caller :: rest) scopes position (scope :: inner) := by
  obtain ⟨above, lower, rest', hframes, hlength, hfirst, hlater⟩ := h
  cases above with
  | nil => simpa using hfirst rfl
  | cons top above =>
    obtain ⟨state, hstate, hinner⟩ := hlater (by simp)
    obtain ⟨-, hframes⟩ := List.cons.inj hframes
    cases above with
    | nil =>
      obtain ⟨rfl, rfl⟩ := List.cons.inj hframes
      cases hflow.symm.trans hstate
      exact ⟨[], caller, rest, rfl, hlength, fun _ => hinner, by simp⟩
    | cons top' above =>
      obtain ⟨-, rfl⟩ := List.cons.inj hframes
      exact ⟨caller :: above, lower, rest', rfl, hlength, by simp, fun _ => ⟨state, hstate, hinner⟩⟩

theorem room_of_refusal? {frames base argc : Nat} (h : refusal? limits f frames base argc = none) :
    base + f.localCount + f.maxStackDepth ≤ limits.maxStack ∧ f.requiredArity ≤ argc := by
  unfold refusal? at h
  split at h
  · cases h
  · split at h
    · cases h
    · split at h
      · cases h
      · omega

theorem arity_of_refusal? {frames base argc : Nat} (h : refusal? limits f frames base argc = none) :
    argc ≤ f.arity := by
  unfold refusal? at h
  split at h
  · cases h
  · split at h
    · cases h
    · omega

theorem Poised.call (h : Poised p f φ pc state .call ins) :
    ∃ callee, p.functions[ins.a.toNat]? = some callee ∧ ins.b.toNat ≤ state.depth ∧
      φ (pc + 1) = some ⟨state.depth - ins.b.toNat + 1, state.scopes⟩ := by
  obtain ⟨owned, hmet⟩ := h.met
  have hflow := flow_of_fallThrough hmet
  have hrange := h.sound.rangeA
  have hrangeB := h.sound.rangeB
  have hpops := h.sound.pops
  simp only [Opcode.kindA, Opcode.kindB, InRange] at hrange hrangeB
  simp only [Instruction.pops, Instruction.pushes, h.decoded, Instruction.popsOf,
    Instruction.pushesOf] at hpops hflow
  have hnat := toNat_of_nonneg hrange.1
  have hnatB := toNat_of_nonneg hrangeB
  refine ⟨_, Array.getElem?_eq_getElem (by omega), by omega, ?_⟩
  rw [hflow]
  congr 2
  omega

theorem Standing.lands_call (hp : Verified p) (h : Standing loose p limits.maxStack s f state slots)
    (hins : Poised p f (p.flowState? s.frame.function) s.frame.ip state .call ins) :
    Lands loose p limits.maxStack s state.scopes slots
      (execute p limits (s.fetched .call) .call ins) := by
  obtain ⟨callee, hcallee, hargc, hflow⟩ := hins.call
  have hsize := h.size
  simp only [execute, call, hcallee, Option.bind_eq_bind, Option.bind_some]
  cases hrefusal : refusal? limits callee ((s.fetched .call).depth + 1)
      ((s.fetched .call).stack.size - ins.b.toNat) ins.b.toNat with
  | some e =>
    exact h.lands_raise e (SameControl.refl (s.fetched .call)) (by simp [State.fetched]; omega)
      fun _ _ => rfl
  | none =>
    obtain ⟨stack, hstack, hsize', hagree⟩ : ∃ stack, frameStack? p callee
        (s.stack.size - ins.b.toNat) ins.b.toNat s.stack = some stack ∧
        stack.size = s.stack.size - ins.b.toNat + callee.localCount ∧
        Agree (s.stack.size - ins.b.toNat) s.stack stack :=
      frameStack?_of_laid (hp.laid hcallee) (room_of_refusal? hrefusal).2 (by omega)
    obtain ⟨owned', htyping⟩ := hp.typing hcallee
    simp only [State.fetched, hstack, Option.bind_some]
    refine .next slots (f := callee) ⟨hcallee, htyping.entry, hsize', ?_, h.waiting, h.globals⟩
      (.keep (remains_of_suffix (List.suffix_refl _)) ?_) ⟨{ s.frame with ip := s.frame.ip + 1 },
      ?_⟩ fun _ => hagree.mono (by omega)
    · have hholds : Holds loose p limits.maxStack ⟨ins.a.toNat, callee.entry,
          s.stack.size - ins.b.toNat⟩
          callee (s.frames.tail.length + 1) (live slots).length [] [] [] :=
        ⟨hcallee, (room_of_refusal? hrefusal).1, trivial, .nil⟩
      have hsuspended : Suspended p { s.frame with ip := s.frame.ip + 1 }
        (s.stack.size - ins.b.toNat)
          state.scopes := ⟨f, _, h.function, hflow, by simp only; omega⟩
      simpa [State.frames] using Framed.called hholds hsuspended (Framed.move h.framed rfl rfl)
    · intro position table entered inner hopen
      simp only [State.frames, Array.toList_push, List.reverse_append, List.reverse_singleton,
        List.singleton_append] at hopen
      exact hopen.of_call hflow
    · simp [State.frames]

theorem passage_enter {t : TryTable} {address : Int32} (completion : Completion)
    (ht : p.tries[table]? = some t) (haddress : t.cleanup? = some address)
    (hip : s'.frame.ip = address.toInt.toNat) (hcallers : s'.callers = s.callers) :
    Passage p s (⟨table, .guarded, depth⟩ :: outer) slots s' (⟨table, .cleanup, depth⟩ :: outer)
      (some ⟨s'.depth, completion⟩ :: slots) := by
  refine .enter ht haddress hip (remains_of_suffix (List.suffix_refl _)) ?_ ?_
  · intro position table' entered inner hopen
    unfold State.frames at hopen ⊢
    rw [hcallers] at hopen
    exact (OpenAt.move s.frame hopen).widen (List.suffix_cons _ _)
  · refine ⟨[], s.frame, s.callers.toList.reverse, rfl, ?_, fun _ => List.suffix_refl _, by simp⟩
    simp [State.depth, hcallers]

theorem Standing.lands_pushTry (h : Standing loose p maxStack s f state slots)
    (hins : Poised p f (p.flowState? s.frame.function) s.frame.ip state .pushTry ins) :
    Lands loose p maxStack s state.scopes slots
      (execute p limits (s.fetched .pushTry) .pushTry ins) := by
  obtain ⟨owned, hmet⟩ := hins.met
  have hrange := hins.sound.rangeA
  simp only [Opcode.kindA, InRange] at hrange
  have hnat := toNat_of_nonneg hrange.1
  have hdepth : ((state.depth : Int) - ins.pops + ins.pushes).toNat = state.depth := by
    simp [Instruction.pops, Instruction.pushes, hins.decoded, Instruction.popsOf,
      Instruction.pushesOf]
  simp only [successorDemands, hdepth] at hmet
  have htable := tableTyped_of_met (by omega) fun d hd => hmet d (List.mem_append_left _ hd)
  have hflow := flow_of_fallThrough fun d hd => hmet d (List.mem_append_right _ hd)
  have hcount : s.pending.size = (live slots).length := by
    have := congrArg List.length h.waiting
    simpa [State.waiting] using this
  have hframed := Framed.guard .body h.framed h.function htable rfl rfl
  refine h.lands_in rfl rfl ?_ h.waiting rfl hflow h.size (fun _ _ => rfl)
    (.keep (remains_of_suffix (List.suffix_refl _)) ?_)
  · simpa [State.fetched, State.depth, State.frames, h.size, hcount] using hframed
  · intro position table entered inner hopen
    rcases OpenAt.cons_cases (s := s) (OpenAt.move s.frame hopen) with ⟨-, heq⟩ | houter
    · cases heq
    · exact houter

theorem Standing.innermost_guard (h : Standing loose p maxStack s f state slots)
    (hscopes : state.scopes = ⟨table, .guarded, depth⟩ :: outer) :
    ∃ g guards, s.guards = g :: guards ∧ g.frame = s.depth ∧ g.table = table ∧
      TableTyped p (p.flowState? s.frame.function) table ⟨depth, outer⟩ ∧
      Framed loose p maxStack (s.frame :: s.frames.tail) outer guards slots := by
  obtain ⟨f', own, guards, mine, slots', hown, rfl, hfocus⟩ := Framed.focus h.framed
  have htracks := hfocus.holds.tracks
  have htyped := hfocus.holds.typed
  rw [hscopes] at htracks htyped
  generalize hmine : mine = mine' at htracks
  cases htracks with
  | @guarded _ _ _ own' _ phase htracks =>
    subst hmine
    exact ⟨_, own' ++ guards, hown, by simp [State.depth], rfl, htyped.1,
      hfocus.framed s.frame rfl rfl htracks htyped.2⟩

theorem discharges_of_guarded (h : cleanups scopes = 0) : Discharges loose p scopes := by
  have hguarded : ∀ scope ∈ scopes, scope.kind = .guarded := by
    intro scope hscope
    have hne := List.countP_eq_zero.1 h scope hscope
    cases hkind : scope.kind with
    | guarded => rfl
    | cleanup => simp [hkind] at hne
  intro table depth outer hs _
  have houter : ∀ scope ∈ outer, scope.kind = .guarded := fun scope hscope =>
    hguarded scope (hs.mem (List.mem_cons_of_mem _ hscope))
  refine ⟨List.pairwise_iff_forall_sublist.2 fun hsub _ => houter _ (hsub.subset (by simp)), ?_⟩
  · rintro ⟨scope, hscope, hkind⟩
    rw [houter scope hscope] at hkind
    cases hkind

theorem taken_of_waiting {xs : Array Pending} {pending : Pending}
    (h : xs.toList.reverse = live (some pending :: slots)) :
    xs.back? = some pending ∧ xs.pop.toList.reverse = live slots := by
  have hlist : xs.toList = (live slots).reverse ++ [pending] := by
    rw [← List.reverse_reverse xs.toList, h]
    simp [live]
  obtain ⟨xs⟩ := xs
  simp only at hlist
  subst hlist
  simp

/-- The last completion is that of the innermost finally block of the executing frame. Once it is
taken, the scopes are those outside of the block, less those that a return has given up. -/
theorem Standing.innermost_slot (h : Standing loose p maxStack s f state slots)
    (hscopes : state.scopes = ⟨table, .cleanup, depth⟩ :: outer) :
    ∃ pending slots' outer', slots' <:+ slots ∧ outer' <:+ state.scopes ∧
      slots.head? = some (some pending) ∧ s.pending.back? = some pending ∧ pending.frame = s.depth ∧
      s.pending.pop.toList.reverse = live slots' ∧
      Framed loose p maxStack (s.frame :: s.frames.tail) outer' s.guards slots' ∧
      (∀ target, pending.completion = .jump target →
        outer' = outer ∧ p.flowState? s.frame.function target = some ⟨depth, outer⟩) ∧
      ∀ v, pending.completion = .result v → Discharges loose p outer' := by
  obtain ⟨f', own, guards, mine, slots', hown, rfl, hfocus⟩ := Framed.focus h.framed
  have htracks := hfocus.holds.tracks
  have htyped := hfocus.holds.typed
  have hwaiting : s.pending.toList.reverse = live (mine ++ slots') := h.waiting
  rw [hscopes] at htracks htyped ⊢
  generalize hmine : mine = mine' at htracks
  cases htracks with
  | @cleanup _ _ _ _ mine' completion htracks hresume =>
    subst hmine
    obtain ⟨hback, hpop⟩ := taken_of_waiting hwaiting
    have hframed := hfocus.framed s.frame rfl rfl htracks htyped.2
    refine ⟨_, mine' ++ slots', outer, List.suffix_cons _ _, List.suffix_cons _ _, rfl,
      hback, length_callers s, hpop, hown ▸ hframed, ?_, ?_⟩
    · rintro target ⟨⟩
      exact ⟨rfl, hresume⟩
    · rintro v ⟨⟩
      exact hresume.elim
  | @returning _ _ dropped outer' _ v htracks hdropped hloose =>
    subst hmine
    obtain ⟨hback, hpop⟩ := taken_of_waiting hwaiting
    have hsuffix : outer' <:+ ⟨table, .cleanup, depth⟩ :: (dropped ++ outer') :=
      (List.suffix_append dropped outer').trans (List.suffix_cons _ _)
    have hframed : Framed loose p maxStack (s.frame :: s.frames.tail) outer'
        (own ++ guards) slots' :=
      hfocus.framed s.frame rfl rfl htracks (htyped.suffix hsuffix)
    refine ⟨_, slots', outer', ⟨some _ :: List.replicate dropped.length none, rfl⟩, hsuffix, rfl,
      hback, length_callers s, by simpa using hpop, hown ▸ hframed, by simp, ?_⟩
    intro _ _
    exact discharges_of_guarded htracks.length_slots.symm

theorem Standing.lands_popTry (h : Standing loose p maxStack s f state slots)
    (hins : Poised p f (p.flowState? s.frame.function) s.frame.ip state .popTry ins) :
    Lands loose p maxStack s state.scopes slots
      (execute p limits (s.fetched .popTry) .popTry ins) := by
  obtain ⟨depth, scopes⟩ := state
  obtain ⟨table, outer, rfl, hflow⟩ := hins.popTry
  obtain ⟨g, guards, hguards, hg, rfl, htable, hframed⟩ := h.innermost_guard rfl
  have htable' := htable
  obtain ⟨t, ht, -, hcleanup⟩ := htable'
  simp only [execute, popTry, State.fetched, State.depth, hguards, ht]
  rw [if_neg (by simp [hg, State.depth])]
  cases haddress : t.cleanup? with
  | none =>
    exact h.lands_in rfl rfl hframed h.waiting rfl hflow h.size (fun _ _ => rfl)
      (passage_keep rfl (List.suffix_cons _ _) (List.suffix_refl _))
  | some address =>
    have hwaiting : s.pending.toList.reverse = live slots := h.waiting
    have henter := hframed.enter s.frame (.jump ins.a.toNat) htable hflow rfl rfl
    rw [length_callers] at henter
    refine h.lands_in rfl rfl henter ?_ rfl (hcleanup address haddress) h.size (fun _ _ => rfl)
      (passage_enter (.jump ins.a.toNat) ht haddress rfl rfl)
    simp [State.waiting, State.jump, State.depth, hwaiting, live, hg]

theorem Standing.lands_endFinally (h : Standing loose p maxStack s f state slots)
    (hins : Poised p f (p.flowState? s.frame.function) s.frame.ip state .endFinally ins) :
    Lands loose p maxStack s state.scopes slots
      (execute p limits (s.fetched .endFinally) .endFinally ins) := by
  obtain ⟨depth, scopes⟩ := state
  obtain ⟨table, outer, rfl⟩ := hins.endFinally
  have hle : s.frame.base ≤ s.stack.size := by
    have := h.size
    omega
  obtain ⟨pending, slots', outer', hslots, houter, -, hback, hframe, hwaiting, hframed, hresume⟩ :=
    h.innermost_slot rfl
  have hback' : (s.fetched .endFinally).pending.back? = some pending := hback
  have hframe' : ¬pending.frame ≠ (s.fetched .endFinally).depth := by
    rw [hframe]
    simp [State.fetched, State.depth]
  simp only [execute, endFinally, hback', if_neg hframe']
  cases hcompletion : pending.completion with
  | jump target =>
    obtain ⟨rfl, hflow⟩ := hresume.1 target hcompletion
    exact h.lands_in rfl rfl hframed hwaiting rfl hflow h.size (fun _ _ => rfl)
      (passage_keep rfl houter hslots)
  | rethrow e =>
    have hlands := lands_of_raise e (s := { s.fetched .endFinally with pending := s.pending.pop })
      (hframed.move rfl rfl) hwaiting h.globals hle
    exact hlands.before rfl rfl (fun _ _ => rfl) houter hslots
  | result v =>
    have hlands := lands_completeReturn
      (s := { s.fetched .endFinally with pending := s.pending.pop }) v (hframed.move rfl rfl)
      hwaiting h.globals hle (hresume.2 v hcompletion)
    exact hlands.before rfl rfl (fun _ _ => rfl) houter hslots

theorem taken_throw (h : 1 ≤ s.stack.size) : ∃ s' e, throw p s = raise p s' e ∧ Taken 1 s s' := by
  obtain ⟨v, s₁, hpop, htaken⟩ := taken_pop h
  simp only [throw, hpop, Option.bind_eq_bind, Option.bind_some]
  cases v with
  | error r => exact ⟨s₁, _, rfl, htaken⟩
  | _ => exact ⟨s₁, _, rfl, htaken⟩

/-- Every return instruction that control comes to leaves the guards in order. -/
def ReturnsDischarge (loose : Prop) (p : Program) : Prop :=
  ∀ (index pc : Nat) (ins : Instruction) (state : FlowState), p.code[pc]? = some ins →
    ins.op? = some .ret → p.flowState? index pc = some state → Discharges loose p state.scopes

theorem Standing.lands_jump (h : Standing loose p maxStack s f state slots)
    (hins : Poised p f (p.flowState? s.frame.function) s.frame.ip state .jump ins) :
    Lands loose p maxStack s state.scopes slots (execute p limits (s.fetched .jump) .jump ins) := by
  obtain ⟨owned, hmet⟩ := hins.met
  have hflow := (hmet _ List.mem_cons_self).2
  simp only [Instruction.pops, Instruction.pushes, hins.decoded, Instruction.popsOf,
    Instruction.pushesOf, Int.sub_zero, Int.add_zero, Int.toNat_natCast] at hflow
  exact h.lands_at rfl rfl rfl rfl rfl hflow h.size fun _ _ => rfl

theorem Standing.lands_jumpIfFalse (h : Standing loose p maxStack s f state slots)
    (hins : Poised p f (p.flowState? s.frame.function) s.frame.ip state .jumpIfFalse ins) :
    Lands loose p maxStack s state.scopes slots
      (execute p limits (s.fetched .jumpIfFalse) .jumpIfFalse ins) := by
  obtain ⟨owned, hmet⟩ := hins.met
  have hjump := (hmet _ List.mem_cons_self).2
  have hnext := flow_of_fallThrough fun d hd => hmet d (List.mem_cons_of_mem _ hd)
  have hpops := hins.sound.pops
  simp only [Instruction.pops, Instruction.pushes, hins.decoded, Instruction.popsOf,
    Instruction.pushesOf] at hjump hnext hpops
  have hsize := h.size
  obtain ⟨v, s₁, hpop, htaken⟩ := taken_pop (s := s.fetched .jumpIfFalse)
    (by simp [State.fetched]; omega)
  have hcontrol := htaken.control
  have hsize₁ := htaken.size
  simp only [State.fetched] at hsize₁
  simp only [execute, hpop, Option.map_some]
  split
  · exact h.lands_at hcontrol.frame hcontrol.callers hcontrol.guards hcontrol.pending
      hcontrol.globals hnext (by omega) (htaken.agree.mono (by omega))
  · refine h.lands_at ?_ hcontrol.callers hcontrol.guards hcontrol.pending
      hcontrol.globals hjump (by simp only [State.jump]; omega) (htaken.agree.mono (by omega))
    simp [State.jump, hcontrol.frame, State.fetched]

theorem Standing.lands_ret (hreturn : ReturnsDischarge loose p)
    (h : Standing loose p maxStack s f state slots)
    (hins : Poised p f (p.flowState? s.frame.function) s.frame.ip state .ret ins) :
    Lands loose p maxStack s state.scopes slots (execute p limits (s.fetched .ret) .ret ins) := by
  have hpops := hins.sound.pops
  simp only [Instruction.pops, hins.decoded, Instruction.popsOf] at hpops
  have hsize := h.size
  obtain ⟨v, s₁, hpop, htaken⟩ := taken_pop (s := s.fetched .ret) (by simp [State.fetched]; omega)
  obtain ⟨hframed, hwaiting, hglobals⟩ := h.control htaken.control
  have hsize₁ := htaken.size
  simp only [State.fetched] at hsize₁
  have hbase : s₁.frame.base = s.frame.base := by rw [htaken.control.frame]; rfl
  simp only [execute, hpop, Option.bind_some]
  have hlands := lands_completeReturn v hframed hwaiting hglobals (by omega)
    (hreturn _ _ _ _ hins.code hins.decoded h.flow)
  exact hlands.before htaken.control.callers hbase (htaken.agree.mono (by omega))
    (List.suffix_refl _) (List.suffix_refl _)

theorem Standing.lands_throw (h : Standing loose p maxStack s f state slots)
    (hins : Poised p f (p.flowState? s.frame.function) s.frame.ip state .throw ins) :
    Lands loose p maxStack s state.scopes slots
      (execute p limits (s.fetched .throw) .throw ins) := by
  have hpops := hins.sound.pops
  simp only [Instruction.pops, hins.decoded, Instruction.popsOf] at hpops
  have hsize := h.size
  obtain ⟨s₁, e, hraise, htaken⟩ := taken_throw (p := p) (s := s.fetched .throw)
    (by simp [State.fetched]; omega)
  have hsize₁ := htaken.size
  simp only [State.fetched] at hsize₁
  simp only [execute, hraise]
  exact h.lands_raise e htaken.control (by omega) (htaken.agree.mono (by omega))

/-- The step lemma: a state that stands has a step, to a state that stands or to the end. -/
theorem Standing.lands_step (hp : Verified p) (hreturn : ReturnsDischarge loose p)
    (h : Standing loose p limits.maxStack s f state slots) :
    Lands loose p limits.maxStack s state.scopes slots (step p limits s) := by
  obtain ⟨op, ins, hins⟩ := poised_of_flow hp h.function h.flow
  rw [step_of_code hins.code hins.decoded]
  cases op with
  | call => exact h.lands_call hp hins
  | pushTry => exact h.lands_pushTry hins
  | popTry => exact h.lands_popTry hins
  | endFinally => exact h.lands_endFinally hins
  | halt => exact .done
  | jump => exact h.lands_jump hins
  | jumpIfFalse => exact h.lands_jumpIfFalse hins
  | ret => exact h.lands_ret hreturn hins
  | throw => exact h.lands_throw hins
  | _ => exact h.lands_plain hins rfl (by simp)

end

end Machine
end ScriptMachine
