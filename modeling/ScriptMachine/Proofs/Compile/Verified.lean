import ScriptMachine.Proofs.Compile.Typed
import ScriptMachine.Proofs.Compile.Assembled
import ScriptMachine.Proofs.Verify.Accepted

namespace ScriptMachine
namespace Compile

open Verify

/-- Every try table of a stretch of code is used in it. -/
def Guarded (L : Layout) (m m' : Mark) : Prop :=
  ∀ t, m.table ≤ t → t < m'.table → ∃ pc, m.pc ≤ pc ∧ pc < m'.pc ∧ L.At pc .pushTry t

theorem guarded_of_table {L : Layout} {m m' : Mark} (h : m'.table = m.table) : Guarded L m m' := by
  intro t ht ht'
  omega

theorem guarded_to (L : Layout) (m : Mark) (pc : Nat) : Guarded L m (m.to pc) :=
  guarded_of_table rfl

theorem Guarded.trans {L : Layout} {m m' m'' : Mark} (h : Guarded L m m') (h' : Guarded L m' m'')
    (hle : m.Le m') (hle' : m'.Le m'') : Guarded L m m'' := by
  intro t ht ht'
  by_cases hlt : t < m'.table
  · obtain ⟨pc, hpc, hpc', hat⟩ := h t ht hlt
    exact ⟨pc, hpc, Nat.lt_of_lt_of_le hpc' hle'.pc, hat⟩
  · obtain ⟨pc, hpc, hpc', hat⟩ := h' t (Nat.not_lt.1 hlt) ht'
    exact ⟨pc, Nat.le_trans hle.pc hpc, hpc', hat⟩

theorem Guarded.next {L : Layout} {m m' : Mark} (h : Guarded L (m.to (m.pc + 1)) m')
    (hle : (m.to (m.pc + 1)).Le m') : Guarded L m m' :=
  (guarded_to L m _).trans h m.le_next hle

mutual

theorem guarded_of_actionAt {L : Layout} : (a : Action) → ∀ {x m m'}, ActionAt L a x m m' →
    Guarded L m m'
  | .write _, _, m, _, ⟨_, _, _, h⟩ => h ▸ guarded_to L m _
  | .ask _, _, m, _, ⟨_, _, h⟩ => h ▸ guarded_to L m _
  | .set _ _, _, m, _, ⟨_, _, _, h⟩ => h ▸ guarded_to L m _
  | .setIndex _ _ _, _, m, _, ⟨_, _, _, _, _, _, _, h⟩ => h ▸ guarded_to L m _
  | .branch c yes no, _, m, _, ⟨q, hc, h⟩ => by
    have hq : m.Le (m.to (q + 1)) := m.le_to (Nat.le_succ_of_le (le_of_exprAt c hc))
    split at h
    · exact (guarded_to L m _).trans (guarded_of_blockAt yes h.2) hq (le_of_blockAt yes h.2)
    · obtain ⟨y, -, hyes, -, hno⟩ := h
      have hle := le_of_blockAt yes hyes
      have hle' := le_of_blockAt no hno
      have hfirst := (guarded_to L m _).trans (guarded_of_blockAt yes hyes) hq hle
      exact hfirst.trans ((guarded_of_blockAt no hno).next hle') (hq.trans hle)
        (y.le_next.trans hle')
  | .whileLoop c b, _, m, _, ⟨q, y, hc, _, hb, _, h⟩ => by
    have hq : m.Le (m.to (q + 1)) := m.le_to (Nat.le_succ_of_le (le_of_exprAt c hc))
    have hle := le_of_blockAt b hb
    have hbody := (guarded_to L m _).trans (guarded_of_blockAt b hb) hq hle
    rw [h]
    exact hbody.trans (guarded_to L y _) (hq.trans hle) y.le_next
  | .repeatLoop n b, _, m, _, ⟨slot, q, y, _, hn, _, _, _, _, _, hb, _, _, _, _, _, h⟩ => by
    have hq := le_of_exprAt n hn
    rw [h]
    intro t ht ht'
    obtain ⟨pc, hpc, hpc', hat⟩ := guarded_of_blockAt b hb t ht ht'
    dsimp only at hpc
    exact ⟨pc, by omega, Nat.lt_add_right 5 hpc', hat⟩
  | .exit _, _, m, _, ⟨_, _, _, _, h⟩ => h ▸ guarded_to L m _
  | .function _ _ _, _, m, _, h => guarded_of_table (by rw [show _ = m from h])
  | .use _ _, _, m, _, ⟨_, _, _, _, h⟩ => h ▸ guarded_to L m _
  | .ret none, _, m, _, ⟨_, _, h⟩ => h ▸ guarded_to L m _
  | .ret (some _), _, m, _, ⟨_, _, _, h⟩ => h ▸ guarded_to L m _
  | .guard b hs c, _, m, _, ⟨t, y, z, hpush, _, hb, _, hhs, hc⟩ => by
    have hle := le_of_blockAt b hb
    have hle' := le_of_catchesAt hs hhs
    have hle'' := le_of_cleanupAt c hc
    have hy : m.Le y := ⟨Nat.le_of_succ_le hle.pc, Nat.le_of_succ_le hle.table, hle.counter⟩
    have hbody : Guarded L m y := by
      intro t ht ht'
      rcases Nat.eq_or_lt_of_le ht with rfl | ht
      · exact ⟨m.pc, Nat.le_refl _, hle.pc, hpush⟩
      · obtain ⟨pc, hpc, hpc', hat⟩ := guarded_of_blockAt b hb t ht ht'
        exact ⟨pc, Nat.le_of_succ_le hpc, hpc', hat⟩
    have hrest := (guarded_of_catchesAt hs hhs).trans (guarded_of_cleanupAt c hc) hle' hle''
    exact hbody.trans (hrest.next (hle'.trans hle'')) hy (y.le_next.trans (hle'.trans hle''))
  | .throw _, _, m, _, ⟨_, _, _, h⟩ => h ▸ guarded_to L m _
  | .writeFile _ _, _, m, _, ⟨_, _, _, _, _, h⟩ => h ▸ guarded_to L m _

theorem guarded_of_catchesAt {L : Layout} : (hs : List Handler) → ∀ {x out cs m m'},
    CatchesAt L hs x out cs m m' → Guarded L m m'
  | [], _, _, _, m, _, ⟨_, h⟩ => guarded_of_table (by rw [h])
  | .mk typeName binder b :: rest, _, _, _, m, _, ⟨_, _, y, _, ⟨_, _, _, hb⟩, _, hrest⟩ => by
    have hle := le_of_blockAt b hb
    have hle' := le_of_catchesAt rest hrest
    have hhandler := (guarded_of_blockAt b hb).next hle
    exact hhandler.trans ((guarded_of_catchesAt rest hrest).next hle') (m.le_next.trans hle)
      (y.le_next.trans hle')

theorem guarded_of_cleanupAt {L : Layout} : (c : Option (List Stmt)) → ∀ {w m m'},
    CleanupAt L c w m m' → Guarded L m m'
  | none, _, m, _, ⟨_, h⟩ => guarded_of_table (by rw [h])
  | some b, _, _, _, ⟨_, y, hb, _, h⟩ => by
    rw [h]
    exact (guarded_of_blockAt b hb).trans (guarded_to L y _) (le_of_blockAt b hb) y.le_next

theorem guarded_of_blockAt {L : Layout} : (b : List Stmt) → ∀ {x m m'}, BlockAt L b x m m' →
    Guarded L m m'
  | [], _, m, _, h => guarded_of_table (by rw [show _ = m from h])
  | .mk _ a :: rest, _, _, _, ⟨y, ha, hrest⟩ =>
    (guarded_of_actionAt a ha).trans (guarded_of_blockAt rest hrest) (le_of_actionAt a ha)
      (le_of_blockAt rest hrest)

end

/-- States for the addresses from an entry on, and for no others. -/
def statesFrom (entry : Nat) (states : List FlowState) : Assignment := fun pc =>
  if entry ≤ pc then states[pc - entry]? else none

@[simp] theorem statesFrom_add (entry i : Nat) (states : List FlowState) :
    statesFrom entry states (entry + i) = states[i]? := by
  simp [statesFrom]

theorem exists_of_statesFrom {entry pc : Nat} {states : List FlowState} {state : FlowState}
    (h : statesFrom entry states pc = some state) :
    ∃ i, pc = entry + i ∧ states[i]? = some state := by
  by_cases hle : entry ≤ pc
  · exact ⟨pc - entry, by omega, by simpa [statesFrom, hle] using h⟩
  · simp [statesFrom, hle] at h

theorem contains_iff_statesFrom {f : Function} {states : List FlowState}
    (hstop : f.stop = f.entry + states.length) (pc : Nat) :
    f.contains pc ↔ (statesFrom f.entry states pc).isSome := by
  by_cases hle : f.entry ≤ pc
  · simp [Function.contains_iff, statesFrom, hle]
    omega
  · simp [Function.contains_iff, statesFrom, hle]

theorem typing_of_spans {p : Program} {f : Function} {owned : Nat → Prop} {R : List Scope → Prop}
    {last : Nat} {τ : FlowState} (h : Spans p f owned R (fun _ => True) f.entry last ⟨0, []⟩ τ)
    (hstop : f.stop = last + 1) (hlast : demands p f last τ = []) (hτ : R τ.scopes) :
    ∃ φ, Typing p f owned φ ∧ (∀ pc, f.contains pc → (φ pc).isSome) ∧
      ∀ pc state, φ pc = some state → ReturnAt p pc → R state.scopes := by
  obtain ⟨flow, hend, hstart, hreturns, hmet⟩ := h
  have hcontains (pc : Nat) : f.contains pc ↔ (statesFrom f.entry (flow ++ [τ]) pc).isSome :=
    contains_iff_statesFrom (by simp; omega) pc
  have hwithin : Within f (statesFrom f.entry (flow ++ [τ])) :=
    fun pc state h => (hcontains pc).2 (by rw [h]; rfl)
  -- an address is one that the code spans, or that of the last instruction
  have hsplit {pc : Nat} {state : FlowState}
      (h : statesFrom f.entry (flow ++ [τ]) pc = some state) :
      (∃ i, pc = f.entry + i ∧ flow[i]? = some state) ∨ pc = last ∧ state = τ := by
    obtain ⟨i, rfl, hi⟩ := exists_of_statesFrom h
    rcases Nat.lt_or_ge i flow.length with hlt | hge
    · rw [List.getElem?_append_left hlt] at hi
      exact .inl ⟨i, rfl, hi⟩
    · rw [List.getElem?_append_right hge] at hi
      obtain ⟨hlt, rfl⟩ := List.getElem?_eq_some_iff.1 hi
      rw [List.length_singleton] at hlt
      exact .inr ⟨by omega, by simp⟩
  refine ⟨statesFrom f.entry (flow ++ [τ]), ⟨?_, hwithin _ _, ?_⟩, fun pc => (hcontains pc).1, ?_⟩
  · have hentry := statesFrom_add f.entry 0 (flow ++ [τ])
    rwa [Nat.add_zero, ← List.head?_eq_getElem?, hstart] at hentry
  · intro pc state h d hd
    rcases hsplit h with ⟨i, rfl, hi⟩ | ⟨rfl, rfl⟩
    · refine hmet _ hwithin ?_ ?_ trivial i state hi d hd
      · intro j s hj
        have hlt := (List.getElem?_eq_some_iff.1 hj).1
        exact ⟨s, by rw [statesFrom_add, List.getElem?_append_left hlt, hj], rfl⟩
      · rw [hend, statesFrom_add]
        simp
    · rw [hlast] at hd
      cases hd
  · intro pc state h hreturn
    rcases hsplit h with ⟨i, rfl, hi⟩ | ⟨-, rfl⟩
    · exact hreturns i state hi hreturn
    · exact hτ

theorem typing_of_functionAt {loose : Prop} {L : Layout} {s : Source} {f : Function} {lo hi : Nat}
    (h : FunctionAt L s f lo hi) (hf : Hosts L f) (htidy : loose ∨ Meaning.blockTidy s.body) :
    ∃ φ, Typing L.program f (fun t => lo ≤ t ∧ t < hi) φ ∧ (∀ pc, f.contains pc → (φ pc).isSome) ∧
      ∀ pc state, φ pc = some state → ReturnAt L.program pc → Outside loose state.scopes := by
  obtain ⟨m, hblock, rfl, hends⟩ := h.code
  have hbody : Spans L.program f (fun t => lo ≤ t ∧ t < m.table) (Outside loose) (fun _ => True)
      L.entry m.pc ⟨0, []⟩ ⟨0, []⟩ :=
    spans_block hf s.body hblock exited_none (fun t ht ht' => ⟨ht, ht'⟩)
      (htidy.imp id fun h => ⟨h, by simp⟩)
  have hnone : Outside loose [] := .inr (by simp)
  rw [h.entry] at hbody
  unfold Layout.Ends at hends
  split at hends
  · obtain ⟨hat, hstop⟩ := hends
    refine typing_of_spans hbody hstop ?_ hnone
    rw [demands_of_at hat trivial trivial (Int.natCast_nonneg _) nofun nofun]
    rfl
  · obtain ⟨hload, hat, hstop⟩ := hends
    refine typing_of_spans (hbody.append (spans_loads hload)) hstop ?_ hnone
    rw [demands_of_at (σ := ⟨1, []⟩) hat trivial trivial (Int.le_refl 1) nofun nofun]
    rfl

section

variable {options : Options} {tree : List Stmt} {functions : Array Function} {bound : Nat → Nat}
variable {p : Program}

theorem Compiled.length_sources (h : Compiled options tree functions bound p) :
    p.functions.size = functions.size + 1 := by
  simp [h.size, sources, h.headers.size]

theorem Compiled.source (h : Compiled options tree functions bound p) {i : Nat} {f : Function}
    (hf : p.functions[i]? = some f) : ∃ s, (sources tree functions)[i]? = some s := by
  obtain ⟨hlt, -⟩ := Array.getElem?_eq_some_iff.1 hf
  rw [h.size] at hlt
  exact ⟨_, List.getElem?_eq_getElem hlt⟩

theorem sources_succ (tree : List Stmt) (functions : Array Function) (i : Nat) :
    (sources tree functions)[i + 1]? =
      ((functions.toList.zip (tree.filterMap Stmt.declaration?))[i]?).map functionSource := by
  simp [sources]

theorem Compiled.hosts (h : Compiled options tree functions bound p) {L : Layout} {s : Source}
    {f : Function} {lo hi : Nat} (hL : L.program = p) (hnames : L.names.functions = functions)
    (hf : FunctionAt L s f lo hi) : Hosts L f := by
  refine ⟨hf.locals, fun {i g} hg => ?_⟩
  rw [hnames] at hg
  obtain ⟨hlt, -⟩ := Array.getElem?_eq_some_iff.1 hg
  have hlt' : i + 1 < p.functions.size := by
    rw [h.length_sources]
    omega
  obtain ⟨g', hg'⟩ : ∃ g', p.functions[i + 1]? = some g' := ⟨_, Array.getElem?_eq_getElem hlt'⟩
  obtain ⟨s', hs'⟩ := h.source hg'
  have hheader : s'.header = g := by
    rw [sources_succ, Option.map_eq_some_iff] at hs'
    obtain ⟨⟨g₀, declaration⟩, hzip, rfl⟩ := hs'
    have hg₀ := (List.getElem?_zip_eq_some.1 hzip).1
    rw [Array.getElem?_toList, hg] at hg₀
    cases hg₀
    rfl
  obtain ⟨_, _, _, hat⟩ := (h.placed hg' hs').2 ⟨rfl, rfl, rfl, rfl⟩
  obtain ⟨size, hhead⟩ := hat.head
  refine ⟨g', by rw [hL, hg'], ?_, ?_⟩
  · rw [hhead, hheader]
    rfl
  · rw [hhead, hheader]
    rfl

theorem Compiled.typing (h : Compiled options tree functions bound p) {i : Nat} {f : Function}
    (hf : p.functions[i]? = some f) :
    bound i ≤ bound (i + 1) ∧ ∃ φ, Typing p f (fun t => bound i ≤ t ∧ t < bound (i + 1)) φ ∧
      ∀ pc, f.contains pc → (φ pc).isSome := by
  obtain ⟨s, hs⟩ := h.source hf
  obtain ⟨hle, hplaced⟩ := h.placed hf hs
  obtain ⟨L, rfl, hnames, hat⟩ := hplaced ⟨rfl, rfl, rfl, rfl⟩
  obtain ⟨φ, hφ, hall, -⟩ :=
    typing_of_functionAt hat (h.hosts rfl (by rw [hnames]) hat) (.inl trivial)
  exact ⟨hle, φ, hφ, hall⟩

theorem functionDepths_of_typings {p : Program} {index : Nat} {owners : Array (Option Nat)}
    {fs : List Function} (bound : Nat → Nat)
    (hfs : ∀ {j f}, fs[j]? = some f → bound (index + j) ≤ bound (index + j + 1) ∧
      ∃ φ, Typing p f (fun t => bound (index + j) ≤ t ∧ t < bound (index + j + 1)) φ)
    (howners : owners.size = p.tries.size)
    (hfree : ∀ t, bound index ≤ t → owners.getD t none = none) :
    (functionDepths p index owners fs).2 = none := by
  induction fs generalizing index owners with
  | nil => rfl
  | cons f fs ih =>
    obtain ⟨hle, φ, hφ⟩ := hfs (j := 0) rfl
    rw [Nat.add_zero] at hle hφ
    obtain ⟨x, hx, -, hfound⟩ := explore_of_typing index hφ howners fun t ht => hfree t ht.1
    simp only [functionDepths, hx]
    refine ih ?_ (typing_of_explore howners hx).2 ?_
    · intro j g hg
      have := hfs (j := j + 1) hg
      rwa [show index + (j + 1) = index + 1 + j by omega] at this
    · intro t ht
      rcases hfound t with h | h
      · rw [h]
        exact hfree t (Nat.le_trans hle ht)
      · omega

theorem checkDefaults_of_defaultsAt {constants : Array Constant} {seen : Bool}
    {ps : List Parameter} {ws : List Int32} (name : Text) (h : DefaultsAt constants seen ps ws) :
    checkDefaults name constants.size seen ws = .ok () := by
  induction ps generalizing seen ws with
  | nil =>
    cases h
    rfl
  | cons q ps ih =>
    obtain ⟨w, later, rfl, h⟩ := h
    unfold checkDefaults
    cases hq : q.fallback with
    | none =>
      simp only [hq] at h
      obtain ⟨rfl, rfl, hlater⟩ := h
      simpa using ih hlater
    | some e =>
      simp only [hq] at h
      obtain ⟨⟨c, i, -, hw, hi⟩, hlater⟩ := h
      obtain ⟨hlt, -⟩ := Array.getElem?_eq_some_iff.1 hi
      have hne : w ≠ noIndex := by
        rintro rfl
        rw [show noIndex.toInt = -1 from rfl] at hw
        omega
      rw [if_neg hne, if_pos (by omega)]
      exact ih hlater

theorem Compiled.checkFunction (h : Compiled options tree functions bound p) {i entry : Nat}
    {f : Function} (hf : p.functions[i]? = some f) (hentry : f.entry = entry)
    (hstop : f.entry < f.stop) : checkFunction p entry f = .ok () := by
  obtain ⟨s, hs⟩ := h.source hf
  obtain ⟨L, -, -, hat⟩ := (h.placed hf hs).2 ⟨rfl, rfl, rfl, rfl⟩
  obtain ⟨size, hhead⟩ := hat.head
  have hslots := hat.slots.length_le
  rw [hat.locals] at hslots
  have hframe : f.arity = s.parameters.length ∧ f.arity ≤ maxArguments ∧
      checkDefaults f.name p.constants.size false f.defaults = .ok () ∧
      f.defaults.length = f.arity := by
    cases i with
    | zero =>
      cases hs
      rw [hhead]
      exact ⟨rfl, Nat.zero_le _, rfl, rfl⟩
    | succ i =>
      rw [sources_succ, Option.map_eq_some_iff] at hs
      obtain ⟨⟨g, declaration⟩, hzip, rfl⟩ := hs
      obtain ⟨hg, hdeclaration⟩ := List.getElem?_zip_eq_some.1 hzip
      rw [Array.getElem?_toList] at hg
      dsimp only at hg hdeclaration
      obtain ⟨-, harity, hle, hdefaults⟩ := h.headers.header hg hdeclaration
      have hcheck := checkDefaults_of_defaultsAt f.name hdefaults
      have hlength := hdefaults.length
      have harity' : f.arity = g.arity := by rw [hhead]; rfl
      have hdefaults' : f.defaults = g.defaults := by rw [hhead]; rfl
      refine ⟨by simp [harity', harity, functionSource], by omega, by rw [hdefaults', hcheck],
        by rw [hdefaults', harity', hlength, harity]⟩
  obtain ⟨harity, hle, hcheck, hlength⟩ := hframe
  have hlocals := hat.locals_le
  simp only [Verify.checkFunction, bind_eq_ok, require_eq_ok, decide_eq_true_eq]
  exact ⟨(), ⟨hentry, hstop⟩, (), ⟨hlocals, by omega, hle⟩, (), hlength, hcheck⟩

theorem checkFunctions_of_adjoin {start stop : Nat} {fs : List Function}
    (hadjoin : Adjoin start fs stop) (hfs : ∀ f ∈ fs, ∀ entry, f.entry = entry → f.entry < f.stop →
      Verify.checkFunction p entry f = .ok ()) : checkFunctions p start fs = .ok stop := by
  induction fs generalizing start with
  | nil =>
    cases hadjoin
    rfl
  | cons f fs ih =>
    obtain ⟨hentry, hlt, hrest⟩ := hadjoin
    simp only [checkFunctions, bind_eq_ok]
    exact ⟨(), hfs f List.mem_cons_self start hentry hlt,
      ih hrest fun g hg => hfs g (List.mem_cons_of_mem f hg)⟩

theorem checkLocalNames_of_sizes {fs : List Function} {names : List (Array Text)}
    (h : names.map Array.size = fs.map Function.localCount) :
    checkLocalNames (fs.zip names) = .ok () := by
  induction fs generalizing names with
  | nil => rfl
  | cons f fs ih =>
    cases names with
    | nil => rfl
    | cons name names =>
      simp only [List.map_cons, List.cons.injEq] at h
      simp only [List.zip_cons_cons, checkLocalNames, bind_eq_ok, require_eq_ok, decide_eq_true_eq]
      exact ⟨(), h.1, ih h.2⟩

theorem checkDebug_of_sizes {p : Program} {info : DebugInfo}
    (hlines : info.lines.size = p.code.size)
    (hlocals : info.locals.map Array.size = p.functions.map Function.localCount) :
    checkDebug p info = .ok () := by
  have hnumber : info.locals.size = p.functions.size := by
    simpa using congrArg Array.size hlocals
  have hnames : info.locals.toList.map Array.size = p.functions.toList.map Function.localCount := by
    simpa using congrArg Array.toList hlocals
  simp only [checkDebug, bind_eq_ok, require_eq_ok, decide_eq_true_eq]
  exact ⟨(), hlines, (), hnumber, checkLocalNames_of_sizes hnames⟩

theorem Compiled.checkLayout (h : Compiled options tree functions bound p) :
    checkLayout p = .ok () := by
  have hfunctions : checkFunctions p 0 p.functions.toList = .ok p.code.size := by
    refine checkFunctions_of_adjoin h.adjoin fun f hf entry => ?_
    obtain ⟨i, hi⟩ := List.mem_iff_getElem?.1 hf
    rw [Array.getElem?_toList] at hi
    exact h.checkFunction hi
  have hsize := h.length_sources
  simp only [Verify.checkLayout, bind_eq_ok, require_eq_ok, decide_eq_true_eq]
  refine ⟨(), h.version, (), by simp [Array.isEmpty, hsize], p.code.size, hfunctions, (), rfl, ?_⟩
  cases hdebug : p.debug with
  | none => rfl
  | some info =>
    obtain ⟨hlines, hlocals⟩ := h.debug hdebug
    exact checkDebug_of_sizes hlines hlocals

theorem Compiled.verify (h : Compiled options tree functions bound p) :
    ∃ depths, p.verify = .ok (storeDepths p depths) := by
  have hdepths : (functionDepths p 0 (Array.replicate p.tries.size none) p.functions.toList).2 =
      none := by
    refine functionDepths_of_typings bound ?_ (by simp) ?_
    · intro j f hf
      rw [Array.getElem?_toList] at hf
      obtain ⟨hle, φ, hφ, -⟩ := h.typing hf
      rw [Nat.zero_add]
      exact ⟨hle, φ, hφ⟩
    · intro t _
      simp only [Array.getD_eq_getD_getElem?, Array.getElem?_replicate]
      split <;> rfl
  cases hfound : functionDepths p 0 (Array.replicate p.tries.size none) p.functions.toList with
  | mk depths e? =>
    rw [hfound] at hdepths
    subst hdepths
    exact ⟨depths, by simp only [Program.verify, inspect, h.checkLayout, hfound]⟩

end

end Compile

namespace Verify

/-- Jumps stay inside their function, whether control reaches them or not. So do the ways into the
handlers and the finally block of a try construct, and every try table belongs to a function. -/
structure Contained (p : Program) : Prop where
  jump {f : Function} {pc : Nat} {ins : Instruction} {op : Opcode} : f ∈ p.functions →
    f.contains pc → p.code[pc]? = some ins → ins.op? = some op → op.kindA = .target →
    isTarget f ins.a.toInt
  table {f : Function} {pc : Nat} {ins : Instruction} : f ∈ p.functions → f.contains pc →
    p.code[pc]? = some ins → ins.op? = some .pushTry → ∃ t, p.tries[ins.a.toNat]? = some t ∧
      (∀ c ∈ t.clauses, isTarget f c.handler.toInt) ∧ ∀ w, t.cleanup? = some w → isTarget f w.toInt
  owner {i : Nat} : i < p.tries.size → ∃ f ∈ p.functions, ∃ pc ins, f.contains pc ∧
    p.code[pc]? = some ins ∧ ins.op? = some .pushTry ∧ ins.a.toNat = i

section

variable {p : Program} {f : Function} {owned : Nat → Prop} {φ : Assignment} {pc : Nat}
variable {ins : Instruction} {op : Opcode}

theorem Typing.sound (hφ : Typing p f owned φ) {state : FlowState} (hpc : φ pc = some state)
    (hins : p.code[pc]? = some ins) (hop : ins.op? = some op) :
    Sound p f op ins state.depth ∧
      ∀ d ∈ successorDemands p f pc op ins state, d.Met f owned φ := by
  have hmet := hφ.met hpc
  have hfine : ∀ e, Demand.refuse e ∉ demands p f pc state := fun e he => hmet _ he
  obtain ⟨ins', op', hins', hop', hproblem, hdemands⟩ := fetched_of_not_refused hfine
  rw [hins] at hins'
  cases hins'
  rw [hop] at hop'
  cases hop'
  exact ⟨instructionProblem?_eq_none.1 hproblem, hdemands ▸ hmet⟩

theorem isTarget_of_inRange {v : Int} (h : InRange p f .target v) : isTarget f v := by
  obtain ⟨hle, hlt⟩ := h
  simp only [isTarget, Bool.and_eq_true, decide_eq_true_eq]
  omega

theorem isTarget_of_tryDemands {table : Nat} {outer : FlowState} {t : TryTable}
    (h : ∀ d ∈ tryDemands p f pc table outer, d.Met f owned φ) (ht : p.tries[table]? = some t) :
    (∀ c ∈ t.clauses, isTarget f c.handler.toInt) ∧
      ∀ w, t.cleanup? = some w → isTarget f w.toInt := by
  have htable : p.tries.getD table {} = t := by simp [Array.getD_eq_getD_getElem?, ht]
  simp only [tryDemands, htable, List.cons_append, List.mem_cons, List.mem_append,
    List.mem_map] at h
  refine ⟨fun c hc => ?_, fun w hw => ?_⟩
  · have hclause := h _ (.inr (.inl ⟨c, hc, rfl⟩))
    unfold clauseDemand at hclause
    split at hclause
    · cases hclause
    · split at hclause
      · assumption
      · cases hclause
  · have hcleanup := fun d hd => h d (.inr (.inr hd))
    simp only [cleanupDemands, hw] at hcleanup
    split at hcleanup
    · assumption
    · exact (hcleanup _ List.mem_cons_self).elim

theorem Typing.contained (hφ : Typing p f owned φ) (hall : ∀ pc, f.contains pc → (φ pc).isSome)
    (hpc : f.contains pc) (hins : p.code[pc]? = some ins) (hop : ins.op? = some op) :
    (op.kindA = .target → isTarget f ins.a.toInt) ∧
      (op = .pushTry → ∃ t, p.tries[ins.a.toNat]? = some t ∧
        (∀ c ∈ t.clauses, isTarget f c.handler.toInt) ∧
        ∀ w, t.cleanup? = some w → isTarget f w.toInt) := by
  obtain ⟨state, hstate⟩ := Option.isSome_iff_exists.1 (hall pc hpc)
  obtain ⟨hsound, hmet⟩ := hφ.sound hstate hins hop
  refine ⟨fun hkind => ?_, ?_⟩
  · have hrange := hsound.rangeA
    rw [hkind] at hrange
    exact isTarget_of_inRange hrange
  · rintro rfl
    obtain ⟨hnonneg, hlt⟩ : 0 ≤ ins.a.toInt ∧ ins.a.toInt < p.tries.size := hsound.rangeA
    rw [← toNat_of_nonneg hnonneg] at hlt
    have ht := Array.getElem?_eq_getElem (Int.ofNat_lt.1 hlt)
    exact ⟨_, ht, isTarget_of_tryDemands (fun d hd => hmet d (List.mem_append_left _ hd)) ht⟩

end

theorem Contained.of_bare {p q : Program} (h : Contained p) (hcode : q.code = p.code)
    (htries : q.tries = p.tries)
    (hfunctions : q.functions.toList.map Function.bare = p.functions.toList.map Function.bare) :
    Contained q := by
  have hsame {f g : Function} (hfg : g.bare = f.bare) :
      g.contains = f.contains ∧ isTarget g = isTarget f := by
    obtain ⟨hentry, hstop⟩ : g.entry = f.entry ∧ g.stop = f.stop := by
      simp only [Function.bare, Function.mk.injEq] at hfg
      exact ⟨hfg.2.1, hfg.2.2.1⟩
    exact ⟨funext fun pc => by simp only [Function.contains, hentry, hstop],
      funext fun v => by simp only [isTarget, hentry, hstop]⟩
  have hback {g : Function} (hg : g ∈ q.functions) : ∃ f ∈ p.functions, g.bare = f.bare := by
    have hmem := List.mem_map_of_mem (f := Function.bare) (Array.mem_toList_iff.2 hg)
    rw [hfunctions] at hmem
    obtain ⟨f, hf, hfg⟩ := List.mem_map.1 hmem
    exact ⟨f, Array.mem_toList_iff.1 hf, hfg.symm⟩
  refine ⟨fun hg hpc hins hop hkind => ?_, fun hg hpc hins hop => ?_, fun ht => ?_⟩
  · obtain ⟨f, hf, hfg⟩ := hback hg
    obtain ⟨hcontains, htarget⟩ := hsame hfg
    rw [htarget]
    exact h.jump hf (hcontains ▸ hpc) (hcode ▸ hins) hop hkind
  · obtain ⟨f, hf, hfg⟩ := hback hg
    obtain ⟨hcontains, htarget⟩ := hsame hfg
    rw [htarget, htries]
    exact h.table hf (hcontains ▸ hpc) (hcode ▸ hins) hop
  · obtain ⟨f, hf, pc, ins, hpc, hins, hop, ha⟩ := h.owner (htries ▸ ht)
    have hmem := List.mem_map_of_mem (f := Function.bare) (Array.mem_toList_iff.2 hf)
    rw [← hfunctions] at hmem
    obtain ⟨g, hg, hfg⟩ := List.mem_map.1 hmem
    exact ⟨g, Array.mem_toList_iff.1 hg, pc, ins, (hsame hfg).1 ▸ hpc, hcode ▸ hins, hop, ha⟩

end Verify

namespace Compile
open Verify

section

variable {options : Options} {tree : List Stmt} {functions : Array Function} {bound : Nat → Nat}
variable {p : Program}

theorem exists_between {bound : Nat → Nat} {n t : Nat} (hlow : bound 0 ≤ t) (hhigh : t < bound n) :
    ∃ i < n, bound i ≤ t ∧ t < bound (i + 1) := by
  induction n with
  | zero => omega
  | succ n ih =>
    by_cases h : bound n ≤ t
    · exact ⟨n, Nat.lt_succ_self n, h, hhigh⟩
    · obtain ⟨i, hi, hbound⟩ := ih (Nat.not_le.1 h)
      exact ⟨i, Nat.lt_succ_of_lt hi, hbound⟩

theorem Compiled.contained (h : Compiled options tree functions bound p) : Contained p := by
  have htyping {f : Function} (hf : f ∈ p.functions) :
      ∃ owned φ, Typing p f owned φ ∧ ∀ pc, f.contains pc → (φ pc).isSome := by
    obtain ⟨i, hi⟩ := Array.mem_iff_getElem?.1 hf
    obtain ⟨-, φ, hφ, hall⟩ := h.typing hi
    exact ⟨_, φ, hφ, hall⟩
  refine ⟨fun hf hpc hins hop => ?_, fun hf hpc hins hop => ?_, fun {t} ht => ?_⟩
  · obtain ⟨_, _, hφ, hall⟩ := htyping hf
    exact (hφ.contained hall hpc hins hop).1
  · obtain ⟨_, _, hφ, hall⟩ := htyping hf
    exact (hφ.contained hall hpc hins hop).2 rfl
  · rw [← h.bound_size] at ht
    have hzero : bound 0 ≤ t := by
      rw [h.bound_zero]
      exact Nat.zero_le t
    obtain ⟨i, hi, hlow, hhigh⟩ := exists_between hzero ht
    have hf := Array.getElem?_eq_getElem hi
    obtain ⟨s, hs⟩ := h.source hf
    obtain ⟨L, rfl, -, hat⟩ := (h.placed hf hs).2 ⟨rfl, rfl, rfl, rfl⟩
    obtain ⟨m, hblock, hm, hends⟩ := hat.code
    obtain ⟨pc, hle, hlt, hins, hfits, -⟩ :=
      guarded_of_blockAt s.body hblock t hlow (hm ▸ hhigh)
    have hstop := hends.lt
    have hentry := hat.entry
    refine ⟨_, Array.mem_of_getElem? hf, pc, _, ?_, hins,
      Instruction.op?_of .., toNat_ofNat hfits⟩
    rw [Function.contains_iff]
    dsimp only at hle
    omega

end

end Compile

/-- Compilation only ever fails on account of the tree. Otherwise the program passes verification as
it stands, and its jumps stay in their functions. -/
theorem compile_verified (options : Compile.Options) (tree : List Stmt)
    (hcount : (tree.filterMap Stmt.declaration?).length < 2 ^ 23) :
    match compile options tree with
    | .error e => e.kind ∈ [.undefinedReference, .operandOverflow, .arity, .structural]
    | .ok p => p.verify = .ok p ∧ Verify.Contained p := by
  have hyields := Compile.yields_program options tree
  have hbound : (tree.filterMap Stmt.declaration?).length ≤ maxOperand := Nat.le_of_lt_succ hcount
  unfold compile
  cases hrun : (Compile.program options tree).run {} with
  | error e =>
    obtain ⟨hjump, hverification⟩ := hyields.error hrun
    cases hkind : e.kind <;> simp_all
  | ok result =>
    obtain ⟨functions, bound, hp⟩ := hyields.ok hrun rfl hbound
    obtain ⟨depths, hverify⟩ := hp.verify
    simp only [hverify]
    exact ⟨Verify.verify_of_verify hverify,
      hp.contained.of_bare rfl rfl (Verify.map_bare_storeDepths result.1 depths)⟩

/-- Exits from a loop through a try construct, in a function whose parameter has a default. -/
def guardedLoop : List Stmt :=
  let f : Text := [0x66]
  let x : Text := [0x78]
  [.mk 1 (.function f [⟨x, some (.boolean true)⟩] [
    .mk 2 (.whileLoop (.identifier x) [
      .mk 3 (.guard [.mk 4 (.exit .stop)] [.mk [] x [.mk 5 (.exit .skip)]]
        (some [.mk 6 (.repeatLoop (.identifier x) [.mk 7 (.exit .stop)])]))])]),
   .mk 8 (.use f [])]

/-- The loop is compiled, so what compilation promises of programs is not empty. -/
theorem compile_verified_guardedLoop : (guardedLoop.filterMap Stmt.declaration?).length < 2 ^ 23 ∧
    ∃ p, compile {} guardedLoop = .ok p ∧ p.verify = .ok p ∧ Verify.Contained p := by
  have hcount : (guardedLoop.filterMap Stmt.declaration?).length < 2 ^ 23 := by decide
  have hcompiled : (compile {} guardedLoop).toOption.isSome := by decide +kernel
  have hverified := compile_verified {} guardedLoop hcount
  refine ⟨hcount, ?_⟩
  cases hp : compile {} guardedLoop with
  | error e => simp [hp, Except.toOption] at hcompiled
  | ok p =>
    rw [hp] at hverified
    exact ⟨p, rfl, hverified⟩

end ScriptMachine
