import ScriptMachine.Proofs.Machine.Frames

namespace ScriptMachine
namespace Machine
open Verify

/-- A state in which the executing frame stands at a flow state of the program and all frames,
guards and completions agree with the flow states of their addresses. -/
structure Standing (loose : Prop) (p : Program) (maxStack : Nat) (s : State) (f : Function)
    (state : FlowState) (slots : List (Option Pending)) : Prop where
  function : p.functions[s.frame.function]? = some f
  flow : p.flowState? s.frame.function s.frame.ip = some state
  size : s.stack.size = s.frame.base + f.localCount + state.depth
  framed : Framed loose p maxStack s.frames state.scopes s.guards slots
  waiting : s.waiting = live slots
  globals : s.world.globals.size = p.globals.size

/-- The slots that are left of others, from the outermost on, where some may have been given up. -/
structure Remains (kept slots : List (Option Pending)) : Prop where
  length_le : kept.length ≤ slots.length
  get {i : Nat} : i < kept.length →
    kept.reverse[i]? = slots.reverse[i]? ∨ kept.reverse[i]? = some none
  live : live kept <:+ live slots

/-- Every finally block that is open in the second state is open in the first. -/
def NoneOpened (p : Program) (frames : List Frame) (scopes : List Scope) (frames' : List Frame)
    (scopes' : List Scope) : Prop :=
  ∀ (position table depth : Nat) (outer : List Scope),
    OpenAt p frames' scopes' position (⟨table, .cleanup, depth⟩ :: outer) →
    OpenAt p frames scopes position (⟨table, .cleanup, depth⟩ :: outer)

/-- What a step does to the finally blocks: it may leave some, or leave some and enter one, whose
construct is open before. -/
inductive Passage (p : Program) (s : State) (scopes : List Scope) (slots : List (Option Pending))
    (s' : State) : List Scope → List (Option Pending) → Prop
  | keep {scopes' : List Scope} {slots' : List (Option Pending)} : Remains slots' slots →
      NoneOpened p s.frames scopes s'.frames scopes' → Passage p s scopes slots s' scopes' slots'
  | enter {t : TryTable} {address : Int32} {table depth : Nat} {outer : List Scope}
      {kept : List (Option Pending)} {completion : Completion} : p.tries[table]? = some t →
      t.cleanup? = some address → s'.frame.ip = address.toInt.toNat → Remains kept slots →
      NoneOpened p s.frames scopes s'.frames outer →
      OpenAt p s.frames scopes s'.depth (⟨table, .guarded, depth⟩ :: outer) →
      Passage p s scopes slots s' (⟨table, .cleanup, depth⟩ :: outer)
        (some ⟨s'.depth, completion⟩ :: kept)

/-- The end of an execution, or a state that stands. The cells below the base of the executing frame
change only where that frame is left. -/
inductive Lands (loose : Prop) (p : Program) (maxStack : Nat) (s : State) (scopes : List Scope)
    (slots : List (Option Pending)) : Option Progress → Prop
  | done {f : Finished} : Lands loose p maxStack s scopes slots (some (.done f))
  | next {s' : State} {f : Function} {state : FlowState} (slots' : List (Option Pending)) :
      Standing loose p maxStack s' f state slots' →
      Passage p s scopes slots s' state.scopes slots' →
      (∃ frame, s'.frames.tail <:+ frame :: s.frames.tail) →
      (s.depth ≤ s'.depth → Agree s.frame.base s.stack s'.stack) →
      Lands loose p maxStack s scopes slots (some (.next s'))

section

variable {loose : Prop} {p : Program} {φ : Assignment} {f : Function} {s s₁ s' : State}
variable {maxStack position low below table depth : Nat} {frame frame' : Frame} {rest : List Frame}
variable {scopes scopes' outer : List Scope} {guards : List Guard}
variable {kept mine slots slots' : List (Option Pending)}

theorem remains_of_suffix (h : kept <:+ slots) : Remains kept slots := by
  refine ⟨h.length_le, fun hi => .inl ?_, live_suffix h⟩
  obtain ⟨inner, rfl⟩ := h
  rw [List.reverse_append, List.getElem?_append_left (by simpa using hi)]

theorem Framed.guard (phase : Phase)
    (h : Framed loose p maxStack (frame :: rest) outer guards slots)
    (hf : p.functions[frame.function]? = some f)
    (htyped : TableTyped p (p.flowState? frame.function) table ⟨depth, outer⟩)
    (hfunction : frame'.function = frame.function) (hbase : frame'.base = frame.base) :
    Framed loose p maxStack (frame' :: rest) (⟨table, .guarded, depth⟩ :: outer)
      (⟨table, rest.length, frame.base + f.localCount + depth, (live slots).length, phase⟩ ::
        guards)
      slots := by
  obtain ⟨f', own, guards', mine, slots', rfl, rfl, hfocus⟩ := h.focus
  cases hf.symm.trans hfocus.holds.function
  have hcount : (live slots').length + (live mine).length = (live (mine ++ slots')).length := by
    simp only [live_append, List.length_append]
    omega
  rw [← hcount]
  have htracks : Tracks loose _ _ _ _ (⟨table, .guarded, depth⟩ :: outer)
      (⟨table, rest.length, _, _, phase⟩ :: own) mine := .guarded hfocus.holds.tracks
  exact hfocus.framed frame' hfunction hbase htracks ⟨htyped, hfocus.holds.typed⟩

theorem Framed.enter (frame' : Frame) (completion : Completion)
    (h : Framed loose p maxStack (frame :: rest) outer guards slots)
    (htyped : TableTyped p (p.flowState? frame.function) table ⟨depth, outer⟩)
    (hresume : Resumable (p.flowState? frame.function) depth outer completion)
    (hfunction : frame'.function = frame.function) (hbase : frame'.base = frame.base) :
    Framed loose p maxStack (frame' :: rest) (⟨table, .cleanup, depth⟩ :: outer) guards
      (some ⟨rest.length, completion⟩ :: slots) := by
  obtain ⟨f, own, guards', mine, slots', rfl, rfl, hfocus⟩ := h.focus
  have htracks : Tracks loose _ _ _ _ (⟨table, .cleanup, depth⟩ :: outer) own
      (some ⟨rest.length, completion⟩ :: mine) := .cleanup hfocus.holds.tracks hresume
  exact hfocus.framed frame' hfunction hbase htracks ⟨htyped, hfocus.holds.typed⟩

theorem Framed.move (h : Framed loose p maxStack (frame :: rest) scopes guards slots)
    (hfunction : frame'.function = frame.function) (hbase : frame'.base = frame.base) :
    Framed loose p maxStack (frame' :: rest) scopes guards slots := by
  obtain ⟨f, own, guards', mine, slots', rfl, rfl, hfocus⟩ := h.focus
  exact hfocus.framed frame' hfunction hbase hfocus.holds.tracks hfocus.holds.typed

theorem OpenAt.move {inner : List Scope} (frame : Frame)
    (h : OpenAt p (frame' :: rest) scopes position inner) :
    OpenAt p (frame :: rest) scopes position inner := by
  obtain ⟨above, lower, rest', hframes, hlength, hfirst, hlater⟩ := h
  cases above with
  | nil =>
    obtain ⟨rfl, rfl⟩ := List.cons.inj hframes
    exact ⟨[], frame, rest, rfl, hlength, hfirst, by simp⟩
  | cons top above =>
    obtain ⟨rfl, rfl⟩ := List.cons.inj hframes
    exact ⟨frame :: above, lower, rest', rfl, hlength, by simp, fun _ => hlater (by simp)⟩

theorem mem_of_selectClause? {e : ScriptError} {clauses : List CatchClause} {clause : CatchClause}
    (h : selectClause? p e clauses = some clause) : clause ∈ clauses := by
  simp only [selectClause?, Option.orElse_eq_orElse, Option.orElse_eq_or,
    Option.or_eq_some_iff] at h
  rcases h with h | ⟨-, h⟩
  · exact List.mem_of_find?_eq_some h
  · exact List.mem_of_find?_eq_some h

/-- Where an error goes: it ends the execution, or comes to a handler or a finally block of an open
construct to which the state is cut back. -/
theorem unwind_cases (e : ScriptError) (h : Framed loose p maxStack s.frames scopes guards slots)
    (hwaiting : s.waiting = live slots) :
    (∃ f, unwind p e s guards = some (.done f)) ∨
      ∃ g outer s' depth scopes' slots' t,
        Cut loose p maxStack s scopes slots g outer s' depth scopes' slots' ∧
        p.tries[g.table]? = some t ∧
        ((∃ clause ∈ t.clauses, unwind p e s guards = some (.next
            (({ s' with guards := { g with phase := .handling } :: outer }.pushNew
              (·.newError e)).jump clause.handler.toInt.toNat))) ∨
          ∃ address, t.cleanup? = some address ∧ unwind p e s guards = some (.next
            ({ s' with guards := outer, pending := s'.pending.push ⟨g.frame, .rethrow e⟩ }.jump
              address.toInt.toNat))) := by
  induction guards generalizing s scopes slots with
  | nil => exact .inl ⟨_, rfl⟩
  | cons g outer ih =>
    obtain ⟨s', depth, scopes', slots', hrewind, hcut⟩ := cut_of_framed h hwaiting
    obtain ⟨t, ht, -⟩ := hcut.typed.1
    simp only [unwind, ht, hrewind, Option.bind_eq_bind, Option.bind_some]
    split
    case h_1 clause hclause =>
      refine .inr ⟨g, outer, s', depth, scopes', slots', t, hcut, ht, .inl ⟨clause, ?_, rfl⟩⟩
      split at hclause
      · exact mem_of_selectClause? hclause
      · cases hclause
    case h_2 address hnone hcleanup =>
      exact .inr ⟨g, outer, s', depth, scopes', slots', t, hcut, ht, .inr ⟨address, hcleanup, rfl⟩⟩
    case h_3 =>
      -- the construct is left: what the rest leads to is cut from the state that is left
      rcases ih hcut.framed hcut.waiting with hdone | ⟨g', outer', s'', d, sc, sl, t', hcut', hrest⟩
      · exact .inl hdone
      · exact .inr ⟨g', outer', s'', d, sc, sl, t', hcut.trans hcut', hrest⟩

theorem length_callers (s : State) : s.frames.tail.length = s.depth := by
  simp [State.frames, State.depth]

theorem callers_suffix (h : s'.frames <:+ s.frames) : s'.frames.tail <:+ s.frames.tail := by
  rcases List.suffix_cons_iff.1
    (show s'.frame :: s'.frames.tail <:+ s.frame :: s.frames.tail from h)
    with heq | hs
  · exact (List.cons.inj heq).2 ▸ List.suffix_refl _
  · exact (List.suffix_cons _ _).trans hs

theorem Cut.noneOpened {s'' : State} {scopes'' : List Scope} {g : Guard} {outer : List Guard}
    (h : Cut loose p maxStack s scopes slots g outer s' depth scopes' slots')
    (hcallers : s''.callers = s'.callers)
    (hs : scopes'' <:+ ⟨g.table, .guarded, depth⟩ :: scopes') :
    NoneOpened p s.frames scopes s''.frames scopes'' := by
  intro position table entered inner hopen
  unfold State.frames at hopen
  rw [hcallers] at hopen
  refine (OpenAt.move s'.frame hopen).trans h.frames ?_
  have hinside := h.inside.suffix hs
  rw [← h.position] at hinside
  simpa [State.depth] using hinside

section cut

variable {g : Guard} {guards' : List Guard} {t : TryTable}

theorem Cut.callers (h : Cut loose p maxStack s scopes slots g guards' s' depth scopes' slots') :
    s'.frames.tail <:+ s.frame :: s.frames.tail :=
  (callers_suffix h.frames).trans (List.suffix_cons s.frame s.frames.tail)

theorem Cut.lands_handler
    (h : Cut loose p maxStack s scopes slots g guards' s' depth scopes' slots')
    (e : ScriptError) (hglobals : s.world.globals.size = p.globals.size)
    (hbase : s.frame.base ≤ s.stack.size) (ht : p.tries[g.table]? = some t) {clause : CatchClause}
    (hclause : clause ∈ t.clauses) :
    Lands loose p maxStack s scopes slots (some (.next
      (({ s' with guards := { g with phase := .handling } :: guards' }.pushNew
        (·.newError e)).jump clause.handler.toInt.toNat))) := by
  obtain ⟨t', ht', hclauses, -⟩ := h.typed.1
  cases ht.symm.trans ht'
  obtain ⟨f, hf, hsize⟩ := h.size
  have hposition : s'.callers.toList.reverse.length = g.frame := by
    simpa [State.depth] using h.position
  have hguard : ({ g with phase := .handling } : Guard) =
    ⟨g.table, s'.callers.toList.reverse.length,
      s'.frame.base + f.localCount + depth, (live slots').length, .handling⟩ := by
    rw [hposition, ← hsize, ← h.stackSize, ← h.pendingSize]
  refine .next slots' (f := f) ⟨hf, (hclauses clause hclause).handler, ?_, ?_, h.waiting, ?_⟩
    (.keep (remains_of_suffix h.slots) (h.noneOpened rfl (List.suffix_refl _)))
    ⟨s.frame, h.callers⟩ fun hdepth => ?_
  · simp only [State.pushNew, State.jump, Array.size_push]
    omega
  · simp only [State.jump, State.pushNew, hguard]
    exact h.framed.guard .handling hf h.typed.1 rfl rfl
  · simpa [State.pushNew, State.jump, h.world] using hglobals
  · have hle : s.frame.base ≤ s'.stack.size := by
      obtain ⟨hframe, -⟩ := List.cons.inj (frames_eq_of_suffix h.frames hdepth)
      rw [← hframe]
      omega
    exact (h.agree hdepth hbase).trans ((agree_push s'.stack _).mono hle)

theorem Cut.lands_cleanup
    (h : Cut loose p maxStack s scopes slots g guards' s' depth scopes' slots')
    (e : ScriptError) (hglobals : s.world.globals.size = p.globals.size)
    (hbase : s.frame.base ≤ s.stack.size) (ht : p.tries[g.table]? = some t) {address : Int32}
    (haddress : t.cleanup? = some address) :
    Lands loose p maxStack s scopes slots (some (.next
      ({ s' with guards := guards', pending := s'.pending.push ⟨g.frame, .rethrow e⟩ }.jump
        address.toInt.toNat))) := by
  obtain ⟨t', ht', -, hcleanup⟩ := h.typed.1
  cases ht.symm.trans ht'
  obtain ⟨f, hf, hsize⟩ := h.size
  refine .next (some ⟨s'.depth, .rethrow e⟩ :: slots') (f := f)
    ⟨hf, hcleanup address haddress, hsize, ?_, ?_, by simpa [State.jump, h.world] using hglobals⟩
    (.enter ht haddress rfl (remains_of_suffix h.slots)
      (h.noneOpened rfl (List.suffix_cons _ _)) ?_) ⟨s.frame, h.callers⟩ (h.agree · hbase)
  · have hframed := h.framed.enter { s'.frame with ip := address.toInt.toNat } (.rethrow e)
      h.typed.1 trivial rfl rfl
    have hposition : s'.callers.toList.reverse.length = s'.depth := by simp [State.depth]
    simpa [State.frames, State.jump, hposition] using hframed
  · have hwaits := h.waiting
    unfold State.waiting at hwaits
    simp [State.waiting, State.jump, h.position, hwaits, live]
  · have hinside := h.inside
    rw [← h.position] at hinside
    exact hinside

end cut

theorem lands_unwind (e : ScriptError) (h : Framed loose p maxStack s.frames scopes guards slots)
    (hwaiting : s.waiting = live slots) (hglobals : s.world.globals.size = p.globals.size)
    (hbase : s.frame.base ≤ s.stack.size) :
    Lands loose p maxStack s scopes slots (unwind p e s guards) := by
  rcases unwind_cases e h hwaiting with ⟨f, hdone⟩ |
    ⟨g, guards', s', depth, scopes', slots', t, hcut, ht, ⟨clause, hclause, hnext⟩ |
      ⟨address, haddress, hnext⟩⟩
  · rw [hdone]
    exact .done
  · rw [hnext]
    exact hcut.lands_handler e hglobals hbase ht hclause
  · rw [hnext]
    exact hcut.lands_cleanup e hglobals hbase ht haddress

theorem lands_of_raise (e : ScriptError)
    (h : Framed loose p maxStack s.frames scopes s.guards slots) (hwaiting : s.waiting = live slots)
    (hglobals : s.world.globals.size = p.globals.size) (hbase : s.frame.base ≤ s.stack.size) :
    Lands loose p maxStack s scopes slots (raise p s e) :=
  lands_unwind (traced p s e) h hwaiting hglobals hbase

def cleanups (scopes : List Scope) : Nat := scopes.countP (·.kind = .cleanup)

theorem Tracks.length_slots (h : Tracks loose φ position low below scopes guards slots) :
    slots.length = cleanups scopes := by
  induction h with
  | nil => rfl
  | guarded _ ih => simpa [cleanups] using ih
  | cleanup _ _ ih => simpa [cleanups] using ih
  | @returning table depth dropped outer guards v _ hdropped _ ih =>
    have hcount : dropped.countP (·.kind = .cleanup) = dropped.length := by
      simpa [List.countP_eq_length] using hdropped
    simp only [cleanups, List.length_nil] at ih
    simp [cleanups, ← ih, hcount]

/-- No finally block lies outside of a try construct. -/
def Settled (scopes : List Scope) : Prop :=
  scopes.Pairwise fun inner outer => inner.kind = .guarded → outer.kind = .guarded

theorem Tracks.of_settled (h : Tracks loose φ position low below scopes guards slots)
    (hs : Settled scopes) :
    ∃ dropped outer, scopes = dropped ++ outer ∧ (∀ scope ∈ dropped, scope.kind = .cleanup) ∧
      Tracks loose φ position low below outer guards [] := by
  induction h with
  | nil => exact ⟨[], [], rfl, by simp, .nil⟩
  | @guarded table depth outer guards slots phase htracks ih =>
    have hnone : slots = [] := by
      have houter := (List.pairwise_cons.1 hs).1
      have hlength := htracks.length_slots
      rw [cleanups, List.countP_eq_zero.2] at hlength
      · exact List.length_eq_zero_iff.1 hlength
      · intro scope hscope
        simp [houter scope hscope]
    subst hnone
    exact ⟨[], _, rfl, by simp, .guarded htracks⟩
  | @cleanup table depth outer guards slots completion htracks _ ih =>
    obtain ⟨dropped, rest, rfl, hdropped, hrest⟩ := ih (List.pairwise_cons.1 hs).2
    exact ⟨⟨table, .cleanup, depth⟩ :: dropped, rest, rfl,
      List.forall_mem_cons.2 ⟨rfl, hdropped⟩, hrest⟩
  | @returning table depth dropped outer guards v htracks hdropped _ ih =>
    exact ⟨⟨table, .cleanup, depth⟩ :: dropped, outer, rfl,
      List.forall_mem_cons.2 ⟨rfl, hdropped⟩, htracks⟩

/-- A return in these scopes leaves no guard that counts a completion which it gives up: wherever it
enters a finally block, the finally blocks outside come before all try constructs. Where `loose`
does not hold there are none. -/
def Discharges (loose : Prop) (p : Program) (scopes : List Scope) : Prop :=
  ∀ (table depth : Nat) (outer : List Scope), ⟨table, .guarded, depth⟩ :: outer <:+ scopes →
    (∃ t, p.tries[table]? = some t ∧ t.cleanup?.isSome) →
    Settled outer ∧ ((∃ scope ∈ outer, scope.kind = .cleanup) → loose)

/-- A return enters the finally block of a construct of the executing frame, outside of which the
guards `own'` and the slots `mine'` of the frame are left. -/
inductive Detours (loose : Prop) (p : Program) (φ : Assignment) (low below : Nat) (s : State)
    (v : Value) (guards : List Guard) (scopes : List Scope) (mine : List (Option Pending)) :
    Option Progress → Prop
  | enter {table depth : Nat} {outer : List Scope} {own' : List Guard}
    {mine' : List (Option Pending)}
      {t : TryTable} {address : Int32} : ⟨table, .guarded, depth⟩ :: outer <:+ scopes →
      Tracks loose φ s.depth low below outer own' mine' → mine' <:+ mine →
      p.tries[table]? = some t → t.cleanup? = some address →
      Detours loose p φ low below s v guards scopes mine (some (.next ({ s with
        guards := own' ++ guards
        stack := resize s.stack (low + depth) .nil
        pending := s.pending.push ⟨s.depth, .result v⟩ }.jump address.toInt.toNat)))

theorem Detours.widen {v : Value} {mine' : List (Option Pending)} {result : Option Progress}
    (h : Detours loose p φ low below s v guards scopes' mine' result) (hs : scopes' <:+ scopes)
    (hmine : mine' <:+ mine) : Detours loose p φ low below s v guards scopes mine result := by
  cases h with
  | enter hscopes htracks hslots ht haddress =>
    exact .enter (hscopes.trans hs) htracks (hslots.trans hmine) ht haddress

/-- Where a return goes: out of the frame, or to the finally block of the innermost construct of the
frame that has one. -/
theorem returnThrough_cases {own : List Guard} (v : Value)
    (h : Tracks loose φ s.depth low below scopes own mine) (htyped : ScopesTyped p φ scopes)
    (hguards : ∀ g ∈ guards, g.frame < s.depth) :
    returnThrough p v s (own ++ guards) = some (leaveFrame { s with guards } v) ∨
      Detours loose p φ low below s v guards scopes mine (returnThrough p v s (own ++ guards)) := by
  induction h with
  | nil =>
    left
    cases guards with
    | nil => rfl
    | cons g outer =>
      have hne : g.frame ≠ s.depth := Nat.ne_of_lt (hguards g List.mem_cons_self)
      simp [returnThrough, hne]
  | @guarded table depth outer own' mine' phase htracks ih =>
    obtain ⟨t, ht, -⟩ := htyped.1
    cases hcleanup : t.cleanup? with
    | some address =>
      right
      simp only [List.cons_append, returnThrough, ht, hcleanup, ne_eq, not_true_eq_false, if_false]
      exact .enter (List.suffix_refl _) htracks (List.suffix_refl _) ht hcleanup
    | none =>
      -- a construct without a finally block is passed over
      have hskip : returnThrough p v s ((⟨table, s.depth, low + depth,
          below + (live mine').length, phase⟩ :: own') ++ guards) =
          returnThrough p v s (own' ++ guards) := by simp [returnThrough, ht, hcleanup]
      rw [hskip]
      exact (ih htyped.2).imp_right (·.widen (List.suffix_cons _ _) (List.suffix_refl _))
  | cleanup _ _ ih =>
    exact (ih htyped.2).imp_right (·.widen (List.suffix_cons _ _) (List.suffix_cons _ _))
  | @returning table depth dropped outer own' v' _ _ _ ih =>
    have hsuffix : outer <:+ ⟨table, .cleanup, depth⟩ :: (dropped ++ outer) :=
      (List.suffix_append dropped outer).trans (List.suffix_cons _ _)
    exact (ih (htyped.suffix hsuffix)).imp_right (·.widen hsuffix List.nil_suffix)

theorem Remains.of_suffix (h : Remains kept slots) (hs : slots <:+ slots') :
    Remains kept slots' where
  length_le := Nat.le_trans h.length_le hs.length_le
  get hi := by
    have hsame := (remains_of_suffix hs).get (Nat.lt_of_lt_of_le hi h.length_le)
    rcases h.get hi with heq | hnone
    · exact hsame.imp heq.trans heq.trans
    · exact .inr hnone
  live := h.live.trans (live_suffix hs)

theorem remains_of_dropped {mine' : List (Option Pending)} {n : Nat} (hs : mine' <:+ mine)
    (hn : mine'.length = n) : Remains (List.replicate n none ++ slots) (mine ++ slots) := by
  have hlength : Remains (List.replicate n none ++ slots) (mine' ++ slots) := by
    refine ⟨by simp [hn], fun {i} hi => ?_, by simp⟩
    simp only [List.reverse_append]
    by_cases hlt : i < slots.length
    · left
      rw [List.getElem?_append_left (by simpa using hlt),
        List.getElem?_append_left (by simpa using hlt)]
    · right
      rw [List.getElem?_append_right (by simp; omega)]
      simp only [List.length_append, List.length_replicate] at hi
      simp only [List.reverse_replicate, List.length_reverse, List.getElem?_replicate]
      rw [if_pos (by omega)]
  obtain ⟨inner, rfl⟩ := hs
  exact hlength.of_suffix ⟨inner, by simp⟩

theorem OpenAt.widen {frames : List Frame} {inner : List Scope}
    (h : OpenAt p frames scopes' position inner) (hs : scopes' <:+ scopes) :
    OpenAt p frames scopes position inner := by
  obtain ⟨above, frame, rest, hframes, hlength, hfirst, hlater⟩ := h
  exact ⟨above, frame, rest, hframes, hlength, fun h => (hfirst h).trans hs, hlater⟩

theorem OpenAt.cons_cases {scope : Scope} {inner : List Scope}
    (h : OpenAt p s.frames (scope :: scopes) position inner) :
    position = s.depth ∧ inner = scope :: scopes ∨ OpenAt p s.frames scopes position inner := by
  obtain ⟨above, frame, rest, hframes, hlength, hfirst, hlater⟩ := h
  cases above with
  | cons top above => exact .inr ⟨top :: above, frame, rest, hframes, hlength, by simp, hlater⟩
  | nil =>
    rcases List.suffix_cons_iff.1 (hfirst rfl) with heq | hs
    · obtain ⟨-, rfl⟩ := List.cons.inj hframes
      exact .inl ⟨hlength.symm.trans (length_callers s), heq⟩
    · exact .inr ⟨[], frame, rest, hframes, hlength, fun _ => hs, by simp⟩

theorem Passage.before {scopes₁ : List Scope} {slots₁ : List (Option Pending)}
    (h : Passage p s₁ scopes₁ slots₁ s' scopes' slots')
    (hopen : ∀ position inner, OpenAt p s₁.frames scopes₁ position inner →
      OpenAt p s.frames scopes position inner) (hslots : slots₁ <:+ slots) :
    Passage p s scopes slots s' scopes' slots' := by
  cases h with
  | keep hremains hnone =>
    exact .keep (hremains.of_suffix hslots) fun _ _ _ _ h => hopen _ _ (hnone _ _ _ _ h)
  | enter ht haddress hip hremains hnone hinside =>
    exact .enter ht haddress hip (hremains.of_suffix hslots)
      (fun _ _ _ _ h => hopen _ _ (hnone _ _ _ _ h)) (hopen _ _ hinside)

/-- A step that is made from a part of a state, with fewer scopes and slots and the same cells below
its base, is made from the whole. -/
theorem Lands.before {scopes₁ : List Scope} {slots₁ : List (Option Pending)}
    {result : Option Progress} (h : Lands loose p maxStack s₁ scopes₁ slots₁ result)
    (hcallers : s₁.callers = s.callers) (hbase : s₁.frame.base = s.frame.base)
    (hagree : Agree s.frame.base s.stack s₁.stack) (hscopes : scopes₁ <:+ scopes)
    (hslots : slots₁ <:+ slots) :
    Lands loose p maxStack s scopes slots result := by
  cases h with
  | done => exact .done
  | @next s' f state slots' hstanding hpassage hframes hkept =>
    refine .next slots' hstanding (hpassage.before ?_ hslots) ?_ ?_
    · intro position inner h
      unfold State.frames at h ⊢
      rw [hcallers] at h
      exact (OpenAt.move _ h).widen hscopes
    · simpa only [State.frames, List.tail_cons, hcallers] using hframes
    · intro hdepth
      have hkept' := hkept (by simpa only [State.depth, hcallers] using hdepth)
      rw [hbase] at hkept'
      exact hagree.trans hkept'

theorem back?_callers : s.callers.back? = s.frames.tail.head? := by
  simp [State.frames]

theorem lands_leaveFrame (v : Value)
    (hcallers : s.frames.tail = [] ∨ ∃ caller rest outer, s.frames.tail = caller :: rest ∧
      Suspended p caller s.frame.base outer ∧
      Framed loose p maxStack s.frames.tail outer guards slots')
    (hslots : slots' <:+ slots) (hwaiting : s.waiting = live slots')
    (hglobals : s.world.globals.size = p.globals.size) :
    Lands loose p maxStack s scopes slots (some (leaveFrame { s with guards } v)) := by
  rcases hcallers with hnone | ⟨caller, rest, outer, hrest, hsuspended, hframed⟩
  · have hback : s.callers.back? = none := by rw [back?_callers, hnone, List.head?_nil]
    simp only [leaveFrame, hback]
    exact .done
  · have hback : s.callers.back? = some caller := by rw [back?_callers, hrest, List.head?_cons]
    have hpop : s.callers.pop.toList.reverse = rest := by
      simpa [State.frames] using congrArg List.tail hrest
    obtain ⟨g, depth, hg, hflow, hsize⟩ := hsuspended.resumes
    have hdepth : s.callers.size = rest.length + 1 := by
      simpa [State.frames] using congrArg List.length hrest
    simp only [leaveFrame, hback]
    refine .next slots' (f := g) ⟨hg, hflow, by simpa using hsize, ?_, hwaiting, hglobals⟩
      (.keep (remains_of_suffix hslots) ?_) ⟨s.frame, ?_⟩ ?_
    · simpa only [State.frames, hpop, ← hrest] using hframed
    · intro position table entered inner hopen
      simp only [State.frames, hpop] at hopen
      have hframes : s.frames = s.frame :: caller :: rest := congrArg (s.frame :: ·) hrest
      rw [hframes]
      exact hopen.trans (List.suffix_cons _ _)
        ⟨[s.frame], caller, rest, rfl, rfl, by simp, fun _ => ⟨_, hflow, List.suffix_refl _⟩⟩
    · rw [hrest]
      simp only [State.frames, hpop, List.tail_cons]
      exact (List.suffix_cons _ _).trans (List.suffix_cons _ _)
    · intro hle
      simp only [State.depth, Array.size_pop] at hle
      omega

theorem waiting_popWhile {xs : Array Pending} {upper lower : List Pending}
    (h : xs.toList.reverse = upper ++ lower) (hupper : ∀ pending ∈ upper, pending.frame = position)
    (hlower : ∀ pending ∈ lower, pending.frame < position) :
    (xs.popWhile fun pending => pending.frame == position).toList.reverse = lower := by
  have hkeep : lower.dropWhile (fun pending => pending.frame == position) = lower := by
    cases lower with
    | nil => rfl
    | cons pending lower =>
      have hne : pending.frame ≠ position := Nat.ne_of_lt (hlower pending List.mem_cons_self)
      simp [hne]
  obtain ⟨xs⟩ := xs
  rw [List.popWhile_toArray, List.reverse_reverse]
  rw [show xs.reverse = upper ++ lower from h, List.dropWhile_append_of_pos (by simpa using hupper)]
  exact hkeep

/-- In scopes that are discharged, the completions outside of the finally block that a return enters
are all given up. -/
theorem Focused.lands_detour {v : Value} {own : List Guard} {result : Option Progress}
    (h : Focused loose p maxStack s.frame s.frames.tail scopes f own guards mine slots)
    (hdetours : Detours loose p (p.flowState? s.frame.function) (s.frame.base + f.localCount)
      (live slots).length s v guards scopes mine result)
    (hwaiting : s.waiting = live slots) (hglobals : s.world.globals.size = p.globals.size)
    (hbase : s.frame.base ≤ s.stack.size) (hreturn : Discharges loose p scopes) :
    Lands loose p maxStack s scopes (mine ++ slots) result := by
  have hdepth := length_callers s
  cases hdetours with
  | @enter table depth outer own' mine' t address hscopes htracks hmine ht haddress =>
    obtain ⟨hsettled, hloose⟩ := hreturn table depth outer hscopes ⟨t, ht, by simp [haddress]⟩
    obtain ⟨dropped, rest, rfl, hdropped, hrest⟩ := htracks.of_settled hsettled
    obtain ⟨⟨t', ht', hclauses, hcleanup⟩, htyped⟩ := h.holds.typed.suffix hscopes
    cases ht.symm.trans ht'
    have hkind : dropped ≠ [] → loose := by
      intro hne
      obtain ⟨scope, hscope⟩ := List.exists_mem_of_ne_nil dropped hne
      exact hloose ⟨scope, List.mem_append_left rest hscope, hdropped scope hscope⟩
    -- one completion waits for each finally block that is given up, and none for the rest
    have hlength : mine'.length = dropped.length := by
      have hnone := hrest.length_slots
      have hall : dropped.countP (·.kind = .cleanup) = dropped.length := by
        simpa [List.countP_eq_length] using hdropped
      simp only [cleanups, List.length_nil] at hnone
      rw [htracks.length_slots, cleanups, List.countP_append, ← hnone, hall]
      omega
    refine .next (some ⟨s.depth, .result v⟩ :: (List.replicate dropped.length none ++ slots))
      (f := f) ⟨h.holds.function, hcleanup address haddress, by simp [State.jump], ?_, ?_, hglobals⟩
      (.enter ht haddress rfl (remains_of_dropped hmine hlength) ?_ ?_)
      ⟨s.frame, List.suffix_cons _ _⟩ fun _ => ?_
    · rw [← hdepth] at hrest ⊢
      have hreturning : Tracks loose _ _ _ _ (⟨table, .cleanup, depth⟩ :: (dropped ++ rest)) own'
          (some ⟨s.frames.tail.length, .result v⟩ :: List.replicate dropped.length none) :=
        .returning hrest hdropped hkind
      exact h.framed { s.frame with ip := address.toInt.toNat } rfl rfl hreturning
        ⟨⟨t, ht, hclauses, hcleanup⟩, htyped⟩
    · have hwaits : s.pending.toList.reverse = live slots := hwaiting
      simp [State.waiting, State.jump, hwaits, live]
    · intro position table' entered inner hopen
      exact (OpenAt.move _ hopen).widen ((List.suffix_cons _ _).trans hscopes)
    · exact ⟨[], s.frame, s.frames.tail, rfl, hdepth, fun _ => hscopes, by simp⟩
    · exact agree_resize s.stack (by omega) hbase

theorem lands_returnThrough (v : Value) {own : List Guard}
    (h : Focused loose p maxStack s.frame s.frames.tail scopes f own guards mine slots)
    (hwaiting : s.waiting = live slots) (hglobals : s.world.globals.size = p.globals.size)
    (hbase : s.frame.base ≤ s.stack.size) (hreturn : Discharges loose p scopes) :
    Lands loose p maxStack s scopes (mine ++ slots) (returnThrough p v s (own ++ guards)) := by
  have hdepth := length_callers s
  have htracks := h.holds.tracks
  have hguards := h.guards_lt
  rw [hdepth] at htracks hguards
  rcases returnThrough_cases v htracks h.holds.typed hguards with hleave | hdetours
  · rw [hleave]
    refine lands_leaveFrame v ?_ (List.suffix_append mine slots) hwaiting hglobals
    rcases h.callers with ⟨hnone, -⟩ | hcallers
    · exact .inl hnone
    · exact .inr hcallers
  · exact h.lands_detour hdetours hwaiting hglobals hbase hreturn

theorem lands_completeReturn (v : Value)
    (h : Framed loose p maxStack s.frames scopes s.guards slots) (hwaiting : s.waiting = live slots)
    (hglobals : s.world.globals.size = p.globals.size) (hbase : s.frame.base ≤ s.stack.size)
    (hreturn : Discharges loose p scopes) :
    Lands loose p maxStack s scopes slots (completeReturn p s v) := by
  obtain ⟨f, own, guards, mine, slots', hown, rfl, hfocus⟩ := Framed.focus h
  have hdepth : s.callers.toList.reverse.length = s.depth := by simp [State.depth]
  have hpending : (s.pending.popWhile fun pending => pending.frame == s.depth).toList.reverse =
      live slots' :=
    waiting_popWhile (by rw [← live_append]; exact hwaiting)
      (hdepth ▸ hfocus.holds.tracks.frame_eq.2) (hdepth ▸ hfocus.slots_lt)
  have hlands := lands_returnThrough (s := { s with
    pending := s.pending.popWhile fun pending => pending.frame == s.depth }) v hfocus hpending
    hglobals hbase hreturn
  rw [← hown] at hlands
  exact hlands.before rfl rfl (fun _ _ => rfl) (List.suffix_refl _) (List.suffix_refl _)

end

end Machine
end ScriptMachine
