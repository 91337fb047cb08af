import ScriptMachine.Proofs.Machine.Safety

namespace ScriptMachine
namespace Machine
open Verify

/-- The scopes are open, innermost first, in the frame that has `position` callers. -/
def Active (p : Program) (s : State) (position : Nat) (scopes : List Scope) : Prop :=
  ∃ above frame rest state, s.frames = above ++ frame :: rest ∧ rest.length = position ∧
    p.flowState? frame.function frame.ip = some state ∧ scopes <:+ state.scopes

/-- A step enters a finally block, the first of some scopes: they are open after the step and were
not before. -/
structure Enters (p : Program) (s s' : State) (position : Nat) (block : List Scope) : Prop where
  cleanup : ∃ scope outer, block = scope :: outer ∧ scope.kind = .cleanup
  after : Active p s' position block
  before : ¬Active p s position block

section

variable {loose : Prop} {p : Program} {limits : Limits} {maxStack n position table depth : Nat}
variable {start s s' : State} {f f' : Function} {state state' : FlowState} {frame : Frame}
variable {frames rest : List Frame} {scopes outer : List Scope}
    {slots slots' : List (Option Pending)}

theorem Standing.openAt_iff {inner : List Scope} (h : Standing loose p maxStack s f state slots) :
    OpenAt p s.frames state.scopes position inner ↔ Active p s position inner := by
  constructor
  · rintro ⟨above, frame, rest, hframes, hlength, hfirst, hlater⟩
    cases above with
    | nil =>
      obtain ⟨rfl, -⟩ := List.cons.inj hframes
      exact ⟨[], s.frame, rest, state, hframes, hlength, h.flow, hfirst rfl⟩
    | cons top above =>
      obtain ⟨state', hflow, hinner⟩ := hlater (by simp)
      exact ⟨top :: above, frame, rest, state', hframes, hlength, hflow, hinner⟩
  · rintro ⟨above, frame, rest, state', hframes, hlength, hflow, hinner⟩
    refine ⟨above, frame, rest, hframes, hlength, ?_, fun _ => ⟨state', hflow, hinner⟩⟩
    rintro rfl
    obtain ⟨rfl, -⟩ := List.cons.inj hframes
    cases h.flow.symm.trans hflow
    exact hinner

/-- The finally blocks that are open in frames which wait for a call. -/
def cleanupsBelow (p : Program) (frames : List Frame) : Nat :=
  (frames.map fun frame => match p.flowState? frame.function frame.ip with
    | some state => cleanups state.scopes
    | none => 0).sum

theorem cleanupsBelow_cons (h : p.flowState? frame.function frame.ip = some state) :
    cleanupsBelow p (frame :: rest) = cleanups state.scopes + cleanupsBelow p rest := by
  simp [cleanupsBelow, h]

theorem cleanupsBelow_le {rest' : List Frame} (h : rest <:+ rest') :
    cleanupsBelow p rest ≤ cleanupsBelow p rest' := by
  obtain ⟨above, rfl⟩ := h
  simp only [cleanupsBelow, List.map_append, List.sum_append]
  omega

theorem cleanups_le {scopes' : List Scope} (h : scopes <:+ scopes') :
    cleanups scopes ≤ cleanups scopes' := h.sublist.countP_le

theorem Framed.length_slots {guards : List Guard}
    (h : Framed loose p maxStack (frame :: rest) scopes guards slots) :
    slots.length = cleanups scopes + cleanupsBelow p rest := by
  generalize hframes : frame :: rest = frames at h
  induction h generalizing frame rest with
  | entry _ hholds =>
    obtain ⟨-, rfl⟩ := List.cons.inj hframes
    exact hholds.tracks.length_slots
  | called hholds hsuspended _ ih =>
    obtain ⟨-, rfl⟩ := List.cons.inj hframes
    obtain ⟨g, depth, -, hflow, -⟩ := hsuspended.resumes
    rw [List.length_append, hholds.tracks.length_slots, ih rfl, cleanupsBelow_cons hflow]

theorem OpenAt.cleanups_le {inner : List Scope}
    (h : OpenAt p (frame :: rest) scopes position inner) :
    ∃ rest', rest' <:+ rest ∧ rest'.length = position ∧
      cleanups inner + cleanupsBelow p rest' ≤ cleanups scopes + cleanupsBelow p rest := by
  obtain ⟨above, lower, rest', hframes, hlength, hfirst, hlater⟩ := h
  cases above with
  | nil =>
    obtain ⟨rfl, rfl⟩ := List.cons.inj hframes
    have hle := Machine.cleanups_le (hfirst rfl)
    exact ⟨rest, List.suffix_refl _, hlength, by omega⟩
  | cons top above =>
    obtain ⟨-, hframes⟩ := List.cons.inj hframes
    obtain ⟨state, hflow, hinner⟩ := hlater (by simp)
    have hle := Machine.cleanups_le hinner
    have hbelow := cleanupsBelow_le (p := p) ⟨above, hframes.symm⟩
    rw [cleanupsBelow_cons hflow] at hbelow
    exact ⟨rest', ⟨above ++ [lower], by simp [hframes]⟩, hlength, by omega⟩

theorem OpenAt.not_cleanup
    (h : OpenAt p frames scopes position (⟨table, .guarded, depth⟩ :: outer)) :
    ¬OpenAt p frames scopes position (⟨table, .cleanup, depth⟩ :: outer) := by
  intro h'
  obtain ⟨above, frame, rest, hframes, hlength, hfirst, hlater⟩ := h
  obtain ⟨above', frame', rest', hframes', hlength', hfirst', hlater'⟩ := h'
  have hsame : above = above' ∧ frame :: rest = frame' :: rest' := by
    refine List.append_inj' (hframes.symm.trans hframes') ?_
    simp [hlength, hlength']
  obtain ⟨rfl, hrest⟩ := hsame
  obtain ⟨rfl, rfl⟩ := List.cons.inj hrest
  have hboth : ∃ all : List Scope, ⟨table, .guarded, depth⟩ :: outer <:+ all ∧
      ⟨table, .cleanup, depth⟩ :: outer <:+ all := by
    by_cases hnil : above = []
    · exact ⟨scopes, hfirst hnil, hfirst' hnil⟩
    · obtain ⟨state, hflow, hinner⟩ := hlater hnil
      obtain ⟨state', hflow', hinner'⟩ := hlater' hnil
      cases hflow.symm.trans hflow'
      exact ⟨state.scopes, hinner, hinner'⟩
  obtain ⟨all, hguarded, hcleanup⟩ := hboth
  have heq := List.IsSuffix.eq_of_length (List.suffix_of_suffix_length_le hguarded hcleanup
    (by simp)) (by simp)
  cases heq

theorem run_succ (h : run p limits (n + 1) s = .unfinished s') :
    ∃ t, run p limits n s = .unfinished t ∧ step p limits t = some (.next s') := by
  induction n generalizing s with
  | zero =>
    refine ⟨s, rfl, ?_⟩
    unfold run at h
    split at h
    · cases h
    · cases h
    · next t hstep =>
      cases h
      exact hstep
  | succ n ih =>
    rw [run] at h ⊢
    split at h
    · cases h
    · cases h
    · exact ih h

/-- A finally block that is open after `n` instructions, as the run from `start` tells: one of its
steps entered the block and recorded a completion, the block has been open since then, and its slot
holds that completion unless it has been given up. -/
def Recorded (p : Program) (limits : Limits) (start : State) (n : Nat) (rest : List Frame)
    (slots : List (Option Pending)) (position : Nat) (block : List Scope) : Prop :=
  ∃ i t t' completion, i < n ∧ run p limits i start = .unfinished t ∧
    step p limits t = some (.next t') ∧ Enters p t t' position block ∧
    t'.pending.back? = some ⟨position, completion⟩ ∧
    (∀ j u, i < j → j ≤ n → run p limits j start = .unfinished u → Active p u position block) ∧
    ∀ rest', rest' <:+ rest → rest'.length = position →
      slots.reverse[cleanups block.tail + cleanupsBelow p rest']? =
          some (some ⟨position, completion⟩) ∨
        slots.reverse[cleanups block.tail + cleanupsBelow p rest']? = some none

/-- Every finally block that is open has been entered by a step of the run. -/
def AllRecorded (p : Program) (limits : Limits) (start : State) (n : Nat) (s : State)
    (slots : List (Option Pending)) : Prop :=
  ∀ position table depth outer, Active p s position (⟨table, .cleanup, depth⟩ :: outer) →
    Recorded p limits start n s.frames.tail slots position (⟨table, .cleanup, depth⟩ :: outer)

/-- What is recorded of a block stays recorded while it is open. -/
theorem Recorded.keep
    (h : Recorded p limits start n s.frames.tail slots position (⟨table, .cleanup, depth⟩ :: outer))
    (hrun : run p limits (n + 1) start = .unfinished s')
    (hactive : Active p s' position (⟨table, .cleanup, depth⟩ :: outer))
    (hbefore : position ≤ s.depth) (hframes : s'.frames.tail <:+ frame :: s.frames.tail)
    (hslots : ∀ rest', rest' <:+ s'.frames.tail → rest'.length = position →
      slots'.reverse[cleanups outer + cleanupsBelow p rest']? =
          slots.reverse[cleanups outer + cleanupsBelow p rest']? ∨
        slots'.reverse[cleanups outer + cleanupsBelow p rest']? = some none) :
    Recorded p limits start (n + 1) s'.frames.tail slots' position
      (⟨table, .cleanup, depth⟩ :: outer) := by
  obtain ⟨i, t, t', completion, hi, ht, hstep, henters, hback, hopen, hslot⟩ := h
  refine ⟨i, t, t', completion, by omega, ht, hstep, henters, hback, ?_, ?_⟩
  · intro j u hij hjn hu
    rcases Nat.lt_or_ge n j with hlt | hle
    · obtain rfl : j = n + 1 := by omega
      cases hrun.symm.trans hu
      exact hactive
    · exact hopen j u hij hle hu
  · intro rest' hrest' hlength
    have hlower : rest' <:+ s.frames.tail := by
      rcases List.suffix_cons_iff.1 (hrest'.trans hframes) with rfl | hs
      · have hcount := length_callers s
        simp only [List.length_cons] at hlength
        omega
      · exact hs
    rcases hslots rest' hrest' hlength with heq | hnone
    · exact (hslot rest' hlower hlength).imp heq.trans heq.trans
    · exact .inr hnone

theorem recorded_enter {completion : Completion} {kept : List (Option Pending)}
    (ht : run p limits n start = .unfinished s) (hstep : step p limits s = some (.next s'))
    (hrun : run p limits (n + 1) start = .unfinished s')
    (henters : Enters p s s' position (⟨table, .cleanup, depth⟩ :: outer))
    (hwaiting : s'.waiting = live (some ⟨position, completion⟩ :: kept))
    (hposition : position = s'.depth)
    (hlength : kept.length = cleanups outer + cleanupsBelow p s'.frames.tail) :
    Recorded p limits start (n + 1) s'.frames.tail (some ⟨position, completion⟩ :: kept) position
      (⟨table, .cleanup, depth⟩ :: outer) := by
  refine ⟨n, s, s', completion, by omega, ht, hstep, henters, (taken_of_waiting hwaiting).1, ?_, ?_⟩
  · intro j u hnj hjn hu
    obtain rfl : j = n + 1 := by omega
    cases hrun.symm.trans hu
    exact henters.after
  · intro rest' hrest' hlength'
    have hall : rest' = s'.frames.tail :=
      hrest'.eq_of_length (by rw [hlength', length_callers, hposition])
    left
    simp [hall, ← hlength]

theorem Active.le_depth (h : Active p s position scopes) : position ≤ s.depth := by
  obtain ⟨above, frame, rest, state, hframes, hlength, -, -⟩ := h
  have hcount := congrArg List.length hframes
  simp only [length_frames, List.length_append, List.length_cons] at hcount
  omega

theorem OpenAt.slot_lt {rest' : List Frame}
    (h : OpenAt p (frame :: rest) scopes position (⟨table, .cleanup, depth⟩ :: outer))
    (hrest : rest' <:+ rest) (hlength : rest'.length = position) :
    cleanups outer + cleanupsBelow p rest' < cleanups scopes + cleanupsBelow p rest := by
  obtain ⟨rest'', hrest'', hlength'', hle⟩ := h.cleanups_le
  have hsame : rest'' = rest' :=
    (List.suffix_of_suffix_length_le hrest'' hrest (by omega)).eq_of_length (by omega)
  have hcons : cleanups (⟨table, .cleanup, depth⟩ :: outer) = cleanups outer + 1 := by
    simp [cleanups]
  rw [hsame] at hle
  omega

theorem AllRecorded.next (hrecorded : AllRecorded p limits start n s slots)
    (hstanding : Standing loose p limits.maxStack s f state slots)
    (hstanding' : Standing loose p limits.maxStack s' f' state' slots')
    (hpassage : Passage p s state.scopes slots s' state'.scopes slots')
    (hframes : s'.frames.tail <:+ frame :: s.frames.tail)
    (ht : run p limits n start = .unfinished s) (hstep : step p limits s = some (.next s'))
    (hrun : run p limits (n + 1) start = .unfinished s') :
    AllRecorded p limits start (n + 1) s' slots' := by
  intro position table depth outer hactive
  have hopen := hstanding'.openAt_iff.2 hactive
  have hcount := Framed.length_slots hstanding'.framed
  obtain ⟨depth', scopes'⟩ := state'
  cases hpassage with
  | keep hremains hnone =>
    have hbefore := hstanding.openAt_iff.1 (hnone _ _ _ _ hopen)
    refine (hrecorded _ _ _ _ hbefore).keep hrun hactive hbefore.le_depth hframes ?_
    intro rest' hrest' hlength
    refine hremains.get ?_
    rw [hcount]
    exact OpenAt.slot_lt hopen hrest' hlength
  | @enter t address table' entered outer' kept completion htable haddress hip hremains hnone
      hinside =>
    simp only [List.length_cons, cleanups, List.countP_cons, decide_true, if_true] at hcount
    -- the block is the one that is entered, or it lies outside of that one
    rcases hopen.cons_cases with ⟨rfl, heq⟩ | houter
    · obtain ⟨hscope, rfl⟩ := List.cons.inj heq
      cases hscope
      refine recorded_enter ht hstep hrun ⟨⟨_, _, rfl, rfl⟩, hactive, ?_⟩ hstanding'.waiting rfl ?_
      · exact fun hold => hinside.not_cleanup (hstanding.openAt_iff.2 hold)
      · unfold cleanups State.frames
        simp only [List.tail_cons]
        omega
    · have hbefore := hstanding.openAt_iff.1 (hnone _ _ _ _ houter)
      refine (hrecorded _ _ _ _ hbefore).keep hrun hactive hbefore.le_depth hframes ?_
      intro rest' hrest' hlength
      have hlt := OpenAt.slot_lt houter hrest' hlength
      have hkept : cleanups outer + cleanupsBelow p rest' < kept.length := by
        unfold cleanups at hlt ⊢
        omega
      rw [List.reverse_cons, List.getElem?_append_left (by simpa using hkept)]
      exact hremains.get hkept

theorem allRecorded_of_run (hp : Verified p) (hreturn : ReturnsDischarge loose p)
    (hstart : Standing loose p limits.maxStack start f ⟨0, []⟩ []) (hcallers : start.callers = #[])
    (h : run p limits n start = .unfinished s) :
    ∃ f' state slots, Standing loose p limits.maxStack s f' state slots ∧
      AllRecorded p limits start n s slots := by
  induction n generalizing s with
  | zero =>
    cases h
    refine ⟨f, _, [], hstart, ?_⟩
    intro position table depth outer hactive
    obtain ⟨above, frame, rest, hframes, -, hfirst, -⟩ := hstart.openAt_iff.2 hactive
    have hnil : above = [] := by
      have hcount := congrArg List.length hframes
      simp only [State.frames, hcallers, List.length_append, List.length_cons] at hcount
      exact List.length_eq_zero_iff.1 (by simp at hcount; omega)
    simpa using hfirst hnil
  | succ n ih =>
    obtain ⟨t, ht, hstep⟩ := run_succ h
    obtain ⟨f', state, slots, hstanding, hrecorded⟩ := ih ht
    have hlands := hstanding.lands_step hp hreturn
    rw [hstep] at hlands
    cases hlands with
    | next slots' hstanding' hpassage hframes _ =>
      obtain ⟨frame, hframes⟩ := hframes
      exact ⟨_, _, slots', hstanding',
        hrecorded.next hstanding hstanding' hpassage hframes ht hstep h⟩

/-- A step that enters one finally block and records its completion as the last one. -/
structure Records (p : Program) (s s' : State) (block : List Scope) (completion : Completion) :
    Prop where
  enters : Enters p s s' s'.depth block
  only {position : Nat} {block' : List Scope} : Enters p s s' position block' →
    position = s'.depth ∧ block' = block
  address : ∃ scope outer t address, block = scope :: outer ∧ p.tries[scope.table]? = some t ∧
    t.cleanup? = some address ∧ s'.frame.ip = address.toInt.toNat
  waiting : ∃ kept, s'.waiting = ⟨s'.depth, completion⟩ :: kept ∧ kept <:+ s.waiting

theorem records_of_passage (hstanding : Standing loose p maxStack s f state slots)
    (hstanding' : Standing loose p maxStack s' f' state' slots')
    (hpassage : Passage p s state.scopes slots s' state'.scopes slots') :
    (s'.waiting <:+ s.waiting ∧ ∀ position block, ¬Enters p s s' position block) ∨
      ∃ block completion, Records p s s' block completion := by
  obtain ⟨depth', scopes'⟩ := state'
  cases hpassage with
  | keep hremains hnone =>
    left
    refine ⟨by rw [hstanding'.waiting, hstanding.waiting]; exact hremains.live, ?_⟩
    rintro position block ⟨⟨scope, outer, rfl, hkind⟩, hafter, hbefore⟩
    obtain ⟨table, kind, depth⟩ := scope
    cases hkind
    exact hbefore (hstanding.openAt_iff.1 (hnone _ _ _ _ (hstanding'.openAt_iff.2 hafter)))
  | @enter t address table entered outer kept completion htable haddress hip hremains hnone
      hinside =>
    right
    refine ⟨_, completion, ⟨⟨_, _, rfl, rfl⟩, ?_, ?_⟩, ?_,
      ⟨⟨table, .cleanup, entered⟩, outer, t, address, rfl, htable, haddress, hip⟩, live kept,
      hstanding'.waiting, by rw [hstanding.waiting]; exact hremains.live⟩
    · exact ⟨[], s'.frame, s'.frames.tail, _, rfl, length_callers s', hstanding'.flow,
        List.suffix_refl _⟩
    · exact fun hold => hinside.not_cleanup (hstanding.openAt_iff.2 hold)
    · rintro position block' ⟨⟨scope, outer', rfl, hkind⟩, hafter, hbefore⟩
      obtain ⟨table', kind, depth⟩ := scope
      cases hkind
      -- what is open outside of the new block was open before, so it is not entered
      rcases (hstanding'.openAt_iff.2 hafter).cons_cases with hsame | houter
      · exact hsame
      · exact absurd (hstanding.openAt_iff.1 (hnone _ _ _ _ houter)) hbefore

/-- The instruction at hand, if it can be decoded. -/
def State.op? (p : Program) (s : State) : Option Opcode :=
  (p.code[s.frame.ip]?).bind Instruction.op?

/-- How the states of an execution keep to their finally blocks, where `reaches n s` says that `s`
is the state after `n` instructions. -/
structure Disciplined (p : Program) (limits : Limits) (reaches : Nat → State → Prop) : Prop where
  /-- A step that enters a finally block records one completion; no other step records any. -/
  records {n : Nat} {s s' : State} : reaches n s → step p limits s = some (.next s') →
    (s'.waiting <:+ s.waiting ∧ ∀ position block, ¬Enters p s s' position block) ∨
      ∃ block completion, Records p s s' block completion
  /-- At the end of a finally block, the block was entered by an earlier step and has been open since
  then, and the completion that step recorded is the one that goes on. -/
  resumes {n : Nat} {s : State} : reaches n s → s.op? p = some .endFinally →
    ∃ state, p.flowState? s.frame.function s.frame.ip = some state ∧
      ∃ i t t' completion, i < n ∧ reaches i t ∧ step p limits t = some (.next t') ∧
        Enters p t t' s.depth state.scopes ∧
        (∀ j u, i < j → j ≤ n → reaches j u → Active p u s.depth state.scopes) ∧
        t'.pending.back? = some ⟨s.depth, completion⟩ ∧
        s.pending.back? = some ⟨s.depth, completion⟩
  /-- Whatever step entered the block that comes to its end, its completion is the one. -/
  same {i n : Nat} {s t t' : State} {state : FlowState} : reaches i t →
    step p limits t = some (.next t') → i < n → reaches n s → s.op? p = some .endFinally →
    p.flowState? s.frame.function s.frame.ip = some state → Enters p t t' s.depth state.scopes →
    (∀ j u, i < j → j ≤ n → reaches j u → Active p u s.depth state.scopes) →
    s.pending.back? = t'.pending.back?
  /-- A try construct that is left is open in the executing frame. -/
  leaves {n : Nat} {s : State} : reaches n s → s.op? p = some .popTry →
    ∃ g guards, s.guards = g :: guards ∧ g.frame = s.depth

theorem AllRecorded.resumes (h : AllRecorded p limits start n s slots)
    (hstanding : Standing loose p limits.maxStack s f state slots)
    (hscopes : state.scopes = ⟨table, .cleanup, depth⟩ :: outer) :
    ∃ i t t' completion, i < n ∧ run p limits i start = .unfinished t ∧
      step p limits t = some (.next t') ∧ Enters p t t' s.depth state.scopes ∧
      (∀ j u, i < j → j ≤ n → run p limits j start = .unfinished u →
        Active p u s.depth state.scopes) ∧
      t'.pending.back? = some ⟨s.depth, completion⟩ ∧
      s.pending.back? = some ⟨s.depth, completion⟩ := by
  have hactive : Active p s s.depth state.scopes :=
    ⟨[], s.frame, s.frames.tail, state, rfl, length_callers s, hstanding.flow, List.suffix_refl _⟩
  obtain ⟨pending, -, -, -, -, hhead, hback, -⟩ := hstanding.innermost_slot hscopes
  have hcount := Framed.length_slots hstanding.framed
  rw [hscopes] at hactive hcount ⊢
  obtain ⟨i, t, t', completion, hi, ht, hstep, henters, hrecord, hopen, hslot⟩ := h _ _ _ _ hactive
  refine ⟨i, t, t', completion, hi, ht, hstep, henters, hopen, hrecord, ?_⟩
  have hlast : slots.reverse[cleanups outer + cleanupsBelow p s.frames.tail]? =
      some (some pending) := by
    obtain ⟨rest, rfl⟩ := List.head?_eq_some_iff.1 hhead
    have hlength : rest.length = cleanups outer + cleanupsBelow p s.frames.tail := by
      simp only [cleanups, List.length_cons, List.countP_cons, decide_true, if_true] at hcount ⊢
      unfold State.frames
      simp only [List.tail_cons]
      omega
    simp [← hlength]
  rcases hslot s.frames.tail (List.suffix_refl _) (length_callers s) with heq | hnone
  · cases hlast.symm.trans heq
    exact hback
  · cases hlast.symm.trans hnone

theorem Standing.poised_of_op? {op : Opcode} (hp : Verified p)
    (h : Standing loose p maxStack s f state slots) (hop : s.op? p = some op) :
    ∃ ins, Poised p f (p.flowState? s.frame.function) s.frame.ip state op ins := by
  obtain ⟨op', ins, hins⟩ := poised_of_flow hp h.function h.flow
  obtain rfl : op' = op := by simpa [State.op?, hins.code, hins.decoded] using hop
  exact ⟨ins, hins⟩

theorem disciplined_of_standing (hp : Verified p) (hreturn : ReturnsDischarge loose p)
    (hstart : Standing loose p limits.maxStack start f ⟨0, []⟩ [])
    (hcallers : start.callers = #[]) :
    Disciplined p limits fun n s => run p limits n start = .unfinished s := by
  have hresumes {n : Nat} {s : State} (hs : run p limits n start = .unfinished s)
      (hop : s.op? p = some .endFinally) :
      ∃ state, p.flowState? s.frame.function s.frame.ip = some state ∧
        ∃ i t t' completion, i < n ∧ run p limits i start = .unfinished t ∧
          step p limits t = some (.next t') ∧ Enters p t t' s.depth state.scopes ∧
          (∀ j u, i < j → j ≤ n → run p limits j start = .unfinished u →
            Active p u s.depth state.scopes) ∧
          t'.pending.back? = some ⟨s.depth, completion⟩ ∧
          s.pending.back? = some ⟨s.depth, completion⟩ := by
    obtain ⟨f', state, slots, hstanding, hrecorded⟩ :=
      allRecorded_of_run hp hreturn hstart hcallers hs
    obtain ⟨ins, hins⟩ := hstanding.poised_of_op? hp hop
    obtain ⟨table, outer, hscopes⟩ := hins.endFinally
    exact ⟨state, hstanding.flow, hrecorded.resumes hstanding hscopes⟩
  refine ⟨?_, hresumes, ?_, ?_⟩
  · intro n s s' hs hstep
    obtain ⟨f', state, slots, hstanding, -⟩ := allRecorded_of_run hp hreturn hstart hcallers hs
    have hlands := hstanding.lands_step hp hreturn
    rw [hstep] at hlands
    cases hlands with
    | next slots' hstanding' hpassage _ _ => exact records_of_passage hstanding hstanding' hpassage
  · intro i n s t t' state ht hstep hi hs hop hflow henters hopen
    obtain ⟨state', hflow', i', t₁, t₁', completion, hi', ht₁, hstep₁, henters₁, hopen₁, hrecord,
        hback⟩ :=
      hresumes hs hop
    cases hflow.symm.trans hflow'
    -- of two steps that enter the block, the earlier one would have left it open at the later one
    rcases Nat.lt_trichotomy i i' with hlt | rfl | hlt
    · exact absurd (hopen i' t₁ hlt (by omega) ht₁) henters₁.before
    · cases ht.symm.trans ht₁
      cases hstep.symm.trans hstep₁
      rw [hback, hrecord]
    · exact absurd (hopen₁ i t hlt (by omega) ht) henters.before
  · intro n s hs hop
    obtain ⟨f', state, slots, hstanding, -⟩ := allRecorded_of_run hp hreturn hstart hcallers hs
    obtain ⟨ins, hins⟩ := hstanding.poised_of_op? hp hop
    obtain ⟨table, outer, hscopes, -⟩ := hins.popTry
    obtain ⟨g, guards, hguards, hg, -⟩ := hstanding.innermost_guard hscopes
    exact ⟨g, guards, hguards, hg⟩

end

/-- Wherever a return from these scopes enters a finally block, every finally block outside of it
comes before all try constructs, so that no guard which stays open counts a completion that is given
up. -/
def ReturnSettles (p : Program) : List Scope → Prop
  | [] => True
  | scope :: outer =>
    (scope.kind = .guarded → ((p.tries[scope.table]?).bind TryTable.cleanup?).isSome →
      Settled outer) ∧ ReturnSettles p outer

instance (scopes : List Scope) : Decidable (Settled scopes) :=
  inferInstanceAs (Decidable (scopes.Pairwise _))

instance ReturnSettles.decidable (p : Program) :
    (scopes : List Scope) → Decidable (ReturnSettles p scopes)
  | [] => isTrue trivial
  | _ :: outer => @instDecidableAnd _ _ inferInstance (ReturnSettles.decidable p outer)

/-- Every return instruction that control comes to leaves no guard that counts a completion which it
gives up. -/
def ReturnsSettle (p : Program) : Prop :=
  ∀ index < p.functions.size, ∀ pc < p.code.size,
    (p.code[pc]?).bind Instruction.op? = some .ret →
    ∀ state ∈ p.flowState? index pc, ReturnSettles p state.scopes

instance (p : Program) : Decidable (ReturnsSettle p) :=
  inferInstanceAs (Decidable (∀ index < p.functions.size, ∀ pc < p.code.size,
    (p.code[pc]?).bind Instruction.op? = some .ret →
    ∀ state ∈ p.flowState? index pc, ReturnSettles p state.scopes))

theorem ReturnSettles.settled {p : Program} {scopes outer : List Scope} {scope : Scope}
    (h : ReturnSettles p scopes) (hs : scope :: outer <:+ scopes) (hkind : scope.kind = .guarded)
    (hcleanup : ((p.tries[scope.table]?).bind TryTable.cleanup?).isSome) : Settled outer := by
  induction scopes with
  | nil => simp at hs
  | cons first rest ih =>
    rcases List.suffix_cons_iff.1 hs with heq | hs
    · obtain ⟨rfl, rfl⟩ := List.cons.inj heq
      exact h.1 hkind hcleanup
    · exact ih h.2 hs

theorem ReturnsSettle.discharge {p : Program} (h : ReturnsSettle p) : ReturnsDischarge True p := by
  intro index pc ins state hcode hop hflow table depth outer hs ⟨t, ht, hcleanup⟩
  have hpc := (Array.getElem?_eq_some_iff.1 hcode).1
  have hsettles := h index (lt_of_flowState? hflow) pc hpc (by simp [hcode, hop]) state hflow
  exact ⟨hsettles.settled hs rfl (by simpa [ht] using hcleanup), fun _ => trivial⟩

/-- The executions of a verified program keep to their finally blocks, as long as its returns leave
no guard that counts a completion which they give up. -/
theorem invoke_disciplined {p q : Program} (hverify : p.verify = .ok q) (hreturn : ReturnsSettle q)
    (m : Machine) (hprogram : m.program = q) (hglobals : m.world.globals.size = q.globals.size)
    (index : Nat) (args : List Value) :
    Disciplined q m.limits fun n s => m.invoke n index args = .ok (.unfinished s) := by
  have hp := verified_of_verify hverify
  subst hprogram
  unfold invoke
  cases hf : m.program.functions[index]? with
  | none => exact ⟨nofun, nofun, nofun, nofun⟩
  | some f =>
    rcases standing_of_start (w := { m.world with output := #[] }) m.limits args hp hf hglobals with
      ⟨finished, hstart⟩ | ⟨s, hstart, -, hcallers, hstanding⟩
    · simp only [hstart]
      exact ⟨nofun, nofun, nofun, nofun⟩
    · simp only [hstart, Except.ok.injEq]
      exact disciplined_of_standing hp hreturn.discharge hstanding hcallers

/-- A finally block in which a try construct with a finally block of its own may return. -/
def nestedReturn : Program where
  constants := #[.nil]
  functions := #[⟨mainName, 0, 11, 0, 0, [], 1⟩]
  tries := #[⟨[], 2⟩, ⟨[], 8⟩]
  code := #[.of .pushTry, .of .popTry 10, .of .pushTry 1, .of .loadConst, .of .jumpIfFalse 7,
    .of .loadConst, .of .ret, .of .popTry 9, .of .endFinally, .of .endFinally, .of .halt]

theorem invoke_disciplined_nestedReturn : nestedReturn.verify = .ok nestedReturn ∧
    ReturnsSettle nestedReturn ∧
    Disciplined nestedReturn {} fun n s =>
      (create nestedReturn {} [] {}).invoke n 0 [] = .ok (.unfinished s) := by
  have hverify : nestedReturn.verify = .ok nestedReturn := eq_ok_of_toOption (by decide +kernel)
  have hreturn : ReturnsSettle nestedReturn := by decide +kernel
  exact ⟨hverify, hreturn,
    invoke_disciplined hverify hreturn (create nestedReturn {} [] {}) rfl rfl 0 []⟩

/-- A finally block in which a try construct catches what is thrown on the way of a return. -/
def caughtReturn : Program where
  constants := #[.nil]
  functions := #[⟨mainName, 0, 12, 0, 0, [], 1⟩]
  tries := #[⟨[], 2⟩, ⟨[⟨noIndex, 8⟩], noIndex⟩, ⟨[], 6⟩]
  code := #[.of .pushTry, .of .popTry 11, .of .pushTry 1, .of .pushTry 2, .of .loadConst, .of .ret,
    .of .loadConst, .of .throw, .of .pop, .of .popTry 10, .of .endFinally, .of .halt]

def caughtReturnPending (n : Nat) : Option (Option Opcode × Option Pending) :=
  match (create caughtReturn {} [] {}).invoke n 0 [] with
  | .ok (.unfinished s) => some (s.op? caughtReturn, s.pending.back?)
  | _ => none

/-- The second step enters the outer finally block and records a jump. The return that is given up
later comes to stand in its place, and goes on at the end of the block. -/
theorem caughtReturn_resumed :
    caughtReturn.verify = .ok caughtReturn ∧ ¬ReturnsSettle caughtReturn ∧
    caughtReturnPending 2 = some (some .pushTry, some ⟨0, .jump 11⟩) ∧
    caughtReturnPending 10 = some (some .endFinally, some ⟨0, .result .nil⟩) := by
  refine ⟨eq_ok_of_toOption (by decide +kernel), ?_, ?_, ?_⟩
  · decide +kernel
  · decide +kernel
  · decide +kernel

end Machine
end ScriptMachine
