import ScriptMachine.Proofs.Machine.Effect
import ScriptMachine.Proofs.Verify.Accepted

namespace ScriptMachine
namespace Machine
open Verify

def State.waiting (s : State) : List Pending := s.pending.toList.reverse

/-- A clause names a string constant or catches everything, and its handler stands at the given flow
state. -/
structure ClauseTyped (p : Program) (φ : Assignment) (state : FlowState) (clause : CatchClause) :
    Prop where
  filter : clause.filter ≠ noIndex → (filterText? p clause).isSome
  handler : φ clause.handler.toInt.toNat = some state

/-- A try table whose handlers and finally block have the flow states in which control comes to them
from a construct that was entered in `outer`. -/
def TableTyped (p : Program) (φ : Assignment) (table : Nat) (outer : FlowState) : Prop :=
  ∃ t, p.tries[table]? = some t ∧
    (∀ clause ∈ t.clauses, ClauseTyped p φ
      ⟨outer.depth + 1, ⟨table, .guarded, outer.depth⟩ :: outer.scopes⟩ clause) ∧
    ∀ address, t.cleanup? = some address →
      φ address.toInt.toNat = some ⟨outer.depth, ⟨table, .cleanup, outer.depth⟩ :: outer.scopes⟩

def ScopesTyped (p : Program) (φ : Assignment) : List Scope → Prop
  | [] => True
  | scope :: outer => TableTyped p φ scope.table ⟨scope.depth, outer⟩ ∧ ScopesTyped p φ outer

/-- What may go on after a finally block that was entered at an operand depth inside `outer`, apart
from a return. -/
def Resumable (φ : Assignment) (depth : Nat) (outer : List Scope) : Completion → Prop
  | .jump target => φ target = some ⟨depth, outer⟩
  | .rethrow _ => True
  | .result _ => False

/-- The completions of open finally blocks that have not been given up. -/
def live (slots : List (Option Pending)) : List Pending := slots.filterMap id

/-- The open scopes of the frame at a position, whose operands start at `low` and below which
`below` completions wait. Its guards are the guarded scopes in order, and there is a slot for each
cleanup scope. A return that waits may have given up the completions of the finally blocks next to
it, where `loose` says so; no guard stands between them, so none counts what is gone. -/
inductive Tracks (loose : Prop) (φ : Assignment) (position low below : Nat) :
    List Scope → List Guard → List (Option Pending) → Prop
  | nil : Tracks loose φ position low below [] [] []
  | guarded {table depth : Nat} {outer : List Scope} {guards : List Guard}
      {slots : List (Option Pending)} {phase : Phase} :
      Tracks loose φ position low below outer guards slots →
      Tracks loose φ position low below (⟨table, .guarded, depth⟩ :: outer)
        (⟨table, position, low + depth, below + (live slots).length, phase⟩ :: guards) slots
  | cleanup {table depth : Nat} {outer : List Scope} {guards : List Guard}
      {slots : List (Option Pending)} {completion : Completion} :
      Tracks loose φ position low below outer guards slots → Resumable φ depth outer completion →
      Tracks loose φ position low below (⟨table, .cleanup, depth⟩ :: outer) guards
        (some ⟨position, completion⟩ :: slots)
  | returning {table depth : Nat} {dropped outer : List Scope} {guards : List Guard} {v : Value} :
      Tracks loose φ position low below outer guards [] →
      (∀ scope ∈ dropped, scope.kind = .cleanup) → (dropped ≠ [] → loose) →
      Tracks loose φ position low below (⟨table, .cleanup, depth⟩ :: (dropped ++ outer)) guards
        (some ⟨position, .result v⟩ :: List.replicate dropped.length none)

/-- A frame that has room for its deepest operand stack and whose guards and slots are those of the
given scopes. -/
structure Holds (loose : Prop) (p : Program) (maxStack : Nat) (frame : Frame) (f : Function)
    (position below : Nat) (scopes : List Scope) (guards : List Guard)
    (slots : List (Option Pending)) : Prop where
  function : p.functions[frame.function]? = some f
  room : frame.base + f.localCount + f.maxStackDepth ≤ maxStack
  typed : ScopesTyped p (p.flowState? frame.function) scopes
  tracks : Tracks loose (p.flowState? frame.function) position (frame.base + f.localCount) below
    scopes guards slots

/-- A frame that waits for the result of a call: with it, the operands reach the depth of its next
instruction. -/
structure Suspended (p : Program) (caller : Frame) (base : Nat) (scopes : List Scope) : Prop where
  resumes : ∃ g depth, p.functions[caller.function]? = some g ∧
    p.flowState? caller.function caller.ip = some ⟨depth, scopes⟩ ∧
    base + 1 = caller.base + g.localCount + depth

/-- Frames, innermost first, with the open scopes of the innermost one, all guards and all slots. -/
inductive Framed (loose : Prop) (p : Program) (maxStack : Nat) :
    List Frame → List Scope → List Guard → List (Option Pending) → Prop
  | entry {frame : Frame} {f : Function} {scopes : List Scope} {guards : List Guard}
      {slots : List (Option Pending)} : frame.base = 0 →
      Holds loose p maxStack frame f 0 0 scopes guards slots →
      Framed loose p maxStack [frame] scopes guards slots
  | called {frame caller : Frame} {f : Function} {rest : List Frame} {scopes outer : List Scope}
      {guards guards' : List Guard} {slots slots' : List (Option Pending)} :
      Holds loose p maxStack frame f (rest.length + 1) (live slots').length scopes guards slots →
      Suspended p caller frame.base outer →
      Framed loose p maxStack (caller :: rest) outer guards' slots' →
      Framed loose p maxStack (frame :: caller :: rest) scopes (guards ++ guards')
        (slots ++ slots')

/-- Scopes that are open in the frame at a position, where those of the innermost frame are given
and those of a caller are read off its address. -/
def OpenAt (p : Program) (frames : List Frame) (scopes : List Scope) (position : Nat)
    (inner : List Scope) : Prop :=
  ∃ above frame rest, frames = above ++ frame :: rest ∧ rest.length = position ∧
    (above = [] → inner <:+ scopes) ∧
    (above ≠ [] → ∃ state, p.flowState? frame.function frame.ip = some state ∧
      inner <:+ state.scopes)

section

variable {loose : Prop} {p : Program} {φ : Assignment} {maxStack position low below : Nat}
variable {s s' : State} {frame : Frame} {frames rest : List Frame}
    {scopes scopes' inner : List Scope}
variable {g : Guard} {guards outer : List Guard} {slots : List (Option Pending)}

theorem OpenAt.suffix {inner' : List Scope} (h : OpenAt p frames scopes position inner)
    (hs : inner' <:+ inner) :
    OpenAt p frames scopes position inner' := by
  obtain ⟨above, frame, rest, hframes, hlength, hfirst, hlater⟩ := h
  refine ⟨above, frame, rest, hframes, hlength, fun h => hs.trans (hfirst h), fun h => ?_⟩
  obtain ⟨state, hstate, hinner⟩ := hlater h
  exact ⟨state, hstate, hs.trans hinner⟩

theorem OpenAt.extend {frame' : Frame} (h : OpenAt p (frame' :: rest) scopes' position inner)
    (hlt : position < rest.length) (hs : frame :: rest <:+ frames) :
    OpenAt p frames scopes position inner := by
  obtain ⟨above, lower, rest', hframes, hlength, -, hlater⟩ := h
  obtain ⟨top, rfl⟩ := hs
  cases above with
  | nil =>
    obtain ⟨-, rfl⟩ := List.cons.inj hframes
    omega
  | cons _ above =>
    obtain ⟨-, rfl⟩ := List.cons.inj hframes
    exact ⟨top ++ frame :: above, lower, rest', by simp, hlength, by simp, fun _ =>
      hlater (by simp)⟩

theorem OpenAt.trans (h : OpenAt p (frame :: rest) scopes' position inner)
    (hs : frame :: rest <:+ frames) (houter : OpenAt p frames scopes rest.length scopes') :
    OpenAt p frames scopes position inner := by
  by_cases hlt : position < rest.length
  · exact h.extend hlt hs
  · obtain ⟨above, lower, rest', hframes, hlength, hfirst, -⟩ := h
    cases above with
    | nil =>
      obtain ⟨-, rfl⟩ := List.cons.inj hframes
      exact hlength ▸ houter.suffix (hfirst rfl)
    | cons top above =>
      have hcount := congrArg List.length hframes
      simp only [List.cons_append, List.length_cons, List.length_append] at hcount
      omega

theorem ScopesTyped.suffix (h : ScopesTyped p φ scopes) (hs : scopes' <:+ scopes) :
    ScopesTyped p φ scopes' := by
  induction scopes with
  | nil =>
    rw [List.suffix_nil.1 hs]
    trivial
  | cons scope outer ih =>
    rcases List.suffix_cons_iff.1 hs with rfl | hs
    · exact h
    · exact ih h.2 hs

@[simp] theorem live_append (xs ys : List (Option Pending)) :
    live (xs ++ ys) = live xs ++ live ys :=
  List.filterMap_append

@[simp] theorem live_replicate_none (n : Nat) : live (List.replicate n none) = [] := by
  induction n with
  | zero => rfl
  | succ n ih => simp [live]

theorem live_suffix {xs ys : List (Option Pending)} (h : xs <:+ ys) : live xs <:+ live ys := by
  obtain ⟨zs, rfl⟩ := h
  exact ⟨live zs, (live_append zs xs).symm⟩

theorem Tracks.at_guard (h : Tracks loose φ position low below scopes (g :: outer) slots) :
    ∃ depth scopes' slots', (⟨g.table, .guarded, depth⟩ :: scopes') <:+ scopes ∧
      slots' <:+ slots ∧ g.frame = position ∧ g.stackSize = low + depth ∧
      g.pendingSize = below + (live slots').length ∧
      Tracks loose φ position low below scopes' outer slots' := by
  generalize hguards : g :: outer = guards at h
  induction h with
  | nil => cases hguards
  | @guarded table depth scopes' guards slots phase htracks ih =>
    obtain ⟨rfl, rfl⟩ := List.cons.inj hguards
    exact ⟨depth, scopes', slots, List.suffix_refl _, List.suffix_refl _, rfl, rfl, rfl, htracks⟩
  | cleanup htracks hresume ih =>
    obtain ⟨depth', scopes'', slots', hscopes, hslots, hrest⟩ := ih hguards
    exact ⟨depth', scopes'', slots', hscopes.trans (List.suffix_cons _ _),
      hslots.trans (List.suffix_cons _ _), hrest⟩
  | @returning table depth dropped outer guards v htracks hdropped hloose ih =>
    obtain ⟨depth', scopes'', slots', hscopes, hslots, hrest⟩ := ih hguards
    refine ⟨depth', scopes'', slots', hscopes.trans ?_, hslots.trans (List.nil_suffix), hrest⟩
    exact (List.suffix_append dropped outer).trans (List.suffix_cons _ _)

theorem Tracks.frame_eq (h : Tracks loose φ position low below scopes guards slots) :
    (∀ g ∈ guards, g.frame = position) ∧ ∀ pending ∈ live slots, pending.frame = position := by
  induction h with
  | nil => simp [live]
  | guarded _ ih => exact ⟨List.forall_mem_cons.2 ⟨rfl, ih.1⟩, ih.2⟩
  | cleanup _ _ ih => exact ⟨ih.1, List.forall_mem_cons.2 ⟨rfl, ih.2⟩⟩
  | @returning _ _ dropped outer _ v _ _ _ ih =>
    have hlive : live (some ⟨position, .result v⟩ :: List.replicate dropped.length none) =
        [⟨position, .result v⟩] := congrArg (_ :: ·) (live_replicate_none dropped.length)
    exact ⟨ih.1, by simp [hlive]⟩

theorem Framed.frame_lt (h : Framed loose p maxStack frames scopes guards slots) :
    (∀ g ∈ guards, g.frame < frames.length) ∧
      ∀ pending ∈ live slots, pending.frame < frames.length := by
  induction h with
  | entry _ hholds =>
    have heq := hholds.tracks.frame_eq
    exact ⟨fun g hg => by simp [heq.1 g hg], fun c hc => by simp [heq.2 c hc]⟩
  | called hholds _ _ ih =>
    have heq := hholds.tracks.frame_eq
    refine ⟨fun g hg => ?_, fun c hc => ?_⟩
    · rcases List.mem_append.1 hg with hg | hg
      · simp [heq.1 g hg]
      · exact Nat.lt_succ_of_lt (ih.1 g hg)
    · rw [live_append] at hc
      rcases List.mem_append.1 hc with hc | hc
      · simp [heq.2 c hc]
      · exact Nat.lt_succ_of_lt (ih.2 c hc)

/-- The executing frame with the guards and slots of its own, apart from those of its callers. -/
structure Focused (loose : Prop) (p : Program) (maxStack : Nat) (frame : Frame) (rest : List Frame)
    (scopes : List Scope) (f : Function) (own guards : List Guard)
    (mine slots : List (Option Pending)) : Prop where
  holds : Holds loose p maxStack frame f rest.length (live slots).length scopes own mine
  guards_lt : ∀ g ∈ guards, g.frame < rest.length
  slots_lt : ∀ pending ∈ live slots, pending.frame < rest.length
  callers : rest = [] ∧ frame.base = 0 ∧ guards = [] ∧ slots = [] ∨
    ∃ caller rest' outer, rest = caller :: rest' ∧ Suspended p caller frame.base outer ∧
      Framed loose p maxStack rest outer guards slots

theorem Framed.focus (h : Framed loose p maxStack (frame :: rest) scopes guards slots) :
    ∃ f own guards' mine slots', guards = own ++ guards' ∧ slots = mine ++ slots' ∧
      Focused loose p maxStack frame rest scopes f own guards' mine slots' := by
  cases h with
  | @entry _ f _ _ _ hbase hholds =>
    exact ⟨f, guards, [], slots, [], by simp, by simp, hholds, by simp, by simp [live],
      .inl ⟨rfl, hbase, rfl, rfl⟩⟩
  | @called _ caller f rest _ outer own guards' mine slots' hholds hsuspended hframed =>
    have hlt := hframed.frame_lt
    exact ⟨f, own, guards', mine, slots', rfl, rfl, hholds, hlt.1, hlt.2,
      .inr ⟨caller, rest, outer, rfl, hsuspended, hframed⟩⟩

theorem Focused.framed {f : Function} {own own' : List Guard} {mine mine' : List (Option Pending)}
    (frame' : Frame) (h : Focused loose p maxStack frame rest scopes f own guards mine slots)
    (hfunction : frame'.function = frame.function) (hbase : frame'.base = frame.base)
    (htracks : Tracks loose (p.flowState? frame.function) rest.length (frame.base + f.localCount)
      (live slots).length scopes' own' mine')
    (htyped : ScopesTyped p (p.flowState? frame.function) scopes') :
    Framed loose p maxStack (frame' :: rest) scopes' (own' ++ guards) (mine' ++ slots) := by
  have hholds : Holds loose p maxStack frame' f rest.length
      (live slots).length scopes' own' mine' := by
    refine ⟨?_, ?_, ?_, ?_⟩
    · rw [hfunction]
      exact h.holds.function
    · rw [hbase]
      exact h.holds.room
    · rw [hfunction]
      exact htyped
    · rw [hfunction, hbase]
      exact htracks
  rcases h.callers with ⟨rfl, hzero, rfl, rfl⟩ | ⟨caller, rest', outer, rfl, hsuspended, hframed⟩
  · simpa using Framed.entry (hbase.trans hzero) hholds
  · exact Framed.called hholds (hbase ▸ hsuspended) hframed

/-- The frame of the innermost guard: cutting the frames and the slots back to it leaves the scopes
outside of the guard open. -/
theorem Framed.at_guard (h : Framed loose p maxStack frames scopes (g :: outer) slots) :
    ∃ frame rest f depth scopes' slots', frame :: rest <:+ frames ∧ rest.length = g.frame ∧
      slots' <:+ slots ∧ (live slots').length = g.pendingSize ∧
      p.functions[frame.function]? = some f ∧ g.stackSize = frame.base + f.localCount + depth ∧
      ScopesTyped p (p.flowState? frame.function) (⟨g.table, .guarded, depth⟩ :: scopes') ∧
      Framed loose p maxStack (frame :: rest) scopes' outer slots' ∧
      OpenAt p frames scopes g.frame (⟨g.table, .guarded, depth⟩ :: scopes') := by
  generalize hguards : g :: outer = guards at h
  induction h with
  | @entry frame f scopes guards slots hbase hholds =>
    subst hguards
    obtain ⟨depth, scopes', slots', hscopes, hslots, hframe, hstack, hpending, htracks⟩ :=
      hholds.tracks.at_guard
    have htyped := hholds.typed.suffix hscopes
    exact ⟨frame, [], f, depth, scopes', slots', List.suffix_refl _, hframe.symm, hslots,
      by omega, hholds.function, hstack, htyped,
      .entry hbase ⟨hholds.function, hholds.room, htyped.2, htracks⟩,
      ⟨[], frame, [], rfl, hframe.symm, fun _ => hscopes, by simp⟩⟩
  | @called frame caller f rest scopes scopes₁ own guards' mine slots₁ hholds hsuspended hframed
      ih =>
    cases own with
    | cons g' own' =>
      obtain ⟨rfl, rfl⟩ := List.cons.inj hguards
      obtain ⟨depth, scopes', mine', hscopes, hmine, hframe, hstack, hpending, htracks⟩ :=
        hholds.tracks.at_guard
      have htyped := hholds.typed.suffix hscopes
      refine ⟨frame, caller :: rest, f, depth, scopes', mine' ++ slots₁, List.suffix_refl _,
        hframe.symm, ?_, by simp only [live_append, List.length_append]; omega, hholds.function,
        hstack, htyped, .called ⟨hholds.function, hholds.room, htyped.2,
        htracks⟩ hsuspended hframed, ⟨[], frame, caller :: rest, rfl, hframe.symm, fun _ =>
        hscopes, by simp⟩⟩
      obtain ⟨inner, rfl⟩ := hmine
      exact ⟨inner, by simp⟩
    | nil =>
      obtain ⟨frame', rest', f', depth, scopes', slots', hframes, hlength, hslots, hcount,
        hfunction, hstack, htyped, hframed', hopen⟩ := ih hguards
      refine ⟨frame', rest', f', depth, scopes', slots', hframes.trans (List.suffix_cons _ _),
        hlength, hslots.trans (List.suffix_append _ _), hcount, hfunction, hstack, htyped,
        hframed', ?_⟩
      obtain ⟨g', depth', -, hflow, -⟩ := hsuspended.resumes
      exact hopen.trans (List.suffix_cons _ _)
        ⟨[frame], caller, rest, rfl, rfl, by simp, fun _ => ⟨_, hflow, List.suffix_refl _⟩⟩

theorem length_frames (s : State) : s.frames.length = s.depth + 1 := by
  simp [State.frames, State.depth]

theorem depth_le_of_suffix (h : s'.frames <:+ s.frames) : s'.depth ≤ s.depth := by
  have := h.length_le
  simp only [length_frames] at this
  omega

theorem frames_eq_of_suffix (h : s'.frames <:+ s.frames) (hd : s.depth ≤ s'.depth) :
    s'.frames = s.frames := by
  refine h.eq_of_length_le ?_
  simp only [length_frames]
  omega

theorem backTo?_eq_some {above : List Frame} (h : s.frames = above ++ frame :: rest) :
    ∃ callers, s.backTo? rest.length = some { s with frame, callers } ∧
      callers.toList.reverse = rest := by
  unfold State.frames at h
  cases above with
  | nil =>
    obtain ⟨rfl, rfl⟩ := List.cons.inj h
    exact ⟨s.callers, by simp [State.backTo?], rfl⟩
  | cons top above =>
    obtain ⟨-, hcallers⟩ := List.cons.inj h
    have hlist : s.callers.toList = rest.reverse ++ frame :: above.reverse := by
      rw [← List.reverse_reverse s.callers.toList, hcallers]
      simp
    have hsize : s.callers.size = rest.length + (above.length + 1) := by
      simpa using congrArg List.length hlist
    have hget : s.callers[rest.length]? = some frame := by
      rw [← Array.getElem?_toList, hlist]
      simp
    refine ⟨s.callers.shrink rest.length, ?_, ?_⟩
    · rw [State.backTo?, if_neg (by omega), hget]
    · rw [Array.toList_shrink, hlist]
      simp

theorem waiting_resize {xs : Array Pending} {waiting : List Pending} {n : Nat} (fill : Pending)
    (h : waiting <:+ xs.toList.reverse) (hn : waiting.length = n) :
    (resize xs n fill).toList.reverse = waiting := by
  obtain ⟨dropped, hdropped⟩ := h
  have hlist : xs.toList = waiting.reverse ++ dropped.reverse := by
    rw [← List.reverse_reverse xs.toList, ← hdropped]
    simp
  have hsize : xs.size = waiting.length + dropped.length := by
    simpa using congrArg List.length hlist
  unfold resize
  rw [if_pos (by omega), Array.toList_shrink, hlist, ← hn]
  simp

/-- A state that has been cut back to an open guard, outside of which the guards `outer` and the
given scopes and slots are left. -/
structure Cut (loose : Prop) (p : Program) (maxStack : Nat) (s : State) (scopes : List Scope)
    (slots : List (Option Pending)) (g : Guard) (outer : List Guard) (s' : State) (depth : Nat)
    (scopes' : List Scope) (slots' : List (Option Pending)) : Prop where
  position : s'.depth = g.frame
  frames : s'.frames <:+ s.frames
  slots : slots' <:+ slots
  waiting : s'.waiting = live slots'
  framed : Framed loose p maxStack s'.frames scopes' outer slots'
  typed : ScopesTyped p (p.flowState? s'.frame.function) (⟨g.table, .guarded, depth⟩ :: scopes')
  size : ∃ f, p.functions[s'.frame.function]? = some f ∧
    s'.stack.size = s'.frame.base + f.localCount + depth
  stackSize : g.stackSize = s'.stack.size
  pendingSize : g.pendingSize = (live slots').length
  inside : OpenAt p s.frames scopes g.frame (⟨g.table, .guarded, depth⟩ :: scopes')
  world : s'.world = s.world
  agree : s.depth ≤ s'.depth → s.frame.base ≤ s.stack.size → Agree s.frame.base s.stack s'.stack

theorem cut_of_framed (h : Framed loose p maxStack s.frames scopes (g :: outer) slots)
    (hwaiting : s.waiting = live slots) :
    ∃ s' depth scopes' slots', rewind? s g = some s' ∧
      Cut loose p maxStack s scopes slots g outer s' depth scopes' slots' := by
  obtain ⟨frame, rest, f, depth, scopes', slots', ⟨above, hframes⟩, hlength, hslots, hcount,
    hfunction, hstack, htyped, hframed, hopen⟩ := h.at_guard
  obtain ⟨callers, hback, hcallers⟩ := backTo?_eq_some hframes.symm
  have hsuffix : live slots' <:+ s.pending.toList.reverse := by
    rw [show s.pending.toList.reverse = live slots from hwaiting]
    exact live_suffix hslots
  have hpending := waiting_resize ⟨0, .jump 0⟩ hsuffix hcount
  refine ⟨_, depth, scopes', slots', by rw [rewind?, ← hlength, hback], ?_⟩
  refine ⟨?_, ?_, hslots, hpending, ?_, htyped, ⟨f, hfunction, by simpa using hstack⟩,
    (size_resize _ _ _).symm, hcount.symm, hopen, rfl, ?_⟩
  · rw [← hlength, ← hcallers]
    simp [State.depth]
  · simp only [State.frames, hcallers]
    exact ⟨above, hframes⟩
  · simpa only [State.frames, hcallers] using hframed
  · intro hdepth hbase
    have hsuffix : ({ s with frame, callers } : State).frames <:+ s.frames :=
      ⟨above, by rw [← hframes, State.frames, hcallers]⟩
    obtain ⟨rfl, -⟩ := List.cons.inj (frames_eq_of_suffix hsuffix hdepth)
    exact agree_resize s.stack (by omega) hbase

theorem Cut.trans {s₁ s₂ : State} {scopes₁ scopes₂ : List Scope}
    {slots₁ slots₂ : List (Option Pending)} {g₁ g₂ : Guard} {outer₁ outer₂ : List Guard}
    {depth₁ depth₂ : Nat}
    (h₁ : Cut loose p maxStack s scopes slots g₁ outer₁ s₁ depth₁ scopes₁ slots₁)
    (h₂ : Cut loose p maxStack s₁ scopes₁ slots₁ g₂ outer₂ s₂ depth₂ scopes₂ slots₂) :
    Cut loose p maxStack s scopes slots g₂ outer₂ s₂ depth₂ scopes₂ slots₂ where
  position := h₂.position
  frames := h₂.frames.trans h₁.frames
  slots := h₂.slots.trans h₁.slots
  waiting := h₂.waiting
  framed := h₂.framed
  typed := h₂.typed
  size := h₂.size
  stackSize := h₂.stackSize
  pendingSize := h₂.pendingSize
  inside := by
    have hinside := h₂.inside
    unfold State.frames at hinside
    refine hinside.trans h₁.frames ?_
    have houter := h₁.inside.suffix (List.suffix_cons _ _)
    rw [← h₁.position] at houter
    simpa [State.depth] using houter
  world := h₂.world.trans h₁.world
  agree hdepth hbase := by
    have hle : s₂.depth ≤ s₁.depth := depth_le_of_suffix h₂.frames
    have hsame := frames_eq_of_suffix h₁.frames (by omega)
    obtain ⟨hframe, -⟩ := List.cons.inj hsame
    obtain ⟨f, -, hsize⟩ := h₁.size
    have hfirst := h₁.agree (by omega) hbase
    have hsecond := h₂.agree (by have := depth_le_of_suffix h₁.frames; omega) (by omega)
    rw [hframe] at hsecond
    exact hfirst.trans hsecond

end

end Machine
end ScriptMachine
