import Mathlib.Logic.ExistsUnique
import ScriptMachine.Proofs.Machine.Activation

namespace ScriptMachine
namespace Machine

def Guard.opened (g : Guard) : Guard := { g with phase := .body }

/-- What the step from `s`, the state after `n` instructions, to `s'` does to the open constructs:
it leaves those in `removed`. -/
structure Leaves (p : Program) (reaches : Nat → State → Prop) (n : Nat) (s s' : State)
    (removed : List Guard) : Prop where
  /-- They are the innermost ones. Of those that stay, one may go over to a handler; a construct is
  entered only when none is left. -/
  innermost : ∃ kept, s.guards = removed ++ kept ∧
    (s'.guards.map Guard.opened = kept.map Guard.opened ∨
      removed = [] ∧ ∃ table, EntersTry p s table ∧ s'.guards = s.entered table .body :: s.guards)
  /-- All but the outermost are without a finally block. -/
  inner : ∀ g ∈ removed.dropLast, g.cleanup? p = none
  /-- The finally block of the outermost is started in the frame that entered the construct. -/
  outermost : ∀ g ∈ removed.getLast?, ∀ address ∈ g.cleanup? p,
    ∃ i t, Origin p reaches n g s'.guards i t ∧ Started t address s s'
  /-- Where none has a finally block, no completion is recorded. -/
  silent : (∀ g ∈ removed, g.cleanup? p = none) → Trimmed s.pending s'.pending

/-- How the executions of a program keep to their finally blocks, where `reaches n s` says that `s`
is the state after `n` instructions. It speaks of steps that have a result. One that takes an operand
from an empty stack has none, so it leaves no construct in any way; a verified program can come to
such a step. -/
structure CleanupDiscipline (p : Program) (limits : Limits) (reaches : Nat → State → Prop) :
    Prop where
  leaves {n : Nat} {s s' : State} : reaches n s → step p limits s = some (.next s') →
    ∃ removed, Leaves p reaches n s s' removed
  /-- No finally block is left to run when an execution ends, unless by a halt. -/
  ends {n : Nat} {s : State} {f : Finished} : reaches n s → s.op? p ≠ some .halt →
    step p limits s = some (.done f) → ∀ g ∈ s.guards, g.cleanup? p = none
  /-- A construct with a finally block that a step has entered is still open, or exactly one step has
  started the block. -/
  once {i n table address : Nat} {t s : State} : reaches i t → EntersTry p t table →
    (t.entered table .body).cleanup? p = some address → i < n → reaches n s →
    (∀ k u, i < k → k ≤ n → reaches k u → Open t table u) ∨
      ∃! j, j < n ∧ StartsAt reaches i t table address j
  /-- By the end of an execution, exactly one step has. -/
  ended {i n table address : Nat} {t s : State} {f : Finished} : reaches i t → EntersTry p t table →
    (t.entered table .body).cleanup? p = some address → reaches n s → s.op? p ≠ some .halt →
    step p limits s = some (.done f) → ∃! j, j < n ∧ StartsAt reaches i t table address j

section cleanups

variable {p : Program} {limits : Limits} {reaches : Nat → State → Prop}

theorem leaves_of_none {n : Nat} {s s' : State} {removed kept : List Guard}
    (hguards : s.guards = removed ++ kept)
    (hkept : s'.guards.map Guard.opened = kept.map Guard.opened ∨
      removed = [] ∧ ∃ table, EntersTry p s table ∧ s'.guards = s.entered table .body :: s.guards)
    (hremoved : ∀ g ∈ removed, g.cleanup? p = none) (hpending : Trimmed s.pending s'.pending) :
    Leaves p reaches n s s' removed where
  innermost := ⟨kept, hguards, hkept⟩
  inner g hg := hremoved g (List.dropLast_subset removed hg)
  outermost := by
    intro g hg address haddress
    have hnone := hremoved g (List.mem_of_getLast? hg)
    cases hnone.symm.trans haddress
  silent _ := hpending

theorem Trajectory.leaves (h : Trajectory p limits reaches) {n : Nat} {s s' : State}
    (hs : reaches n s) (hstep : step p limits s = some (.next s')) :
    ∃ removed, Leaves p reaches n s s' removed := by
  have hchange := change_of_step (h.nested hs) hstep
  cases hchange with
  | @pass removed hguards hremoved hframe hle hpending =>
    exact ⟨removed, leaves_of_none hguards (.inl rfl) hremoved hpending⟩
  | call hguards hpending hframe hdepth hroom =>
    exact ⟨[], leaves_of_none (List.nil_append _).symm (.inl (by rw [hguards])) (by simp)
      (hpending ▸ Trimmed.refl _)⟩
  | @enter table henters hguards hpending hframe hdepth =>
    exact ⟨[], leaves_of_none (List.nil_append _).symm (.inr ⟨rfl, table, henters, hguards⟩)
      (by simp) (hpending ▸ Trimmed.refl _)⟩
  | @caught removed outer g t clause hguards hremoved hphase hguards' htable hclause hip hframe
      hdepth hpending =>
    have hsame : s'.guards.map Guard.opened = (g :: outer).map Guard.opened := by
      rw [hguards', List.map_cons, List.map_cons]
      rfl
    exact ⟨removed, leaves_of_none hguards (.inl hsame) hremoved hpending⟩
  | @started removed g address kept completion hguards hremoved haddress hip hframe hdepth hkept
      hpending =>
    refine ⟨removed ++ [g], ⟨s'.guards, by rw [hguards, List.append_cons], .inl rfl⟩, ?_, ?_, ?_⟩
    · rwa [List.dropLast_concat]
    · intro g' hg' address' haddress'
      rw [List.getLast?_concat] at hg'
      cases hg'
      -- some step has entered the construct, and it has been open since then
      obtain ⟨i, t, horigin⟩ := h.origin hs hguards
      have hopen := horigin.since n s horigin.before (Nat.le_refl n) hs
      have hlength : s'.guards.length ≤ t.guards.length := horigin.guards ▸ Nat.le_refl _
      exact ⟨i, t, horigin, hopen.closed (change_of_step (h.nested hs) hstep) haddress' hlength⟩
    · intro hnone
      have hlast := hnone g (by simp)
      cases hlast.symm.trans haddress

theorem Trajectory.ends (h : Trajectory p limits reaches) {n : Nat} {s : State} {f : Finished}
    (hs : reaches n s) (hhalt : s.op? p ≠ some .halt) (hstep : step p limits s = some (.done f)) :
    ∀ g ∈ s.guards, g.cleanup? p = none := by
  have hproceeds := proceeds_step (h.nested hs) hhalt
  rw [hstep] at hproceeds
  cases hproceeds with
  | done hnone => exact hnone

theorem Trajectory.step_before (h : Trajectory p limits reaches) {n i : Nat} {t : State}
    (ht : reaches i t) (hlt : n < i) :
    ∃ s s', reaches n s ∧ step p limits s = some (.next s') := by
  induction i generalizing t with
  | zero => omega
  | succ i ih =>
    obtain ⟨s, hs, hstep⟩ := h.last ht
    rcases Nat.lt_or_eq_of_le (Nat.le_of_lt_succ hlt) with hlt | rfl
    · exact ih hs hlt
    · exact ⟨s, t, hs, hstep⟩

theorem Trajectory.cleanupDiscipline (h : Trajectory p limits reaches) :
    CleanupDiscipline p limits reaches where
  leaves := h.leaves
  ends := h.ends
  once := by
    intro i n table address t s ht henters hcleanup hi hs
    rcases h.open_or_starts ht henters hcleanup hi hs with hopen | ⟨j, hj, hstarts⟩
    · exact .inl hopen
    · exact .inr ⟨j, ⟨hj, hstarts⟩, fun j' hj' => hj'.2.unique hstarts⟩
  ended := by
    intro i n table address t s f ht henters hcleanup hs hhalt hstep
    have hi : i < n := by
      rcases Nat.lt_trichotomy i n with hlt | rfl | hlt
      · exact hlt
      · cases h.unique ht hs
        rw [step_entersTry henters] at hstep
        cases hstep
      · obtain ⟨u, u', hu, hnext⟩ := h.step_before ht hlt
        cases h.unique hu hs
        cases hnext.symm.trans hstep
    rcases h.open_or_starts ht henters hcleanup hi hs with hopen | ⟨j, hj, hstarts⟩
    · obtain ⟨above, phase, hguards⟩ := (hopen n s hi (Nat.le_refl n) hs).guards
      have hnone := h.ends hs hhalt hstep (t.entered table phase) (by simp [hguards])
      cases hnone.symm.trans hcleanup
    · exact ⟨j, ⟨hj, hstarts⟩, fun j' hj' => hj'.2.unique hstarts⟩

end cleanups

/-- An error that is carried through all these guards only takes frames away. -/
def Rewinds : State → List Guard → Prop
  | _, [] => True
  | s, g :: outer => ∃ s', rewind? s g = some s' ∧ s'.frames <:+ s.frames ∧
      s'.frames.length = g.frame + 1 ∧ Rewinds s' outer

/-- The handler of the construct that was entered from `t` is started by the step from `s`. It runs
in the frame that entered the construct; the frames below are as they were then, and as they are in
`s`. -/
structure Handles (p : Program) (t : State) (table : Nat) (s s' : State) : Prop where
  callers : s'.callers = t.callers
  function : s'.frame.function = t.frame.function
  base : s'.frame.base = t.frame.base
  kept : s'.frames.tail <:+ s.frames.tail
  handler : ∃ tryTable clause, p.tries[table]? = some tryTable ∧ clause ∈ tryTable.clauses ∧
    s'.frame.ip = clause.handler.toInt.toNat

/-- How frames and guards stand in the executions of a program, where `reaches n s` says that `s` is
the state after `n` instructions. -/
structure FrameDiscipline (p : Program) (limits : Limits) (reaches : Nat → State → Prop) :
    Prop where
  frames {n : Nat} {s : State} : reaches n s →
    1 ≤ s.frames.length ∧ s.frames.length ≤ limits.maxFrames
  /-- From the outermost guard on, the positions of their frames do not go down. -/
  sorted {n : Nat} {s : State} : reaches n s →
    s.guards.Pairwise fun inner outer => outer.frame ≤ inner.frame
  inside {n : Nat} {s : State} : reaches n s → ∀ g ∈ s.guards, g.frame < s.frames.length
  /-- In whatever state of the executing frame an error is raised. -/
  rewinds {n : Nat} {s s₁ : State} : reaches n s → s₁.callers = s.callers → Rewinds s₁ s.guards
  /-- An error is caught where a guard goes over to its handlers. -/
  caught {n : Nat} {s s' : State} {removed outer : List Guard} {g : Guard} : reaches n s →
    step p limits s = some (.next s') → s.guards = removed ++ g :: outer → g.phase = .body →
    s'.guards = { g with phase := .handling } :: outer →
    ∃ i t, Origin p reaches n g outer i t ∧ Handles p t g.table s s'

theorem rewinds_of_nested {s : State} {guards : List Guard}
    (hsorted : guards.Pairwise fun inner outer => outer.frame ≤ inner.frame)
    (hle : ∀ g ∈ guards, g.frame ≤ s.depth) : Rewinds s guards := by
  induction guards generalizing s with
  | nil => trivial
  | cons g outer ih =>
    obtain ⟨s', hrewind⟩ := rewind?_of_le (hle g List.mem_cons_self)
    have hback := rewound_of_rewind? hrewind
    have houter := List.pairwise_cons.1 hsorted
    refine ⟨s', hrewind, hback.frames, by rw [length_frames, hback.depth], ih houter.2 ?_⟩
    rw [hback.depth]
    exact houter.1

section frames

variable {p : Program} {limits : Limits} {reaches : Nat → State → Prop}

theorem Change.of_handling {s s' : State} {removed outer : List Guard} {g : Guard}
    (h : Change p limits s s') (hguards : s.guards = removed ++ g :: outer)
    (hphase : g.phase = .body) (hguards' : s'.guards = { g with phase := .handling } :: outer) :
    FrameIn s' s ∧ s'.depth = g.frame ∧ ∃ tryTable clause, p.tries[g.table]? = some tryTable ∧
      clause ∈ tryTable.clauses ∧ s'.frame.ip = clause.handler.toInt.toNat := by
  have hstays {left : List Guard} (hleft : s.guards = left ++ s'.guards) : False := by
    rw [hguards, hguards'] at hleft
    have hsame := (List.append_inj' hleft rfl).2
    have hbody := congrArg Guard.phase (List.cons.inj hsame).1
    rw [hphase] at hbody
    cases hbody
  cases h with
  | pass hleft _ _ _ _ => exact (hstays hleft).elim
  | call hsame _ _ _ _ => exact (hstays (by rw [hsame, List.nil_append])).elim
  | enter _ hentered _ _ _ =>
    have hbody := congrArg Guard.phase (List.cons.inj (hguards'.symm.trans hentered)).1
    cases hbody
  | @caught _ outer' g' tryTable clause hleft _ hphase' hcaught htable hclause hip hframe hdepth
      _ =>
    have hheads := (List.cons.inj (hguards'.symm.trans hcaught))
    have houter : outer = outer' := hheads.2
    rw [hguards, houter] at hleft
    obtain rfl := (List.cons.inj (List.append_inj' hleft rfl).2).1
    exact ⟨hframe, hdepth, tryTable, clause, htable, hclause, hip⟩
  | @started removed' g' _ _ _ hleft _ _ _ _ _ _ _ =>
    have hleft' : s.guards = (removed' ++ [g']) ++ s'.guards := by rw [hleft, List.append_cons]
    exact (hstays hleft').elim

theorem Trajectory.caught (h : Trajectory p limits reaches) {n : Nat} {s s' : State}
    {removed outer : List Guard} {g : Guard} (hs : reaches n s)
    (hstep : step p limits s = some (.next s')) (hguards : s.guards = removed ++ g :: outer)
    (hphase : g.phase = .body) (hguards' : s'.guards = { g with phase := .handling } :: outer) :
    ∃ i t, Origin p reaches n g outer i t ∧ Handles p t g.table s s' := by
  have hchange := change_of_step (h.nested hs) hstep
  obtain ⟨hframe, hdepth, hhandler⟩ := hchange.of_handling hguards hphase hguards'
  obtain ⟨i, t, horigin⟩ := h.origin hs hguards
  have hopen := horigin.since n s horigin.before (Nat.le_refl n) hs
  have hposition : s'.depth = t.depth := by
    rw [hdepth, horigin.guard]
    rfl
  obtain ⟨hcallers, hfunction, hbase⟩ :=
    (hopen.frame.of_le hframe (Nat.le_of_eq hposition.symm)).executing hposition
  exact ⟨i, t, horigin, hcallers, hfunction, hbase, hframe.callers, hhandler⟩

theorem Trajectory.frameDiscipline (h : Trajectory p limits reaches) :
    FrameDiscipline p limits reaches where
  frames := by
    intro n s hs
    have := (h.nested hs).depth_lt
    rw [length_frames]
    omega
  sorted hs := (h.nested hs).sorted
  inside := by
    intro n s hs g hg
    have := (h.nested hs).frame_le g hg
    rw [length_frames]
    omega
  rewinds := by
    intro n s s₁ hs hcallers
    apply rewinds_of_nested (h.nested hs).sorted
    rw [State.depth, hcallers]
    exact (h.nested hs).frame_le
  caught := h.caught

end frames

/-- No finally block is skipped: in every execution of every program, the construct of a finally
block is left only by starting it, once and in the frame that entered the construct. A step without a
result, at which an execution is stuck, is outside of this. -/
theorem invoke_cleanupDiscipline (m : Machine) (index : Nat) (args : List Value) :
    CleanupDiscipline m.program m.limits fun n s => m.invoke n index args = .ok (.unfinished s) :=
  (trajectory_of_invoke m index args).cleanupDiscipline

/-- In every execution of every program, guards stand in frames there are, and an error is handled
in the frame that entered the construct. -/
theorem invoke_frameDiscipline (m : Machine) (index : Nat) (args : List Value) :
    FrameDiscipline m.program m.limits fun n s => m.invoke n index args = .ok (.unfinished s) :=
  (trajectory_of_invoke m index args).frameDiscipline

/-- An error that a function raises is caught by its caller, in a construct with a finally block. -/
def rescuedCall : Program where
  constants := #[.nil]
  functions := #[⟨mainName, 0, 9, 0, 0, [], 1⟩, ⟨"raise", 9, 11, 0, 0, [], 1⟩]
  tries := #[⟨[⟨noIndex, 4⟩], 6⟩]
  code := #[.of .pushTry, .of .call 1, .of .pop, .of .popTry 7, .of .pop, .of .popTry 7,
    .of .endFinally, .of .loadConst, .of .ret, .of .loadConst, .of .throw]

def rescuedCallState? (n : Nat) : Option State :=
  match (create rescuedCall {} [] {}).invoke n 0 [] with
  | .ok (.unfinished s) => some s
  | _ => none

theorem invoke_of_rescuedCallState? {n : Nat} {s : State} (h : rescuedCallState? n = some s) :
    (create rescuedCall {} [] {}).invoke n 0 [] = .ok (.unfinished s) := by
  unfold rescuedCallState? at h
  split at h
  · next hinvoke =>
    cases h
    exact hinvoke
  · cases h

/-- The execution enters its construct with the first step, and ends with the construct's finally
block started once. -/
theorem invoke_cleanupDiscipline_rescuedCall :
    ∃ t s f, (create rescuedCall {} [] {}).invoke 0 0 [] = .ok (.unfinished t) ∧
      EntersTry rescuedCall t 0 ∧ (create rescuedCall {} [] {}).invoke 8 0 [] =
      .ok (.unfinished s) ∧ step rescuedCall {} s = some (.done f) ∧
      ∃! j, j < 8 ∧ StartsAt
        (fun n s => (create rescuedCall {} [] {}).invoke n 0 [] = .ok (.unfinished s))
        0 t 0 6 j := by
  have hfirst : ∃ t ∈ rescuedCallState? 0, t.frame.ip = 0 := by decide +kernel
  have hlast : ∃ s ∈ rescuedCallState? 8, s.op? rescuedCall = some .ret ∧
      step rescuedCall {} s = some (.done ⟨.returned .nil, s.world, s.stats⟩) := by decide +kernel
  obtain ⟨t, ht, hip⟩ := hfirst
  obtain ⟨s, hs, hop, hstep⟩ := hlast
  have henters : EntersTry rescuedCall t 0 := ⟨.of .pushTry, by rw [hip]; rfl, by simp, rfl⟩
  have hcleanup : (t.entered 0 .body).cleanup? rescuedCall = some 6 := rfl
  have ht' := invoke_of_rescuedCallState? ht
  have hs' := invoke_of_rescuedCallState? hs
  have hdiscipline := invoke_cleanupDiscipline (create rescuedCall {} [] {}) 0 []
  exact ⟨t, s, _, ht', henters, hs', hstep,
    hdiscipline.ended ht' henters hcleanup hs' (by simp [create, hop]) hstep⟩

/-- The fourth step throws in the callee, and the error is handled in the frame of the caller. -/
theorem invoke_frameDiscipline_rescuedCall :
    ∃ s s' g, (create rescuedCall {} [] {}).invoke 3 0 [] = .ok (.unfinished s) ∧
      step rescuedCall {} s = some (.next s') ∧ s.guards = [g] ∧ s.depth = 1 ∧
      ∃ i t, Origin rescuedCall
          (fun n s => (create rescuedCall {} [] {}).invoke n 0 [] = .ok (.unfinished s))
          3 g [] i t ∧
        Handles rescuedCall t g.table s s' := by
  have hthrow : ∃ s ∈ rescuedCallState? 3, ∃ s' ∈ rescuedCallState? 4,
      step rescuedCall {} s = some (.next s') ∧ s.depth = 1 ∧ s.guards = [⟨0, 0, 0, 0, .body⟩] ∧
        s'.guards = [⟨0, 0, 0, 0, .handling⟩] := by decide +kernel
  obtain ⟨s, hs, s', hs', hstep, hdepth, hguards, hguards'⟩ := hthrow
  have hreached := invoke_of_rescuedCallState? hs
  have hleft : s.guards = [] ++ ⟨0, 0, 0, 0, .body⟩ :: [] := hguards
  have hdiscipline := invoke_frameDiscipline (create rescuedCall {} [] {}) 0 []
  exact ⟨s, s', _, hreached, hstep, hguards, hdepth,
    hdiscipline.caught hreached hstep hleft rfl hguards'⟩

end Machine
end ScriptMachine
