import ScriptMachine.Proofs.Machine.Callee
import ScriptMachine.Proofs.Meaning.Site

namespace ScriptMachine
namespace Machine

/-- How a run comes back to a number of frames: with a value, or with an error that no guard
stops. -/
def comesBack (p : Program) (limits : Limits) (depth : Nat) :
    Nat → Option Progress → Option (Except ScriptError Value × World)
  | _, none => none
  | _, some (.done ⟨.failed e, w, _⟩) => some (.error e, w)
  | _, some (.done ⟨.returned _, _, _⟩) => none
  | 0, some (.next _) => none
  | fuel + 1, some (.next s) =>
    if s.depth = depth then s.stack.back?.map fun v => (.ok v, s.world)
    else comesBack p limits depth fuel (step p limits s)

/-- What the function at an index gives on the arguments on top of the stack, if it takes fewer
instructions than `fuel`. -/
def callResult (p : Program) (limits : Limits) (fuel : Nat) (s : State) (index argc : Nat) :
    Option (Except ScriptError Value × World) :=
  comesBack p limits s.depth fuel (call p limits { s with guards := [], stats := none } index argc)

/-- The next instruction raises an error above a state: the operands, the completions and the frames
of the state are all there, and no guard on top of its own stops the error. -/
def Raises (p : Program) (limits : Limits) (s : State) (e : ScriptError) (w : World) (t : State) :
    Prop :=
  ∃ u own, step p limits t = raise p u e ∧ Extends { s with world := w, stats := u.stats } u ∧
    u.guards = own ++ s.guards ∧ ∀ g ∈ own, Lets p e g

theorem Raises.of_moved {p : Program} {limits : Limits} {s t : State} {e : ScriptError}
    {w w' : World} {pc : Nat} {stats : Option Stats}
    (h : Raises p limits { s with frame := { s.frame with ip := pc }, world := w', stats } e w t) :
    Raises p limits s e w t := by
  obtain ⟨u, own, hraise, hextends, hguards, hlets⟩ := h
  exact ⟨u, own, hraise, ⟨hextends.world, rfl, hextends.stack, hextends.pending, hextends.frames⟩,
    hguards, hlets⟩

/-- What comes of a function on a floor. -/
def Floor.Gives (F : Floor) (p : Program) (limits : Limits) (G : List Guard) (t : State) :
    Except ScriptError Value → World → Prop
  | .ok v, w => w.globals.size = p.globals.size ∧
    Leads p limits t fun t' => ∃ stats, t' = F.returned G stats v w
  | .error e, w => Leads p limits t fun t' => ∃ s stats,
    step p limits t' = raise p (F.lift G stats s) e ∧ s.world = w ∧ ∀ g ∈ s.guards, Lets p e g

theorem Floor.Gives.step {F : Floor} {p : Program} {limits : Limits} {G : List Guard} {t t' : State}
    {r : Except ScriptError Value} {w : World} (hstep : step p limits t = some (.next t'))
    (h : F.Gives p limits G t' r w) : F.Gives p limits G t r w := by
  cases r with
  | ok v => exact ⟨h.1, Leads.step hstep h.2⟩
  | error e => exact Leads.step hstep h

/-- The run lemma: a function gives the same inside of all guards of its callers. -/
theorem Standing.gives {p : Program} {limits : Limits} {F : Floor} {fuel : Nat} {s : State}
    {f : Function} {state : Verify.FlowState} {slots : List (Option Pending)}
    {r : Except ScriptError Value} {w : World} {stats : Option Stats} (hp : Verify.Verified p)
    (hreturn : ReturnsDischarge False p) (h : Standing False p limits.maxStack s f state slots)
    (hresult : comesBack p limits F.callers.size fuel (some (.next (F.lift [] stats s))) =
      some (r, w))
    {G : List Guard} (hG : F.Outer G) (stats' : Option Stats) :
    F.Gives p limits G (F.lift G stats' s) r w := by
  induction fuel generalizing s f state slots stats stats' with
  | zero => cases hresult
  | succ fuel ih =>
    have hnone : F.Outer [] := by simp [Floor.Outer]
    have habove : ¬(F.lift [] stats s).depth = F.callers.size := by
      rw [F.depth_lift, Floor.depth]
      omega
    rw [comesBack, if_neg habove] at hresult
    cases h.onward F hp hreturn with
    | next s₁ hstanding hnext =>
      -- with the guards of the callers and without them, the step is the same
      obtain ⟨stats₁, hstats₁⟩ := hnext [] stats hnone
      obtain ⟨stats₂, hstats₂⟩ := hnext G stats' hG
      rw [hstats₁] at hresult
      exact (ih hstanding hresult stats₂).step hstats₂
    | result v w' hglobals hreturns =>
      obtain ⟨stats₁, hstats₁⟩ := hreturns [] stats hnone
      obtain ⟨stats₂, hstats₂⟩ := hreturns G stats' hG
      rw [hstats₁] at hresult
      cases fuel with
      | zero => cases hresult
      | succ fuel =>
        have hback : (F.returned [] stats₁ v w').depth = F.callers.size := rfl
        rw [comesBack, if_pos hback] at hresult
        simp only [Floor.returned, Array.back?_push, Option.map_some, Option.some.injEq,
          Prod.mk.injEq] at hresult
        obtain ⟨rfl, rfl⟩ := hresult
        exact ⟨hglobals, Leads.step hstats₂ (Leads.here ⟨stats₂, rfl⟩)⟩
    | error s₁ e hlets hraise hdone =>
      obtain ⟨stats₁, hstats₁⟩ := hraise [] stats hnone
      obtain ⟨stats₂, hstats₂⟩ := hraise G stats' hG
      -- without the guards of the callers the error is not caught; with them it goes on to those
      rw [hstats₁, hdone, comesBack] at hresult
      cases hresult
      exact Leads.here ⟨s₁, stats₂, hstats₂, rfl, hlets⟩
    | halt w' hhalt =>
      obtain ⟨stats₁, hstats₁⟩ := hhalt [] stats hnone
      rw [hstats₁, comesBack] at hresult
      cases hresult

/-- Guards and completions are those of frames at hand. -/
structure State.Live (s : State) : Prop where
  guards : ∀ g ∈ s.guards, g.frame ≤ s.depth
  pending : ∀ q ∈ s.pending, q.frame ≤ s.depth

section

variable {p : Program} {limits : Limits} {t : State} {f : Function} {index argc : Nat}

def State.below (t : State) (argc : Nat) : State :=
  { t with stack := t.stack.shrink (t.stack.size - argc) }

/-- The floor that a state makes for a function that it calls. -/
def State.floor (t : State) (argc : Nat) (hlive : t.Live) : Floor where
  stack := (t.below argc).stack
  caller := t.frame
  callers := t.callers
  pending := t.pending
  pending_lt q hq := Nat.lt_succ_of_le (hlive.pending q hq)

theorem call_cases (limits : Limits) (hp : Verify.Verified p) (hf : p.functions[index]? = some f)
    (hlive : t.Live) (hargc : argc ≤ t.stack.size)
    (hglobals : t.world.globals.size = p.globals.size) :
    (∃ e, ∀ G stats, call p limits { t with guards := G, stats } index argc =
        raise p { t with guards := G, stats } e) ∨
      ∃ s state slots, Standing False p limits.maxStack s f state slots ∧ ∀ G stats, ∃ stats',
        call p limits { t with guards := G, stats } index argc =
          some (.next ((t.floor argc hlive).lift G stats' s)) := by
  let args := t.stack.toList.drop (t.stack.size - argc)
  have hlength : args.length = argc := by
    simp only [args, List.length_drop, Array.length_toList]
    omega
  have hsplit : t.stack = (t.below argc).stack ++ args.toArray := by
    apply Array.ext'
    simp [State.below, args]
  have hbase : t.stack.size - argc = (t.below argc).stack.size + 0 := by
    simp only [State.below, Array.size_shrink]
    omega
  cases hrefusal : refusal? limits f (t.depth + 1) (t.stack.size - argc) argc with
  | some e =>
    refine .inl ⟨e, fun G stats => ?_⟩
    have hdepth : ({ t with guards := G, stats } : State).depth = t.depth := rfl
    simp only [call, hf, Option.bind_eq_bind, Option.bind_some, hdepth, hrefusal]
  | none =>
    right
    have hrefusal' : refusal? limits f 0 0 args.length = none := by
      rw [hlength]
      exact refusal?_mono (Nat.zero_le _) (Nat.zero_le _) hrefusal
    rcases standing_of_start limits args hp hf hglobals with
      ⟨_, hdone⟩ | ⟨s, hstart, -, -, hstanding⟩
    · simp only [start, hrefusal'] at hdone
      split at hdone <;> cases hdone
    · refine ⟨s, _, _, hstanding, fun G stats => ⟨stats.map (·.countCall (t.depth + 2)), ?_⟩⟩
      simp only [start, hrefusal'] at hstart
      cases hlocals : frameStack? p f 0 args.length args.toArray with
      | none => simp [hlocals] at hstart
      | some locals =>
        simp only [hlocals, Option.some.injEq, Progress.next.injEq] at hstart
        subst hstart
        have hstack : frameStack? p f (t.stack.size - argc) argc t.stack =
            some ((t.below argc).stack ++ locals) := by
          have happend := frameStack?_append p f 0 argc (t.below argc).stack args.toArray
          rw [hlength] at hlocals
          rwa [hlocals, Option.map_some, ← hsplit, ← hbase] at happend
        have hdepth : ({ t with guards := G, stats } : State).depth = t.depth := rfl
        simp only [call, hf, Option.bind_eq_bind, Option.bind_some, hdepth, hrefusal, hstack]
        simp [Floor.lift, Floor.frame, State.floor, hbase]

theorem State.outer_floor (hlive : t.Live) : (t.floor argc hlive).Outer t.guards :=
  fun g hg => Nat.lt_succ_of_le (hlive.guards g hg)

theorem State.extends_floor (hlive : t.Live) (G : List Guard) (stats : Option Stats) (s : State) :
    Extends { t.below argc with world := s.world, stats }
    ((t.floor argc hlive).lift G stats s) where
  world := rfl
  stats := rfl
  stack := ⟨s.stack.toList, by simp [Floor.lift, State.floor, State.below]⟩
  pending := ⟨(s.pending.map (t.floor argc hlive).completion).toList, by
    simp [Floor.lift, State.floor, State.below]⟩
  frames := by
    refine ⟨t.frame.ip, (t.floor argc hlive).frame s.frame ::
      (s.callers.map (t.floor argc hlive).frame).toList.reverse, ?_⟩
    simp [State.frames, Floor.lift, State.floor, State.below]

theorem leads_of_callResult {s : State} {fuel : Nat} {r : Except ScriptError Value} {w : World}
    (hp : Verify.Verified p) (hreturn : ReturnsDischarge False p)
    (hf : p.functions[index]? = some f) (hlive : t.Live) (hargc : argc ≤ t.stack.size)
    (hglobals : t.world.globals.size = p.globals.size)
    (hstep : step p limits s = call p limits t index argc)
    (hresult : callResult p limits fuel t index argc = some (r, w)) :
    (∀ v, r = .ok v → w.globals.size = p.globals.size ∧ Leads p limits s fun t' =>
      ∃ stats, t' = { (t.below argc).push v with world := w, stats }) ∧
    ∀ e, r = .error e → Leads p limits s (Raises p limits (t.below argc) e w) := by
  unfold callResult at hresult
  rcases call_cases limits hp hf hlive hargc hglobals with
    ⟨e, hraise⟩ | ⟨u, state, slots, hstanding, hcall⟩
  · have hdone : raise p { t with guards := [], stats := none } e =
        some (.done ⟨.failed (traced p t e), t.world, none⟩) := rfl
    have hraise' : step p limits s = raise p t (traced p t e) := by
      rw [hstep, hraise t.guards t.stats, raise, raise, traced_traced]
    rw [hraise, hdone, comesBack] at hresult
    cases hresult
    constructor
    · rintro v ⟨⟩
    · rintro _ ⟨⟩
      refine Leads.here ⟨t, [], hraise', ⟨rfl, rfl, ?_, List.prefix_refl _, t.frame.ip, [], rfl⟩,
        rfl, by simp⟩
      simp only [State.below, Array.toList_shrink]
      exact List.take_prefix _ _
  · obtain ⟨stats₁, hcall₁⟩ := hcall [] none
    obtain ⟨stats₂, hcall₂⟩ := hcall t.guards t.stats
    rw [hcall₁] at hresult
    have hgives := hstanding.gives (F := t.floor argc hlive) hp hreturn hresult
      (State.outer_floor hlive) stats₂
    have hnext := hstep.trans hcall₂
    constructor
    · rintro v rfl
      refine ⟨hgives.1, Leads.step hnext (hgives.2.trans ?_)⟩
      rintro t' ⟨stats, rfl⟩
      exact Leads.here ⟨stats, rfl⟩
    · rintro e rfl
      refine Leads.step hnext (hgives.trans ?_)
      rintro t' ⟨u', stats, hraise, rfl, hlets⟩
      refine Leads.here ⟨_, u'.guards.map (t.floor argc hlive).guard, hraise,
        State.extends_floor hlive t.guards stats u', rfl, ?_⟩
      intro g hg
      obtain ⟨g', hg', rfl⟩ := List.mem_map.1 hg
      exact lets_guard.2 (hlets g' hg')

end

end Machine
end ScriptMachine
