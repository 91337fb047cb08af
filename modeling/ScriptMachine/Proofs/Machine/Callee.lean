import ScriptMachine.Proofs.Machine.Floor

namespace ScriptMachine
namespace Machine
open Verify

theorem resize_append (xs ys : Array α) (n : Nat) (fill : α) :
    resize (xs ++ ys) (xs.size + n) fill = xs ++ resize ys n fill := by
  unfold resize
  by_cases h : n ≤ ys.size
  · rw [if_pos (by simp [h]), if_pos h, shrink_append]
  · rw [if_neg (by simpa using h), if_neg h, Array.size_append, Nat.add_sub_add_left,
      Array.append_assoc]

theorem map_resize_of_le (f : α → β) {xs : Array α} {n : Nat} (fill : α) (fill' : β)
    (h : n ≤ xs.size) : (resize xs n fill).map f = resize (xs.map f) n fill' := by
  unfold resize
  rw [if_pos h, if_pos (by simpa using h)]
  apply Array.ext'
  simp

/-- An error goes past a guard: its construct has no finally block, and no clause that is open takes
the error. -/
def Lets (p : Program) (e : ScriptError) (g : Guard) : Prop :=
  ∃ t, p.tries[g.table]? = some t ∧ t.cleanup? = none ∧
    (g.phase = .body → selectClause? p e t.clauses = none)

namespace Floor

theorem lift_enter (F : Floor) (G guards : List Guard) (stats : Option Stats) (s : State)
    (q : Pending) :
    F.lift G stats { s with guards, pending := s.pending.push q } =
      { F.lift G stats s with
        guards := guards.map F.guard ++ G
        pending := (F.lift G stats s).pending.push (F.completion q) } := by
  simp [lift]

theorem lift_pop (F : Floor) (G : List Guard) (stats : Option Stats) {s : State} {q : Pending}
    (h : s.pending.back? = some q) :
    F.lift G stats { s with pending := s.pending.pop } =
      { F.lift G stats s with pending := (F.lift G stats s).pending.pop } := by
  have hne : s.pending ≠ #[] := by
    intro hnil
    simp [hnil] at h
  simp [lift, hne]

theorem backTo?_lift (F : Floor) (G : List Guard) (stats : Option Stats) {s s' : State}
    {position : Nat} (h : s.backTo? position = some s') :
    (F.lift G stats s).backTo? (F.depth + position) = some (F.lift G stats s') := by
  have hsize : (F.lift G stats s).callers.size = F.depth + s.callers.size := F.depth_lift G stats s
  unfold State.backTo? at h ⊢
  by_cases hposition : position = s.callers.size
  · rw [if_pos hposition] at h
    cases h
    rw [if_pos (by omega)]
  · rw [if_neg hposition] at h
    rw [if_neg (by omega)]
    cases hframe : s.callers[position]? with
    | none => simp [hframe] at h
    | some frame =>
      simp only [hframe, Option.some.injEq] at h
      subst h
      have hbelow : (F.callers.push F.caller).size = F.depth := by simp [depth]
      have hget : (F.lift G stats s).callers[F.depth + position]? = some (F.frame frame) := by
        simp only [lift]
        rw [Array.getElem?_append_right (by omega), hbelow, Nat.add_sub_cancel_left,
          Array.getElem?_map, hframe, Option.map_some]
      have hshrink : (F.lift G stats s).callers.shrink (F.depth + position) =
          F.callers.push F.caller ++ (s.callers.shrink position).map F.frame := by
        simp only [lift]
        rw [← hbelow, shrink_append]
        congr 1
        apply Array.ext'
        simp
      simp only [hget, hshrink]
      rfl

theorem rewind?_lift (F : Floor) (G : List Guard) (stats : Option Stats) {s s' : State} {g : Guard}
    (h : rewind? s g = some s') (hpending : g.pendingSize ≤ s.pending.size) :
    rewind? (F.lift G stats s) (F.guard g) = some (F.lift G stats s') := by
  unfold rewind? at h
  cases hback : s.backTo? g.frame with
  | none => simp [hback] at h
  | some s₁ =>
    simp only [hback, Option.some.injEq] at h
    subst h
    have hsame : s₁.pending = s.pending := by
      unfold State.backTo? at hback
      split at hback
      · cases hback
        rfl
      · split at hback
        · cases hback
          rfl
        · cases hback
    have hlift : (F.lift G stats s).backTo? (F.guard g).frame = some (F.lift G stats s₁) :=
      F.backTo?_lift G stats hback
    have hwaits : (resize s₁.pending g.pendingSize ⟨0, .jump 0⟩).map F.completion =
        resize (s₁.pending.map F.completion) g.pendingSize ⟨0, .jump 0⟩ :=
      map_resize_of_le F.completion ⟨0, .jump 0⟩ ⟨0, .jump 0⟩ (by rw [hsame]; exact hpending)
    simp only [rewind?, hlift]
    simp only [lift, guard, resize_append, hwaits]

end Floor

theorem lets_guard {p : Program} {e : ScriptError} {F : Floor} {g : Guard} :
    Lets p e (F.guard g) ↔ Lets p e g := Iff.rfl

/-- An error that is raised on a floor comes to the same handler or finally block of the function,
or it goes past all guards of the function. -/
theorem unwind_lift {p : Program} {maxStack : Nat} (e : ScriptError) (F : Floor) {s : State}
    {scopes : List Scope} {slots : List (Option Pending)} {guards : List Guard}
    (h : Framed False p maxStack s.frames scopes guards slots) (hwaiting : s.waiting = live slots) :
    (∃ s', unwind p e s guards = some (.next s') ∧ ∀ G stats,
        unwind p e (F.lift G stats s) (guards.map F.guard ++ G) =
          some (.next (F.lift G stats s'))) ∨
      (∀ g ∈ guards, Lets p e g) ∧ ∀ stats,
        unwind p e (F.lift [] stats s) (guards.map F.guard) =
          some (.done ⟨.failed e, s.world, stats⟩) := by
  induction guards generalizing s scopes slots with
  | nil => exact .inr ⟨by simp, fun stats => rfl⟩
  | cons g outer ih =>
    -- the guard goes back to a state above the floor, so the floor does not change
    obtain ⟨s', depth, scopes', slots', hrewind, hcut⟩ := cut_of_framed h hwaiting
    obtain ⟨t, ht, -⟩ := hcut.typed.1
    have hpending : g.pendingSize ≤ s.pending.size := by
      have hle := (live_suffix hcut.slots).length_le
      rw [← hwaiting, ← hcut.pendingSize] at hle
      simpa [State.waiting] using hle
    have hlift := fun G stats => F.rewind?_lift G stats hrewind hpending
    have htable : p.tries[(F.guard g).table]? = some t := ht
    simp only [List.map_cons, List.cons_append, unwind, ht, htable, hrewind, hlift,
      Option.bind_eq_bind, Option.bind_some]
    have hphase : (F.guard g).phase = g.phase := rfl
    rw [hphase]
    cases hclause : (if g.phase = .body then selectClause? p e t.clauses else none) with
    | some clause =>
      left
      refine ⟨_, rfl, fun G stats => ?_⟩
      rw [← F.jump_lift, ← F.pushNew_lift]
      rfl
    | none =>
      cases hcleanup : t.cleanup? with
      | some address =>
        left
        refine ⟨_, rfl, fun G stats => ?_⟩
        rw [← F.jump_lift, F.lift_enter]
        rfl
      | none =>
        have hlets : Lets p e g := ⟨t, ht, hcleanup, fun hbody => by rwa [if_pos hbody] at hclause⟩
        rcases ih hcut.framed hcut.waiting with hcaught | ⟨hall, hdone⟩
        · exact .inl hcaught
        · refine .inr ⟨List.forall_mem_cons.2 ⟨hlets, hall⟩, fun stats => ?_⟩
          rw [← hcut.world]
          exact hdone stats

namespace Floor

/-- Guards that the callers have set up. -/
def Outer (F : Floor) (G : List Guard) : Prop := ∀ g ∈ G, g.frame < F.depth

theorem leaveFrame_lift (F : Floor) (G : List Guard) (stats : Option Stats) {s : State}
    {frame : Frame} (v : Value) (h : s.callers.back? = some frame) :
    leaveFrame (F.lift G stats s) v = .next (F.lift G stats { s with
      stack := (resize s.stack s.frame.base .nil).push v, frame, callers := s.callers.pop }) := by
  have hne : s.callers ≠ #[] := by
    intro hnil
    simp [hnil] at h
  have hback : (F.lift G stats s).callers.back? = some (F.frame frame) := by simp [lift, h]
  simp only [leaveFrame, hback]
  simp [lift, Floor.frame, resize_append, hne]

theorem leaveFrame_returned (F : Floor) (G : List Guard) (stats : Option Stats) {s : State}
    (v : Value) (hcallers : s.callers = #[]) (hguards : s.guards = []) (hbase : s.frame.base = 0)
    (hpending : s.pending = #[]) :
    leaveFrame (F.lift G stats s) v = .next (F.returned G stats v s.world) := by
  have hback : (F.lift G stats s).callers.back? = some F.caller := by simp [lift, hcallers]
  have hresize : resize (F.stack ++ s.stack) F.stack.size .nil = F.stack := by
    rw [show F.stack.size = F.stack.size + 0 from rfl, resize_append]
    simp [resize]
  simp only [leaveFrame, hback]
  simp [lift, returned, Floor.frame, hcallers, hguards, hbase, hpending, hresize]

end Floor

theorem returnThrough_of_ne {p : Program} {v : Value} {s : State} {guards : List Guard}
    (h : ∀ g ∈ guards, g.frame ≠ s.depth) :
    returnThrough p v s guards = some (leaveFrame { s with guards } v) := by
  cases guards with
  | nil => rfl
  | cons g outer => rw [returnThrough, if_pos (h g List.mem_cons_self)]

section

variable {p : Program} {v : Value} {s : State} {g : Guard} {outer : List Guard} {t : TryTable}

theorem returnThrough_skip (hframe : g.frame = s.depth) (ht : p.tries[g.table]? = some t)
    (hcleanup : t.cleanup? = none) :
    returnThrough p v s (g :: outer) = returnThrough p v s outer := by
  simp [returnThrough, hframe, ht, hcleanup]

theorem returnThrough_enter {address : Int32} (hframe : g.frame = s.depth)
    (ht : p.tries[g.table]? = some t) (hcleanup : t.cleanup? = some address) :
    returnThrough p v s (g :: outer) = some (.next (State.jump { s with
      guards := outer
      stack := resize s.stack g.stackSize .nil
      pending := s.pending.push ⟨s.depth, .result v⟩ } address.toInt.toNat)) := by
  simp [returnThrough, hframe, ht, hcleanup]

end

/-- A return on a floor comes to the same finally block of the function or to the same frame, or it
gives the result to the floor. -/
theorem returnThrough_lift {p : Program} (F : Floor) (v : Value) {s : State} {guards : List Guard}
    (htables : ∀ g ∈ guards, ∃ t, p.tries[g.table]? = some t)
    (hframes : ∀ g ∈ guards, g.frame ≤ s.depth)
    (hentry : s.callers = #[] → s.frame.base = 0 ∧ s.pending = #[]) :
    (∃ s', returnThrough p v s guards = some (.next s') ∧ ∀ G stats, F.Outer G →
        returnThrough p v (F.lift G stats s) (guards.map F.guard ++ G) =
          some (.next (F.lift G stats s'))) ∨
      ∀ G stats, F.Outer G → returnThrough p v (F.lift G stats s) (guards.map F.guard ++ G) =
        some (.next (F.returned G stats v s.world)) := by
  induction guards with
  | nil =>
    -- the guards of the callers are of other frames, and do not hold up the return
    have hleave : ∀ G stats, F.Outer G → returnThrough p v (F.lift G stats s) G =
        some (leaveFrame (F.lift G stats { s with guards := [] }) v) := by
      intro G stats hG
      refine returnThrough_of_ne fun g hg => ?_
      have := hG g hg
      rw [F.depth_lift]
      omega
    cases hback : s.callers.back? with
    | some frame =>
      refine .inl ⟨_, by simp only [returnThrough, leaveFrame, hback]; rfl, fun G stats hG => ?_⟩
      exact (hleave G stats hG).trans
        (congrArg some (F.leaveFrame_lift G stats v (s := { s with guards := [] }) hback))
    | none =>
      have hnone : s.callers = #[] := by simpa using hback
      obtain ⟨hbase, hpending⟩ := hentry hnone
      exact .inr fun G stats hG => (hleave G stats hG).trans
        (congrArg some (F.leaveFrame_returned G stats v (s := { s with guards := [] }) hnone rfl
          hbase hpending))
  | cons g outer ih =>
    obtain ⟨t, ht⟩ := htables g List.mem_cons_self
    have hle := hframes g List.mem_cons_self
    by_cases hframe : g.frame = s.depth
    · have hframe' : ∀ G stats, (F.guard g).frame = (F.lift G stats s).depth := by
        intro G stats
        rw [F.depth_lift, Floor.guard, hframe]
      cases hcleanup : t.cleanup? with
      | none =>
        simp only [List.map_cons, List.cons_append, returnThrough_skip hframe ht hcleanup,
          returnThrough_skip (hframe' _ _) ht hcleanup]
        exact ih (fun g' hg' => htables g' (List.mem_cons_of_mem g hg'))
          (fun g' hg' => hframes g' (List.mem_cons_of_mem g hg'))
      | some address =>
        refine .inl ⟨_, returnThrough_enter hframe ht hcleanup, fun G stats _ => ?_⟩
        rw [List.map_cons, List.cons_append, returnThrough_enter (hframe' G stats) ht hcleanup,
          ← F.jump_lift]
        simp [Floor.lift, Floor.guard, Floor.completion, resize_append, ← F.depth_lift G stats s]
    · obtain ⟨frame, hback⟩ : ∃ frame, s.callers.back? = some frame := by
        cases hback : s.callers.back? with
        | some frame => exact ⟨frame, rfl⟩
        | none =>
          have hnone : s.callers = #[] := by simpa using hback
          rw [State.depth, hnone] at hle hframe
          exact absurd (Nat.le_zero.1 hle) hframe
      refine .inl ⟨_, by simp only [returnThrough, leaveFrame, hback, if_pos hframe]; rfl, ?_⟩
      intro G stats hG
      have hne : (F.guard g).frame ≠ (F.lift G stats s).depth := by
        rw [F.depth_lift, Floor.guard]
        simpa using hframe
      rw [List.map_cons, List.cons_append, returnThrough, if_pos hne]
      exact congrArg some (F.leaveFrame_lift G stats v (s := { s with guards := g :: outer }) hback)

theorem trace_ne_nil (p : Program) (s : State) : trace p s ≠ [] := by
  simp [trace, State.frames]

theorem traced_traced (p : Program) (s : State) (e : ScriptError) :
    traced p s (traced p s e) = traced p s e := by
  unfold traced
  by_cases h : e.trace.isEmpty
  · have hne : ¬(trace p s).isEmpty := by simpa using trace_ne_nil p s
    rw [if_pos h, if_neg hne]
  · rw [if_neg h, if_neg h]

/-- What a step makes of a function on a floor: a state of the function again, its result, an error
that it lets out, or the end of the program. It is the same inside of all guards of the callers. -/
inductive Onward (p : Program) (maxStack : Nat) (F : Floor) (s : State)
    (act : State → Option Progress) : Prop
  | next {f : Function} {state : FlowState} {slots : List (Option Pending)} (s' : State) :
      Standing False p maxStack s' f state slots →
      (∀ G stats, F.Outer G → ∃ stats',
        act (F.lift G stats s) = some (.next (F.lift G stats' s'))) → Onward p maxStack F s act
  | result (v : Value) (w : World) : w.globals.size = p.globals.size →
      (∀ G stats, F.Outer G → ∃ stats',
        act (F.lift G stats s) = some (.next (F.returned G stats' v w))) → Onward p maxStack F s act
  | error (s' : State) (e : ScriptError) : (∀ g ∈ s'.guards, Lets p e g) →
      (∀ G stats, F.Outer G → ∃ stats', act (F.lift G stats s) = raise p (F.lift G stats' s') e) →
      (∀ stats, raise p (F.lift [] stats s') e = some (.done ⟨.failed e, s'.world, stats⟩)) →
      Onward p maxStack F s act
  | halt (w : World) :
      (∀ G stats, F.Outer G → ∃ stats',
        act (F.lift G stats s) = some (.done ⟨.returned .nil, w, stats'⟩)) →
        Onward p maxStack F s act

theorem Lands.standing {loose : Prop} {p : Program} {maxStack : Nat} {s s' : State}
    {scopes : List Scope} {slots : List (Option Pending)}
    (h : Lands loose p maxStack s scopes slots (some (.next s'))) :
    ∃ f state slots', Standing loose p maxStack s' f state slots' := by
  cases h with
  | next slots' hstanding => exact ⟨_, _, slots', hstanding⟩

section

variable {p : Program} {maxStack : Nat} {F : Floor} {s : State} {act : State → Option Progress}
  {scopes : List Scope} {slots : List (Option Pending)}

theorem onward_raise (s' : State) (e : ScriptError)
    (hact : ∀ G stats, F.Outer G → ∃ stats',
      act (F.lift G stats s) = raise p (F.lift G stats' s') e)
    (hframed : Framed False p maxStack s'.frames scopes s'.guards slots)
    (hwaiting : s'.waiting = live slots) (hglobals : s'.world.globals.size = p.globals.size)
    (hbase : s'.frame.base ≤ s'.stack.size) : Onward p maxStack F s act := by
  -- the error is traced on the floor, through all frames
  have htraced : ∀ G stats, traced p (F.lift G stats s') e = traced p (F.lift [] none s') e :=
    fun G stats => rfl
  have hraise : ∀ G stats, raise p (F.lift G stats s') e =
      raise p (F.lift G stats s') (traced p (F.lift [] none s') e) := by
    intro G stats
    simp only [raise, ← htraced G stats, traced_traced]
  rcases unwind_lift (traced p (F.lift [] none s') e) F hframed hwaiting with
    ⟨s₁, hunwind, hlift⟩ | ⟨hlets, hdone⟩
  · have hlands := lands_unwind (traced p (F.lift [] none s') e) hframed hwaiting hglobals hbase
    rw [hunwind] at hlands
    obtain ⟨f, state, slots', hstanding⟩ := hlands.standing
    refine .next s₁ hstanding fun G stats hG => ?_
    obtain ⟨stats', hstats⟩ := hact G stats hG
    exact ⟨stats', hstats.trans (hlift G stats')⟩
  · refine .error s' (traced p (F.lift [] none s') e) hlets (fun G stats hG => ?_) fun stats => ?_
    · obtain ⟨stats', hstats⟩ := hact G stats hG
      exact ⟨stats', hstats.trans (hraise G stats')⟩
    · rw [← hraise, raise, htraced, F.guards_lift, List.append_nil]
      exact hdone stats

theorem popWhile_lift (F : Floor) (G : List Guard) (stats : Option Stats) (s : State) :
    (F.lift G stats s).pending.popWhile (fun q => q.frame == (F.lift G stats s).depth) =
      F.pending ++ (s.pending.popWhile fun q => q.frame == s.depth).map F.completion := by
  have hkeep : F.pending.popWhile (fun q => q.frame == (F.lift G stats s).depth) = F.pending := by
    have hother : ∀ q ∈ F.pending.toList.reverse, q.frame < (F.lift G stats s).depth := by
      intro q hq
      have hlt := F.pending_lt q (by simpa using hq)
      rw [F.depth_lift, Floor.depth]
      omega
    have hpop := waiting_popWhile (List.nil_append F.pending.toList.reverse).symm (by simp) hother
    exact Array.ext' (List.reverse_inj.1 hpop)
  have hsame : (fun q : Pending => q.frame == (F.lift G stats s).depth) ∘ F.completion =
      fun q => q.frame == s.depth := by
    funext q
    rw [Bool.eq_iff_iff]
    simp [Floor.completion]
  simp only [F.pending_lift, Array.popWhile_append, Array.popWhile_map, hsame, hkeep]
  split
  · next hempty =>
    rw [Array.isEmpty_iff.1 hempty, Array.append_empty]
  · rfl

theorem entry_of_framed (hframed : Framed False p maxStack s.frames scopes s.guards slots)
    (hwaiting : s.waiting = live slots) (hnone : s.callers = #[]) :
    s.frame.base = 0 ∧ (s.pending.popWhile fun q => q.frame == s.depth) = #[] := by
  obtain ⟨f, own, guards, mine, slots', -, rfl, hfocus⟩ := Framed.focus hframed
  rcases hfocus.callers with ⟨hrest, hzero, -, rfl⟩ | ⟨caller, rest, -, hrest, -⟩
  · have hmine := hfocus.holds.tracks.frame_eq.2
    have hdepth : s.callers.toList.reverse.length = s.depth := length_callers s
    have hall : s.pending.toList.reverse = live mine ++ [] := by
      simpa [State.waiting] using hwaiting
    refine ⟨hzero, ?_⟩
    simpa using waiting_popWhile hall (hdepth ▸ hmine) (by simp)
  · simp [hnone] at hrest

theorem onward_return (s' : State) (v : Value)
    (hact : ∀ G stats, F.Outer G → ∃ stats',
      act (F.lift G stats s) = completeReturn p (F.lift G stats' s') v)
    (hframed : Framed False p maxStack s'.frames scopes s'.guards slots)
    (hwaiting : s'.waiting = live slots) (hglobals : s'.world.globals.size = p.globals.size)
    (hbase : s'.frame.base ≤ s'.stack.size) (hreturn : Discharges False p scopes) :
    Onward p maxStack F s act := by
  have hlands := lands_completeReturn v hframed hwaiting hglobals hbase hreturn
  -- what waits in the frame is given up in the same way above the floor
  have hcomplete : ∀ G stats, completeReturn p (F.lift G stats s') v = returnThrough p v
      (F.lift G stats { s' with pending := s'.pending.popWhile fun q => q.frame == s'.depth })
      (s'.guards.map F.guard ++ G) := by
    intro G stats
    simp only [completeReturn, popWhile_lift]
    rfl
  have htables : ∀ g ∈ s'.guards, ∃ t, p.tries[g.table]? = some t := by
    intro g hg
    obtain ⟨t, ht, -⟩ := hframed.tables g hg
    exact ⟨t, ht⟩
  have hframes : ∀ g ∈ s'.guards, g.frame ≤ s'.depth := by
    intro g hg
    have := hframed.frame_lt.1 g hg
    rw [length_frames] at this
    omega
  rcases returnThrough_lift F v
    (s := { s' with pending := s'.pending.popWhile fun q => q.frame == s'.depth }) htables hframes
    (entry_of_framed hframed hwaiting) with ⟨s₁, hnext, hlift⟩ | hlift
  · have hisolated : completeReturn p s' v = some (.next s₁) := hnext
    rw [hisolated] at hlands
    obtain ⟨f, state, slots', hstanding⟩ := hlands.standing
    refine .next s₁ hstanding fun G stats hG => ?_
    obtain ⟨stats', hstats⟩ := hact G stats hG
    exact ⟨stats', by rw [hstats, hcomplete, hlift G stats' hG]⟩
  · refine .result v s'.world hglobals fun G stats hG => ?_
    obtain ⟨stats', hstats⟩ := hact G stats hG
    exact ⟨stats', by rw [hstats, hcomplete, hlift G stats' hG]⟩

end

theorem refusal?_mono {limits : Limits} {f : Function} {frames frames' base base' argc : Nat}
    (hframes : frames ≤ frames') (hbase : base ≤ base')
    (h : refusal? limits f frames' base' argc = none) :
    refusal? limits f frames base argc = none := by
  unfold refusal? at h ⊢
  split at h
  · cases h
  · split at h
    · cases h
    · split at h
      · cases h
      · next hdepth harity hroom => rw [if_neg (by omega), if_neg harity, if_neg (by omega)]

theorem frameStack?_append (p : Program) (f : Function) (base argc : Nat) (xs ys : Array Value) :
    frameStack? p f (xs.size + base) argc (xs ++ ys) =
      (frameStack? p f base argc ys).map (xs ++ ·) := by
  simp only [frameStack?]
  cases ((f.defaults.take f.arity).drop argc).mapM p.constant? with
  | none => rfl
  | some missing =>
    have happend : xs ++ ys ++ missing.map Constant.toValue =
        xs ++ (ys ++ missing.map Constant.toValue) := by
      apply Array.ext'
      simp
    simp only [Option.bind_eq_bind, Option.bind_some, happend, Nat.add_assoc, resize_append]
    rfl

section

variable {p : Program} {limits : Limits} {s s' : State} {f : Function} {state : FlowState}
  {slots : List (Option Pending)} {op : Opcode} {ins : Instruction}

theorem step_lift (limits : Limits) (F : Floor) (G : List Guard) (stats : Option Stats)
    (hcode : p.code[s.frame.ip]? = some ins) (hop : ins.op? = some op) :
    ∃ stats', step p limits (F.lift G stats s) =
      execute p limits (F.lift G stats' (s.fetched op)) op ins := by
  obtain ⟨stats', hfetched⟩ := F.fetched_lift G stats s op
  have hcode' : p.code[(F.lift G stats s).frame.ip]? = some ins := hcode
  exact ⟨stats', by rw [step_of_code hcode' hop, hfetched]⟩

theorem Standing.onward_next (F : Floor) (hp : Verified p) (hreturn : ReturnsDischarge False p)
    (h : Standing False p limits.maxStack s f state slots)
    (hcode : p.code[s.frame.ip]? = some ins) (hop : ins.op? = some op)
    (hnext : execute p limits (s.fetched op) op ins = some (.next s'))
    (hlift : ∀ G stats, F.Outer G → ∃ stats', execute p limits (F.lift G stats (s.fetched op)) op ins =
      some (.next (F.lift G stats' s'))) :
    Onward p limits.maxStack F s (step p limits) := by
  have hlands := h.lands_step hp hreturn
  have hstep : step p limits s = some (.next s') := (step_of_code hcode hop).trans hnext
  rw [hstep] at hlands
  obtain ⟨f', state', slots', hstanding⟩ := hlands.standing
  refine .next s' hstanding fun G stats hG => ?_
  obtain ⟨stats₁, hstats₁⟩ := step_lift limits F G stats hcode hop
  obtain ⟨stats₂, hstats₂⟩ := hlift G stats₁ hG
  exact ⟨stats₂, hstats₁.trans hstats₂⟩

theorem Standing.onward_raise (F : Floor) (h : Standing False p limits.maxStack s f state slots)
    (hcode : p.code[s.frame.ip]? = some ins) (hop : ins.op? = some op) (e : ScriptError)
    (hcontrol : SameControl (s.fetched op) s') (hbase : s.frame.base ≤ s'.stack.size)
    (hraise : ∀ G stats, execute p limits (F.lift G stats (s.fetched op)) op ins =
      raise p (F.lift G stats s') e) :
    Onward p limits.maxStack F s (step p limits) := by
  obtain ⟨hframed, hwaiting, hglobals⟩ := h.control hcontrol
  refine Machine.onward_raise s' e (fun G stats _ => ?_) hframed hwaiting hglobals ?_
  · obtain ⟨stats', hstats⟩ := step_lift limits F G stats hcode hop
    exact ⟨stats', hstats.trans (hraise G stats')⟩
  · rw [hcontrol.frame]
    exact hbase

theorem Standing.onward_plain (F : Floor) (hp : Verified p) (hreturn : ReturnsDischarge False p)
    (h : Standing False p limits.maxStack s f state slots)
    (hins : Poised p f (p.flowState? s.frame.function) s.frame.ip state op ins)
    (htransfers : op.transfers = false) : Onward p limits.maxStack F s (step p limits) := by
  have hacts : Acts p (s.fetched op) fun s => execute p limits s op ins :=
    acts_execute hins.decoded htransfers hins.sound h.size h.globals
  cases hacts with
  | next s' hnext hlift =>
    exact h.onward_next F hp hreturn hins.code hins.decoded hnext fun G stats _ =>
      ⟨stats, hlift F G stats⟩
  | raise s' e hcontrol hbase hraise =>
    exact h.onward_raise F hins.code hins.decoded e hcontrol hbase fun G stats => hraise F G stats

/-- A call may be refused on the floor where it would not be refused without. -/
theorem Standing.onward_call (F : Floor) (hp : Verified p) (hreturn : ReturnsDischarge False p)
    (h : Standing False p limits.maxStack s f state slots)
    (hins : Poised p f (p.flowState? s.frame.function) s.frame.ip state .call ins) :
    Onward p limits.maxStack F s (step p limits) := by
  obtain ⟨callee, hcallee, hargs, -⟩ := hins.call
  have hsize := h.size
  have hbase : ∀ G stats, (F.lift G stats (s.fetched .call)).stack.size - ins.b.toNat =
      F.stack.size + (s.stack.size - ins.b.toNat) := by
    intro G stats
    simp only [F.stack_lift, Array.size_append, State.fetched]
    omega
  have hdepth : ∀ G stats, (F.lift G stats (s.fetched .call)).depth = F.depth + s.depth :=
    fun G stats => F.depth_lift G stats (s.fetched .call)
  cases hrefusal : refusal? limits callee (F.depth + s.depth + 1)
      (F.stack.size + (s.stack.size - ins.b.toNat)) ins.b.toNat with
  | some e =>
    refine h.onward_raise F hins.code hins.decoded e (SameControl.refl _)
      (by simp [State.fetched]; omega) fun G stats => ?_
    simp only [execute, call, hcallee, Option.bind_eq_bind, Option.bind_some, hbase, hdepth,
      hrefusal]
  | none =>
    -- with less below it, the call is not refused either
    have hrefusal' : refusal? limits callee (s.depth + 1) (s.stack.size - ins.b.toNat) ins.b.toNat =
        none := refusal?_mono (by omega) (by omega) hrefusal
    obtain ⟨-, hargc⟩ := room_of_refusal? hrefusal'
    obtain ⟨stack, hstack, -⟩ := frameStack?_of_laid (hp.laid hcallee) hargc
      (Nat.sub_le s.stack.size ins.b.toNat)
    have hnext : execute p limits (s.fetched .call) .call ins = some (.next { s.fetched .call with
        stack
        frame := ⟨ins.a.toNat, callee.entry, s.stack.size - ins.b.toNat⟩
        callers := s.callers.push (s.fetched .call).frame
        stats := (s.fetched .call).stats.map (·.countCall (s.depth + 2)) }) := by
      have hdepth' : (s.fetched .call).depth = s.depth := rfl
      have hstack' : (s.fetched .call).stack = s.stack := rfl
      simp only [execute, call, hcallee, Option.bind_eq_bind, Option.bind_some, hdepth', hstack',
        hrefusal', hstack]
      rfl
    refine h.onward_next F hp hreturn hins.code hins.decoded hnext fun G stats _ => ?_
    refine ⟨stats.map (·.countCall (F.depth + s.depth + 2)), ?_⟩
    have hstack' : frameStack? p callee (F.stack.size + (s.stack.size - ins.b.toNat)) ins.b.toNat
        (F.lift G stats (s.fetched .call)).stack = some (F.stack ++ stack) := by
      rw [F.stack_lift, frameStack?_append]
      exact congrArg (Option.map (F.stack ++ ·)) hstack
    simp only [execute, call, hcallee, Option.bind_eq_bind, Option.bind_some, hbase, hdepth,
      hrefusal, hstack']
    simp [Floor.lift, Floor.frame, State.fetched]

theorem Standing.onward_popTry (F : Floor) (hp : Verified p) (hreturn : ReturnsDischarge False p)
    (h : Standing False p limits.maxStack s f state slots)
    (hins : Poised p f (p.flowState? s.frame.function) s.frame.ip state .popTry ins) :
    Onward p limits.maxStack F s (step p limits) := by
  obtain ⟨op', ins', hsafe⟩ := h.safe hp hreturn
  cases hins.code.symm.trans hsafe.code
  cases hins.decoded.symm.trans hsafe.decoded
  obtain ⟨g, guards, hguards, hg⟩ := hsafe.leaves rfl
  obtain ⟨t, ht, -⟩ := hsafe.tables g (by simp [hguards])
  have hguards' : (s.fetched .popTry).guards = g :: guards := hguards
  have hg' : g.frame = (s.fetched .popTry).depth := hg
  have hlift : ∀ G stats, (F.lift G stats (s.fetched .popTry)).guards =
      F.guard g :: (guards.map F.guard ++ G) := by
    intro G stats
    rw [F.guards_lift, hguards', List.map_cons, List.cons_append]
  have hframe : ∀ G stats, (F.guard g).frame = (F.lift G stats (s.fetched .popTry)).depth := by
    intro G stats
    rw [F.depth_lift, Floor.guard, hg']
  have ht' : p.tries[(F.guard g).table]? = some t := ht
  cases hcleanup : t.cleanup? with
  | none =>
    refine h.onward_next F hp hreturn hins.code hins.decoded
      (by simp only [execute, popTry, hguards', ht, hcleanup]; exact if_neg (fun hne => hne hg'))
      fun G stats _ => ⟨stats, ?_⟩
    simp only [execute, popTry, hlift, ht', hcleanup]
    exact if_neg fun hne => hne (hframe G stats)
  | some address =>
    refine h.onward_next F hp hreturn hins.code hins.decoded
      (by simp only [execute, popTry, hguards', ht, hcleanup]; exact if_neg (fun hne => hne hg'))
      fun G stats _ => ⟨stats, ?_⟩
    simp only [execute, popTry, hlift, ht', hcleanup, ← F.jump_lift, F.lift_enter]
    exact if_neg fun hne => hne (hframe G stats)

theorem Standing.onward_endFinally (F : Floor) (hp : Verified p)
    (hreturn : ReturnsDischarge False p) (h : Standing False p limits.maxStack s f state slots)
    (hins : Poised p f (p.flowState? s.frame.function) s.frame.ip state .endFinally ins) :
    Onward p limits.maxStack F s (step p limits) := by
  obtain ⟨table, outer, hscopes⟩ := hins.endFinally
  obtain ⟨q, slots', outer', -, -, -, hback, hframe, hwaiting, hframed, -, hresume⟩ :=
    h.innermost_slot hscopes
  have hback' : (s.fetched .endFinally).pending.back? = some q := hback
  have hframe' : q.frame = (s.fetched .endFinally).depth := hframe
  have hlift : ∀ G stats, (F.lift G stats (s.fetched .endFinally)).pending.back? =
      some (F.completion q) := by
    intro G stats
    rw [F.pending_lift, Array.back?_append, Array.back?_map, hback', Option.map_some,
      Option.some_or]
  have hframeLift : ∀ G stats,
      (F.completion q).frame = (F.lift G stats (s.fetched .endFinally)).depth := by
    intro G stats
    rw [F.depth_lift, Floor.completion, hframe']
  have hpop := fun G stats => F.lift_pop G stats hback'
  have hbase : s.frame.base ≤ s.stack.size := by
    have := h.size
    omega
  have hstep := fun G stats => step_lift limits F G stats hins.code hins.decoded
  cases hcompletion : q.completion with
  | jump target =>
    have hcompletion' : (F.completion q).completion = .jump target := hcompletion
    refine h.onward_next F hp hreturn hins.code hins.decoded
      (by
        simp only [execute, endFinally, hback', hcompletion]
        exact if_neg (fun hne => hne hframe'))
      fun G stats _ => ⟨stats, ?_⟩
    simp only [execute, endFinally, hlift, hcompletion', ← F.jump_lift, hpop]
    exact if_neg fun hne => hne (hframeLift G stats)
  | rethrow e =>
    have hcompletion' : (F.completion q).completion = .rethrow e := hcompletion
    refine Machine.onward_raise { s.fetched .endFinally with pending := s.pending.pop } e
      (fun G stats _ => ?_) (hframed.move rfl rfl) hwaiting h.globals hbase
    obtain ⟨stats', hstats⟩ := hstep G stats
    refine ⟨stats', hstats.trans ?_⟩
    simp only [execute, endFinally, hlift, hcompletion']
    rw [if_neg fun hne => hne (hframeLift G stats'), ← hpop]
    rfl
  | result v =>
    have hcompletion' : (F.completion q).completion = .result v := hcompletion
    refine onward_return { s.fetched .endFinally with pending := s.pending.pop } v
      (fun G stats _ => ?_) (hframed.move rfl rfl) hwaiting h.globals hbase
      (hresume v hcompletion)
    obtain ⟨stats', hstats⟩ := hstep G stats
    refine ⟨stats', hstats.trans ?_⟩
    simp only [execute, endFinally, hlift, hcompletion']
    rw [if_neg fun hne => hne (hframeLift G stats'), ← hpop]
    rfl

theorem Standing.onward_jumpIfFalse (F : Floor) (hp : Verified p)
    (hreturn : ReturnsDischarge False p) (h : Standing False p limits.maxStack s f state slots)
    (hins : Poised p f (p.flowState? s.frame.function) s.frame.ip state .jumpIfFalse ins) :
    Onward p limits.maxStack F s (step p limits) := by
  have hsize := h.size
  have hpops := hins.sound.pops
  simp only [Instruction.pops, hins.decoded, Instruction.popsOf] at hpops
  obtain ⟨v, s₁, hpop, -⟩ := taken_pop (s := s.fetched .jumpIfFalse)
    (by simp [State.fetched]; omega)
  refine h.onward_next F hp hreturn hins.code hins.decoded (by simp only [execute, hpop]; rfl)
    fun G stats _ => ⟨stats, ?_⟩
  simp only [execute, F.pop?_lift G stats hpop, Option.map_some, F.world_lift, F.jump_lift]
  rw [apply_ite (F.lift G stats)]
  rfl

theorem Standing.onward_ret (F : Floor) (hreturn : ReturnsDischarge False p)
    (h : Standing False p limits.maxStack s f state slots)
    (hins : Poised p f (p.flowState? s.frame.function) s.frame.ip state .ret ins) :
    Onward p limits.maxStack F s (step p limits) := by
  have hsize := h.size
  have hpops := hins.sound.pops
  simp only [Instruction.pops, hins.decoded, Instruction.popsOf] at hpops
  obtain ⟨v, s₁, hpop, htaken⟩ := taken_pop (s := s.fetched .ret) (by simp [State.fetched]; omega)
  obtain ⟨hframed, hwaiting, hglobals⟩ := h.control htaken.control
  have hbase : s₁.frame.base ≤ s₁.stack.size := by
    have hsize₁ := htaken.size
    simp only [State.fetched] at hsize₁
    rw [htaken.control.frame]
    simp only [State.fetched]
    omega
  refine onward_return _ v (fun G stats _ => ?_) hframed hwaiting hglobals hbase
    (hreturn _ _ _ _ hins.code hins.decoded h.flow)
  obtain ⟨stats', hstats⟩ := step_lift limits F G stats hins.code hins.decoded
  refine ⟨stats', hstats.trans ?_⟩
  simp only [execute, F.pop?_lift G stats' hpop, Option.bind_some]

/-- The step lemma: a function on a floor goes on as a state of its own, gives its result to the
floor or lets an error out. -/
theorem Standing.onward (F : Floor) (hp : Verified p) (hreturn : ReturnsDischarge False p)
    (h : Standing False p limits.maxStack s f state slots) :
    Onward p limits.maxStack F s (step p limits) := by
  obtain ⟨op, ins, hins⟩ := poised_of_flow hp h.function h.flow
  cases op with
  | call => exact h.onward_call F hp hreturn hins
  | popTry => exact h.onward_popTry F hp hreturn hins
  | endFinally => exact h.onward_endFinally F hp hreturn hins
  | jumpIfFalse => exact h.onward_jumpIfFalse F hp hreturn hins
  | ret => exact h.onward_ret F hreturn hins
  | jump =>
    exact h.onward_next F hp hreturn hins.code hins.decoded rfl fun G stats _ => ⟨stats, rfl⟩
  | pushTry =>
    refine h.onward_next F hp hreturn hins.code hins.decoded rfl fun G stats _ => ⟨stats, ?_⟩
    simp only [execute, pushTry, F.depth_lift]
    simp [Floor.lift, Floor.guard]
  | halt =>
    refine .halt s.world fun G stats _ => ?_
    obtain ⟨stats', hstats⟩ := step_lift limits F G stats hins.code hins.decoded
    exact ⟨stats', hstats⟩
  | _ => exact h.onward_plain F hp hreturn hins rfl

end

end Machine
end ScriptMachine
