import ScriptMachine.Proofs.Machine.Change

namespace ScriptMachine
namespace Machine

section lists

variable {removed kept above rest : List Guard} {g : Guard}

theorem kept_or_removed (h : above ++ g :: rest = removed ++ kept) :
    (∃ above', kept = above' ++ g :: rest) ∨
      ∃ more, removed = above ++ g :: more ∧ rest = more ++ kept := by
  rcases List.append_eq_append_iff.1 h with ⟨more, hremoved, hrest⟩ | ⟨above', -, hkept⟩
  · cases more with
    | nil => exact .inl ⟨[], hrest.symm⟩
    | cons g' more =>
      obtain ⟨rfl, htail⟩ := List.cons.inj hrest
      exact .inr ⟨more, hremoved, htail⟩
  · exact .inl ⟨above', hkept⟩

theorem kept_of_length_lt (h : above ++ g :: rest = removed ++ kept)
    (hlt : rest.length < kept.length) : ∃ above', kept = above' ++ g :: rest := by
  rcases kept_or_removed h with hkept | ⟨more, -, hrest⟩
  · exact hkept
  · rw [hrest, List.length_append] at hlt
    omega

end lists

section nested

variable {p : Program} {limits : Limits} {s s' : State}

/-- The step lemma of the nesting of frames and guards. -/
theorem Nested.next (hn : Nested limits s) (h : Change p limits s s') : Nested limits s' := by
  have hdepth := hn.depth_lt
  have hsorted := hn.sorted
  cases h with
  | pass hguards _ hframe hle _ =>
    rw [hguards, List.pairwise_append] at hsorted
    have := hframe.depth_le
    exact ⟨by omega, hsorted.2.1, hle⟩
  | call hguards _ _ hcallee hroom =>
    refine ⟨hroom, hguards ▸ hsorted, ?_⟩
    rw [hguards]
    intro g hg
    have := hn.frame_le g hg
    omega
  | enter _ hguards _ _ hsame =>
    refine ⟨by omega, ?_, ?_⟩
    · rw [hguards]
      exact List.pairwise_cons.2 ⟨hn.frame_le, hsorted⟩
    · rw [hguards, hsame]
      exact List.forall_mem_cons.2 ⟨Nat.le_refl _, hn.frame_le⟩
  | @caught _ outer g _ _ hguards _ _ hguards' _ _ _ hframe hposition _ =>
    rw [hguards, List.pairwise_append] at hsorted
    have houter := List.pairwise_cons.1 hsorted.2.1
    have := hframe.depth_le
    refine ⟨by omega, ?_, ?_⟩
    · rw [hguards']
      exact List.pairwise_cons.2 houter
    · rw [hguards', hposition]
      exact List.forall_mem_cons.2 ⟨Nat.le_refl _, houter.1⟩
  | started hguards _ _ _ hframe hposition _ _ =>
    rw [hguards, List.pairwise_append] at hsorted
    have houter := List.pairwise_cons.1 hsorted.2.1
    have := hframe.depth_le
    exact ⟨by omega, houter.2, by rw [hposition]; exact houter.1⟩

theorem change_of_step (hn : Nested limits s) (h : step p limits s = some (.next s')) :
    Change p limits s s' := by
  have hhalt : s.op? p ≠ some .halt := by
    intro hop
    obtain ⟨ins, hcode, hop⟩ := Option.bind_eq_some_iff.1 hop
    rw [step_of_code hcode hop] at h
    cases h
  have hproceeds := proceeds_step hn hhalt
  rw [h] at hproceeds
  cases hproceeds with
  | next hchange => exact hchange

theorem step_entersTry {table : Nat} (h : EntersTry p s table) :
    step p limits s =
      some (.next { s.fetched .pushTry with guards := s.entered table .body :: s.guards }) := by
  obtain ⟨ins, hcode, hop, rfl⟩ := h
  exact step_of_code hcode hop

end nested

/-- The construct that the step from `s` enters is open in `t`: its guard stands on those of `s`,
and the frame that entered it on its callers. -/
structure Open (s : State) (table : Nat) (t : State) : Prop where
  guards : ∃ above phase, t.guards = above ++ s.entered table phase :: s.guards
  frame : FrameIn s t

theorem Open.length_lt {s t : State} {table : Nat} (h : Open s table t) :
    s.guards.length < t.guards.length := by
  obtain ⟨above, phase, hguards⟩ := h.guards
  simp only [hguards, List.length_append, List.length_cons]
  omega

/-- The finally block of the construct that was entered from `s` is started by the step from `t`. It
runs in the frame that entered the construct, with the guards there were, and one completion is
recorded for its end. -/
structure Started (s : State) (address : Nat) (t t' : State) : Prop where
  guards : t'.guards = s.guards
  callers : t'.callers = s.callers
  function : t'.frame.function = s.frame.function
  base : t'.frame.base = s.frame.base
  ip : t'.frame.ip = address
  pending : ∃ kept completion, Trimmed t.pending kept ∧ t'.pending = kept.push ⟨s.depth, completion⟩

theorem FrameIn.executing {s t : State} (h : FrameIn s t) (hdepth : t.depth = s.depth) :
    t.callers = s.callers ∧ t.frame.function = s.frame.function ∧ t.frame.base = s.frame.base := by
  obtain ⟨frame, hframes, hfunction, hbase⟩ := h
  have hlength : (frame :: s.frames.tail).length = t.frames.length := by
    rw [length_frames, List.length_cons, length_callers, hdepth]
  obtain ⟨rfl, htail⟩ := List.cons.inj (hframes.eq_of_length hlength)
  refine ⟨?_, hfunction, hbase⟩
  have hlists : s.callers.toList = t.callers.toList := List.reverse_inj.1 htail
  exact (Array.toList_inj.1 hlists).symm

section life

variable {p : Program} {limits : Limits} {s t t' : State} {table address : Nat}

theorem open_of_entersTry (h : EntersTry p s table) (hstep : step p limits s = some (.next t)) :
    Open s table t := by
  rw [step_entersTry h] at hstep
  cases hstep
  exact ⟨⟨[], .body, rfl⟩, ⟨_, List.suffix_refl _, rfl, rfl⟩⟩

theorem Change.frame (h : Change p limits t t') : FrameIn t' t ∨ FrameIn t t' := by
  cases h with
  | pass _ _ hframe _ _ => exact .inl hframe
  | call _ _ hframe _ _ => exact .inr hframe
  | enter _ _ _ hframe _ => exact .inl hframe
  | caught _ _ _ _ _ _ _ hframe _ _ => exact .inl hframe
  | started _ _ _ _ hframe _ _ _ => exact .inl hframe

theorem Open.next (ho : Open s table t) (h : Change p limits t t') (hn : Nested limits t')
    (hlt : s.guards.length < t'.guards.length) : Open s table t' := by
  obtain ⟨above, phase, hopen⟩ := ho.guards
  have hguards : ∃ above phase, t'.guards = above ++ s.entered table phase :: s.guards := by
    cases h with
    | pass hguards _ _ _ _ =>
      obtain ⟨above', hkept⟩ := kept_of_length_lt (hopen.symm.trans hguards) hlt
      exact ⟨above', phase, hkept⟩
    | call hguards _ _ _ _ => exact ⟨above, phase, hguards.trans hopen⟩
    | @enter inner _ hguards _ _ _ =>
      refine ⟨t.entered inner .body :: above, phase, ?_⟩
      rw [hguards, hopen, List.cons_append]
    | @caught _ outer g _ _ hguards _ _ hguards' _ _ _ _ _ _ =>
      have hlength : s.guards.length < (g :: outer).length := by
        rw [hguards'] at hlt
        exact hlt
      obtain ⟨above', hkept⟩ := kept_of_length_lt (hopen.symm.trans hguards) hlength
      cases above' with
      | nil =>
        obtain ⟨rfl, rfl⟩ := List.cons.inj hkept
        exact ⟨[], .handling, hguards'⟩
      | cons _ above' =>
        obtain ⟨rfl, rfl⟩ := List.cons.inj hkept
        exact ⟨{ g with phase := .handling } :: above', phase, hguards'⟩
    | @started removed g _ _ _ hguards _ _ _ _ _ _ _ =>
      have hguards' : t.guards = (removed ++ [g]) ++ t'.guards := by
        rw [hguards, List.append_assoc, List.singleton_append]
      obtain ⟨above', hkept⟩ := kept_of_length_lt (hopen.symm.trans hguards') hlt
      exact ⟨above', phase, hkept⟩
  refine ⟨hguards, ?_⟩
  rcases h.frame with hframe | hframe
  · -- the guard is still there, so the frame is not below the one that entered the construct
    obtain ⟨above', phase', hguards⟩ := hguards
    have hdepth : s.depth ≤ t'.depth := hn.frame_le (s.entered table phase') (by simp [hguards])
    exact ho.frame.of_le hframe hdepth
  · exact ho.frame.trans hframe

theorem Open.closed (ho : Open s table t) (h : Change p limits t t')
    (hcleanup : (s.entered table .body).cleanup? p = some address)
    (hle : t'.guards.length ≤ s.guards.length) : Started s address t t' := by
  obtain ⟨above, phase, hopen⟩ := ho.guards
  have hstays {removed kept : List Guard} (hguards : t.guards = removed ++ kept)
      (hremoved : ∀ g ∈ removed, g.cleanup? p = none) :
      ∃ above', kept = above' ++ s.entered table phase :: s.guards := by
    rcases kept_or_removed (hopen.symm.trans hguards) with hkept | ⟨more, hmore, -⟩
    · exact hkept
    · have hnone := hremoved (s.entered table phase) (by simp [hmore])
      cases hcleanup.symm.trans hnone
  cases h with
  | pass hguards hremoved _ _ _ =>
    obtain ⟨above', hkept⟩ := hstays hguards hremoved
    simp only [hkept, List.length_append, List.length_cons] at hle
    omega
  | call hguards _ _ _ _ =>
    simp only [hguards, hopen, List.length_append, List.length_cons] at hle
    omega
  | enter _ hguards _ _ _ =>
    simp only [hguards, hopen, List.length_append, List.length_cons] at hle
    omega
  | caught hguards hremoved _ hguards' _ _ _ _ _ _ =>
    obtain ⟨above', hkept⟩ := hstays hguards hremoved
    have hlength := congrArg List.length hkept
    simp only [hguards', List.length_append, List.length_cons] at hle hlength
    omega
  | @started _ g _ kept completion hguards hremoved haddress hip hframe hposition hkept hpending =>
    obtain ⟨above', houter⟩ := hstays hguards hremoved
    cases above' with
    | cons _ above' =>
      have hlength := congrArg List.length houter
      simp only [List.length_append, List.length_cons] at hlength
      omega
    | nil =>
      obtain ⟨rfl, hrest⟩ := List.cons.inj houter
      cases hcleanup.symm.trans haddress
      have hdepth : t'.depth = s.depth := hposition
      obtain ⟨hcallers, hfunction, hbase⟩ :=
        (ho.frame.of_le hframe (by omega)).executing hdepth
      exact ⟨hrest, hcallers, hfunction, hbase, hip, kept, completion, hkept, hpending⟩

theorem Change.origin {above outer : List Guard} {g : Guard} (h : Change p limits t t')
    (hguards : t'.guards = above ++ g :: outer) :
    (∃ above' phase, t.guards = above' ++ { g with phase } :: outer) ∨
      EntersTry p t g.table ∧ t.guards = outer ∧ g = t.entered g.table g.phase := by
  cases h with
  | @pass removed hleft _ _ _ _ =>
    left
    exact ⟨removed ++ above, g.phase, by rw [hleft, hguards, List.append_assoc]⟩
  | call hleft _ _ _ _ =>
    left
    exact ⟨above, g.phase, hleft.symm.trans hguards⟩
  | enter henters hentered _ _ _ =>
    rw [hentered] at hguards
    cases above with
    | nil =>
      obtain ⟨rfl, rfl⟩ := List.cons.inj hguards
      exact .inr ⟨henters, rfl, rfl⟩
    | cons _ above =>
      left
      exact ⟨above, g.phase, (List.cons.inj hguards).2⟩
  | @caught removed _ g' _ _ hleft _ hphase hcaught _ _ _ _ _ _ =>
    left
    rw [hcaught] at hguards
    cases above with
    | nil =>
      obtain ⟨rfl, rfl⟩ := List.cons.inj hguards
      exact ⟨removed, g'.phase, hleft⟩
    | cons _ above =>
      have houter := (List.cons.inj hguards).2
      exact ⟨removed ++ g' :: above, g.phase, by simp [hleft, houter]⟩
  | @started removed g' _ _ _ hleft _ _ _ _ _ _ _ =>
    left
    refine ⟨removed ++ g' :: above, g.phase, ?_⟩
    rw [hleft, hguards, List.append_assoc, List.cons_append]

end life

/-- The states of an execution in turn, where `reaches n s` says that `s` is the state after `n`
instructions. -/
structure Trajectory (p : Program) (limits : Limits) (reaches : Nat → State → Prop) : Prop where
  start {s : State} : reaches 0 s → s.guards = [] ∧ s.depth < limits.maxFrames
  last {n : Nat} {s' : State} : reaches (n + 1) s' →
    ∃ s, reaches n s ∧ step p limits s = some (.next s')
  unique {n : Nat} {s t : State} : reaches n s → reaches n t → s = t

theorem start_next {p : Program} {limits : Limits} {w : World} {f : Function} {index : Nat}
    {args : List Value} {s : State} (h : Machine.start p limits w f index args = some (.next s)) :
    s.guards = [] ∧ s.depth < limits.maxFrames := by
  unfold Machine.start at h
  cases hrefusal : refusal? limits f 0 0 args.length with
  | some e => simp [hrefusal] at h
  | none =>
    have hroom : ¬limits.maxFrames ≤ 0 := by
      intro hfull
      simp [refusal?, hfull] at hrefusal
    simp only [hrefusal] at h
    split at h
    · cases h
    · cases h
      exact ⟨rfl, Nat.not_le.1 hroom⟩

theorem trajectory_of_invoke (m : Machine) (index : Nat) (args : List Value) :
    Trajectory m.program m.limits fun n s => m.invoke n index args = .ok (.unfinished s) := by
  unfold invoke
  split
  · exact ⟨nofun, nofun, nofun⟩
  · next f _ =>
    split
    · exact ⟨nofun, nofun, nofun⟩
    · exact ⟨nofun, nofun, nofun⟩
    · next s₀ hstart =>
      simp only [Except.ok.injEq]
      refine ⟨?_, run_succ, ?_⟩
      · intro s hs
        cases hs
        exact start_next hstart
      · intro n s t hs ht
        cases hs.symm.trans ht
        rfl

section trajectory

variable {p : Program} {limits : Limits} {reaches : Nat → State → Prop}

theorem Trajectory.nested (h : Trajectory p limits reaches) {n : Nat} {s : State}
    (hs : reaches n s) : Nested limits s := by
  induction n generalizing s with
  | zero =>
    obtain ⟨hguards, hdepth⟩ := h.start hs
    exact ⟨hdepth, by simp [hguards], by simp [hguards]⟩
  | succ n ih =>
    obtain ⟨t, ht, hstep⟩ := h.last hs
    exact (ih ht).next (change_of_step (ih ht) hstep)

/-- The construct of a guard with the constructs `outer` around it was entered by the step from `t`,
the state after `i` instructions, and has been open since then, up to the state after `n`. -/
structure Origin (p : Program) (reaches : Nat → State → Prop) (n : Nat) (g : Guard)
    (outer : List Guard) (i : Nat) (t : State) : Prop where
  before : i < n
  reached : reaches i t
  enters : EntersTry p t g.table
  guards : t.guards = outer
  guard : g = t.entered g.table g.phase
  since : ∀ j u, i < j → j ≤ n → reaches j u → Open t g.table u

/-- The run lemma of guards: each has been set up by a step of the execution. -/
theorem Trajectory.origin (h : Trajectory p limits reaches) {n : Nat} {s : State}
    {above outer : List Guard} {g : Guard} (hs : reaches n s)
    (hguards : s.guards = above ++ g :: outer) : ∃ i t, Origin p reaches n g outer i t := by
  induction n generalizing s above g with
  | zero => simp [(h.start hs).1] at hguards
  | succ n ih =>
    obtain ⟨t, ht, hstep⟩ := h.last hs
    have hchange := change_of_step (h.nested ht) hstep
    rcases hchange.origin hguards with ⟨above', phase, hguards'⟩ | ⟨henters, houter, hguard⟩
    · obtain ⟨i, u, horigin⟩ := ih ht hguards'
      refine ⟨i, u, by have := horigin.before; omega, horigin.reached, horigin.enters,
        horigin.guards, ?_, ?_⟩
      · have hguard := horigin.guard
        simp only [State.entered, Guard.mk.injEq] at hguard
        obtain ⟨table, frame, stackSize, pendingSize, phase'⟩ := g
        simp only [State.entered, Guard.mk.injEq]
        exact ⟨trivial, hguard.2.1, hguard.2.2.1, hguard.2.2.2.1, trivial⟩
      · intro j v hij hj hv
        rcases Nat.lt_or_eq_of_le hj with hlt | rfl
        · exact horigin.since j v hij (by omega) hv
        · cases h.unique hv hs
          apply (horigin.since n t horigin.before (Nat.le_refl n) ht).next hchange (h.nested hs)
          simp only [hguards, horigin.guards, List.length_append, List.length_cons]
          omega
    · refine ⟨n, t, by omega, ht, henters, houter, hguard, ?_⟩
      intro j v hij hj hv
      obtain rfl : j = n + 1 := by omega
      cases h.unique hv hs
      exact open_of_entersTry henters hstep

/-- The finally block of the construct that step `i` enters from `t` is started by step `j`, up to
which the construct has been open. -/
structure StartsAt (reaches : Nat → State → Prop) (i : Nat) (t : State) (table address j : Nat) :
    Prop where
  after : i < j
  since : ∀ k u, i < k → k ≤ j → reaches k u → Open t table u
  started : ∃ s s', reaches j s ∧ reaches (j + 1) s' ∧ Started t address s s'

theorem StartsAt.not_lt {i table address j j' : Nat} {t : State}
    (hj : StartsAt reaches i t table address j) (hj' : StartsAt reaches i t table address j') :
    ¬j < j' := by
  intro hlt
  obtain ⟨s, s', -, hs', hstarted⟩ := hj.started
  have hopen := hj'.since (j + 1) s' (by have := hj.after; omega) (by omega) hs'
  have hlength := hopen.length_lt
  rw [hstarted.guards] at hlength
  omega

theorem StartsAt.unique {i table address j j' : Nat} {t : State}
    (hj : StartsAt reaches i t table address j) (hj' : StartsAt reaches i t table address j') :
    j = j' := by
  have hlt := hj.not_lt hj'
  have hgt := hj'.not_lt hj
  omega

/-- The run lemma of a construct with a finally block: it is open until a step starts the block. -/
theorem Trajectory.open_or_starts (h : Trajectory p limits reaches) {i n table address : Nat}
    {t s : State} (ht : reaches i t) (henters : EntersTry p t table)
    (hcleanup : (t.entered table .body).cleanup? p = some address) (hi : i < n) (hs : reaches n s) :
    (∀ k u, i < k → k ≤ n → reaches k u → Open t table u) ∨
      ∃ j, j < n ∧ StartsAt reaches i t table address j := by
  induction n generalizing s with
  | zero => omega
  | succ n ih =>
    obtain ⟨r, hr, hstep⟩ := h.last hs
    rcases Nat.lt_or_eq_of_le (Nat.le_of_lt_succ hi) with hlt | rfl
    · rcases ih hlt hr with hopen | ⟨j, hj, hstarts⟩
      · have hchange := change_of_step (h.nested hr) hstep
        have hlast := hopen n r hlt (Nat.le_refl n) hr
        -- how many guards there are tells whether the step has left the construct
        by_cases hlength : t.guards.length < s.guards.length
        · left
          intro k u hik hk hu
          rcases Nat.lt_or_eq_of_le hk with hkn | rfl
          · exact hopen k u hik (by omega) hu
          · cases h.unique hu hs
            exact hlast.next hchange (h.nested hs) hlength
        · right
          have hstarted := hlast.closed hchange hcleanup (by omega)
          exact ⟨n, by omega, hlt, hopen, r, s, hr, hs, hstarted⟩
      · exact .inr ⟨j, by omega, hstarts⟩
    · left
      intro k u hik hk hu
      obtain rfl : k = i + 1 := by omega
      cases h.unique hr ht
      cases h.unique hu hs
      exact open_of_entersTry henters hstep

end trajectory

end Machine
end ScriptMachine
