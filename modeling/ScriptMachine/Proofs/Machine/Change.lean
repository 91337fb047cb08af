import ScriptMachine.Proofs.Machine.Calm
import ScriptMachine.Proofs.Machine.Completion

namespace ScriptMachine
namespace Machine

/-- The address of the finally block of a try construct. -/
def Guard.cleanup? (p : Program) (g : Guard) : Option Nat :=
  ((p.tries[g.table]?).bind TryTable.cleanup?).map fun address => address.toInt.toNat

theorem Guard.cleanup?_eq {p : Program} {g : Guard} {t : TryTable}
    (ht : p.tries[g.table]? = some t) :
    g.cleanup? p = t.cleanup?.map fun address => address.toInt.toNat := by
  rw [Guard.cleanup?, ht, Option.bind_some]

/-- The next instruction enters a try construct with the given table. -/
def EntersTry (p : Program) (s : State) (table : Nat) : Prop :=
  ∃ ins, p.code[s.frame.ip]? = some ins ∧ ins.op? = some .pushTry ∧ ins.a.toNat = table

/-- The guard of a try construct that is entered in a state. -/
def State.entered (s : State) (table : Nat) (phase : Phase) : Guard :=
  ⟨table, s.depth, s.stack.size, s.pending.size, phase⟩

/-- The executing frame of `s` is among the frames of `t`, with the same callers below it. -/
def FrameIn (s t : State) : Prop :=
  ∃ frame, frame :: s.frames.tail <:+ t.frames ∧ frame.function = s.frame.function ∧
    frame.base = s.frame.base

theorem FrameIn.refl (s : State) : FrameIn s s := ⟨s.frame, List.suffix_refl _, rfl, rfl⟩

theorem FrameIn.of_suffix {s t : State} (h : s.frames <:+ t.frames) : FrameIn s t :=
  ⟨s.frame, h, rfl, rfl⟩

theorem FrameIn.congr {s s' t : State} (h : FrameIn s t) (hcallers : s'.callers = s.callers)
    (hfunction : s'.frame.function = s.frame.function) (hbase : s'.frame.base = s.frame.base) :
    FrameIn s' t := by
  obtain ⟨frame, hframes, hf, hb⟩ := h
  refine ⟨frame, ?_, hf.trans hfunction.symm, hb.trans hbase.symm⟩
  unfold State.frames at hframes ⊢
  rwa [hcallers]

theorem FrameIn.trans {r s t : State} (h : FrameIn r s) (h' : FrameIn s t) : FrameIn r t := by
  obtain ⟨frame, hframes, hfunction, hbase⟩ := h
  obtain ⟨frame', hframes', hfunction', hbase'⟩ := h'
  rcases List.suffix_cons_iff.1
    (show frame :: r.frames.tail <:+ s.frame :: s.frames.tail from hframes)
    with heq | hs
  · obtain ⟨rfl, htail⟩ := List.cons.inj heq
    refine ⟨frame', ?_, hfunction'.trans hfunction, hbase'.trans hbase⟩
    rw [htail]
    exact hframes'
  · exact ⟨frame, hs.trans ((List.suffix_cons _ _).trans hframes'), hfunction, hbase⟩

theorem FrameIn.of_le {r s t : State} (hr : FrameIn r t) (hs : FrameIn s t)
    (hle : r.depth ≤ s.depth) : FrameIn r s := by
  obtain ⟨frame, hframes, hfunction, hbase⟩ := hr
  obtain ⟨frame', hframes', hfunction', hbase'⟩ := hs
  have hlength : (frame :: r.frames.tail).length ≤ (frame' :: s.frames.tail).length := by
    simp only [List.length_cons, length_callers]
    omega
  rcases List.suffix_cons_iff.1 (List.suffix_of_suffix_length_le hframes hframes' hlength)
    with heq | hs
  · obtain ⟨rfl, htail⟩ := List.cons.inj heq
    refine ⟨s.frame, ?_, hfunction'.symm.trans hfunction, hbase'.symm.trans hbase⟩
    rw [htail]
    exact List.suffix_refl _
  · exact ⟨frame, hs.trans (List.suffix_cons _ _), hfunction, hbase⟩

theorem FrameIn.depth_le {s t : State} (h : FrameIn s t) : s.depth ≤ t.depth := by
  obtain ⟨frame, hframes, -⟩ := h
  have hlength := hframes.length_le
  simp only [List.length_cons, length_callers, length_frames] at hlength
  omega

theorem FrameIn.callers {s t : State} (h : FrameIn s t) : s.frames.tail <:+ t.frames.tail := by
  obtain ⟨frame, hframes, -⟩ := h
  rcases List.suffix_cons_iff.1
    (show frame :: s.frames.tail <:+ t.frame :: t.frames.tail from hframes)
    with heq | hs
  · exact (List.cons.inj heq).2 ▸ List.suffix_refl _
  · exact (List.suffix_cons _ _).trans hs

theorem frames_of_backTo? {s s' : State} {position : Nat} (h : s.backTo? position = some s') :
    s'.frames <:+ s.frames ∧ s'.depth = position ∧ s'.guards = s.guards ∧
    s'.pending = s.pending := by
  unfold State.backTo? at h
  split at h
  · next heq =>
    cases h
    exact ⟨List.suffix_refl _, heq.symm, rfl, rfl⟩
  · split at h
    · next frame hframe =>
      cases h
      have hlt : position < s.callers.size := (Array.getElem?_eq_some_iff.1 hframe).1
      refine ⟨?_, ?_, rfl, rfl⟩
      · have hget : s.callers.toList[position]? = some frame := by
          rw [Array.getElem?_toList]
          exact hframe
        have hprefix : s.callers.toList.take (position + 1) <+: s.callers.toList :=
          List.take_prefix _ _
        rw [List.take_add_one, hget] at hprefix
        simp only [State.frames, Array.toList_shrink]
        have hsuffix := List.reverse_suffix.2 hprefix
        simp only [Option.toList_some, List.reverse_append, List.reverse_cons, List.reverse_nil,
          List.nil_append, List.singleton_append] at hsuffix
        exact hsuffix.trans (List.suffix_cons _ _)
      · simp only [State.depth, Array.size_shrink]
        omega
    · cases h

theorem backTo?_of_le {s : State} {position : Nat} (h : position ≤ s.depth) :
    ∃ s', s.backTo? position = some s' := by
  unfold State.backTo?
  split
  · exact ⟨s, rfl⟩
  · next hne =>
    have hlt : position < s.callers.size := by
      unfold State.depth at h
      omega
    rw [Array.getElem?_eq_getElem hlt]
    exact ⟨_, rfl⟩

/-- Completions are given up, and the list may be filled up; none is recorded. -/
def Trimmed (xs ys : Array Pending) : Prop :=
  ∃ k n, ys.toList = xs.toList.take k ++ List.replicate n ⟨0, .jump 0⟩

theorem trimmed_of_isPrefix {xs ys : Array Pending} (h : ys.toList <+: xs.toList) :
    Trimmed xs ys := by
  refine ⟨ys.toList.length, 0, ?_⟩
  rw [List.replicate_zero, List.append_nil]
  exact List.prefix_iff_eq_take.1 h

theorem Trimmed.refl (xs : Array Pending) : Trimmed xs xs :=
  trimmed_of_isPrefix (List.prefix_refl _)

theorem Trimmed.trans {xs ys zs : Array Pending} (h : Trimmed xs ys) (h' : Trimmed ys zs) :
    Trimmed xs zs := by
  obtain ⟨k, n, hys⟩ := h
  obtain ⟨k', n', hzs⟩ := h'
  refine ⟨min k' k, min (k' - (xs.toList.take k).length) n + n', ?_⟩
  rw [hzs, hys, List.take_append, List.take_take, List.take_replicate, List.append_assoc,
    List.replicate_append_replicate]

theorem trimmed_pop (xs : Array Pending) : Trimmed xs xs.pop := by
  apply trimmed_of_isPrefix
  rw [Array.toList_pop]
  exact List.dropLast_prefix _

theorem trimmed_popWhile (xs : Array Pending) (f : Pending → Bool) :
    Trimmed xs (xs.popWhile f) := by
  apply trimmed_of_isPrefix
  obtain ⟨xs⟩ := xs
  rw [List.popWhile_toArray]
  have hsuffix := List.reverse_prefix.2 (List.dropWhile_suffix (l := xs.reverse) f)
  rwa [List.reverse_reverse] at hsuffix

theorem trimmed_resize (xs : Array Pending) (n : Nat) : Trimmed xs (resize xs n ⟨0, .jump 0⟩) := by
  unfold resize
  split
  · apply trimmed_of_isPrefix
    rw [Array.toList_shrink]
    exact List.take_prefix _ _
  · refine ⟨xs.toList.length, n - xs.size, ?_⟩
    rw [Array.toList_append, Array.toList_replicate, List.take_length]

/-- A state that is taken back to where a guard was set up. -/
structure Rewound (s : State) (g : Guard) (s' : State) : Prop where
  frames : s'.frames <:+ s.frames
  depth : s'.depth = g.frame
  pending : Trimmed s.pending s'.pending

theorem rewound_of_rewind? {s s' : State} {g : Guard} (h : rewind? s g = some s') :
    Rewound s g s' := by
  unfold rewind? at h
  split at h
  · next s₁ hback =>
    cases h
    obtain ⟨hframes, hdepth, -, hpending⟩ := frames_of_backTo? hback
    exact ⟨hframes, hdepth, hpending ▸ trimmed_resize _ _⟩
  · cases h

theorem rewind?_of_le {s : State} {g : Guard} (h : g.frame ≤ s.depth) :
    ∃ s', rewind? s g = some s' := by
  obtain ⟨s₁, hback⟩ := backTo?_of_le h
  exact ⟨_, by rw [rewind?, hback]⟩

/-- The frames are within the limit, and the open constructs stand in frames that are there, those
of a caller outside of those of its callee. -/
structure Nested (limits : Limits) (s : State) : Prop where
  depth_lt : s.depth < limits.maxFrames
  sorted : s.guards.Pairwise fun inner outer => outer.frame ≤ inner.frame
  frame_le : ∀ g ∈ s.guards, g.frame ≤ s.depth

/-- The ways in which a step changes guards, frames and completions. -/
inductive Change (p : Program) (limits : Limits) (s s' : State) : Prop
  /-- Control goes on in the frame or in its caller. Constructs without a finally block may be
  left. -/
  | pass {removed : List Guard} : s.guards = removed ++ s'.guards →
      (∀ g ∈ removed, g.cleanup? p = none) → FrameIn s' s → (∀ g ∈ s'.guards, g.frame ≤ s'.depth) →
      Trimmed s.pending s'.pending → Change p limits s s'
  | call : s'.guards = s.guards → s'.pending = s.pending → FrameIn s s' → s'.depth = s.depth + 1 →
      s'.depth < limits.maxFrames → Change p limits s s'
  | enter {table : Nat} : EntersTry p s table → s'.guards = s.entered table .body :: s.guards →
      s'.pending = s.pending → FrameIn s' s → s'.depth = s.depth → Change p limits s s'
  /-- An error comes to a handler of the construct. -/
  | caught {removed outer : List Guard} {g : Guard} {t : TryTable} {clause : CatchClause} :
      s.guards = removed ++ g :: outer → (∀ g ∈ removed, g.cleanup? p = none) → g.phase = .body →
      s'.guards = { g with phase := .handling } :: outer → p.tries[g.table]? = some t →
      clause ∈ t.clauses → s'.frame.ip = clause.handler.toInt.toNat → FrameIn s' s →
      s'.depth = g.frame → Trimmed s.pending s'.pending → Change p limits s s'
  /-- The finally block of the construct is started. -/
  | started {removed : List Guard} {g : Guard} {address : Nat} {kept : Array Pending}
      {completion : Completion} : s.guards = removed ++ g :: s'.guards →
      (∀ g ∈ removed, g.cleanup? p = none) → g.cleanup? p = some address →
      s'.frame.ip = address → FrameIn s' s → s'.depth = g.frame → Trimmed s.pending kept →
      s'.pending = kept.push ⟨g.frame, completion⟩ → Change p limits s s'

/-- What a step comes to: it has no result, or ends an execution that leaves no finally block to
run, or changes the state. -/
inductive Proceeds (p : Program) (limits : Limits) (s : State) : Option Progress → Prop
  | stuck : Proceeds p limits s none
  | done {f : Finished} : (∀ g ∈ s.guards, g.cleanup? p = none) →
      Proceeds p limits s (some (.done f))
  | next {s' : State} : Change p limits s s' → Proceeds p limits s (some (.next s'))

theorem forall_concat {removed : List Guard} {g : Guard} {Q : Guard → Prop}
    (h : ∀ g' ∈ removed, Q g') (hg : Q g) : ∀ g' ∈ removed ++ [g], Q g' := by
  intro g' hmem
  rcases List.mem_append.1 hmem with hmem | hmem
  · exact h g' hmem
  · exact List.mem_singleton.1 hmem ▸ hg

section transfers

variable {p : Program} {limits : Limits} {s₀ s : State} {removed guards : List Guard}

/-- An error leaves constructs from the innermost on. The induction is on those that are still open;
the state has been taken back to the last one that was left. -/
theorem proceeds_unwind (e : ScriptError) (hguards : s₀.guards = removed ++ guards)
    (hremoved : ∀ g ∈ removed, g.cleanup? p = none) (hframe : FrameIn s s₀)
    (hpending : Trimmed s₀.pending s.pending) : Proceeds p limits s₀ (unwind p e s guards) := by
  induction guards generalizing s removed with
  | nil =>
    rw [List.append_nil] at hguards
    exact .done (hguards ▸ hremoved)
  | cons g outer ih =>
    unfold unwind
    cases ht : p.tries[g.table]? with
    | none => exact .stuck
    | some t =>
      cases hrewind : rewind? s g with
      | none => exact .stuck
      | some s₁ =>
        have hback := rewound_of_rewind? hrewind
        have hframe₁ := (FrameIn.of_suffix hback.frames).trans hframe
        have hpending₁ := hpending.trans hback.pending
        simp only [Option.bind_eq_bind, Option.bind_some]
        split
        case h_1 clause hclause =>
          split at hclause
          · next hphase =>
            exact .next (.caught hguards hremoved hphase rfl ht (mem_of_selectClause? hclause) rfl
              (hframe₁.congr rfl rfl rfl) hback.depth hpending₁)
          · cases hclause
        case h_2 address _ hcleanup =>
          have haddress : g.cleanup? p = some address.toInt.toNat := by
            rw [Guard.cleanup?_eq ht, hcleanup, Option.map_some]
          exact .next (.started hguards hremoved haddress rfl (hframe₁.congr rfl rfl rfl)
            hback.depth hpending₁ rfl)
        case h_3 _ hcleanup =>
          have hnone : g.cleanup? p = none := by
            rw [Guard.cleanup?_eq ht, hcleanup, Option.map_none]
          have hleft : s₀.guards = (removed ++ [g]) ++ outer := by
            rw [hguards, List.append_assoc, List.singleton_append]
          exact ih hleft (forall_concat hremoved hnone) hframe₁ hpending₁

theorem proceeds_raise (e : ScriptError) (hguards : s.guards = s₀.guards) (hframe : FrameIn s s₀)
    (hpending : Trimmed s₀.pending s.pending) : Proceeds p limits s₀ (raise p s e) := by
  have hleft : s₀.guards = [] ++ s.guards := by rw [hguards, List.nil_append]
  exact proceeds_unwind _ hleft (by simp) hframe hpending

theorem callers_of_back? {s : State} {caller : Frame} (h : s.callers.back? = some caller) :
    s.callers.toList = s.callers.pop.toList ++ [caller] := by
  rw [Array.toList_pop]
  rw [← Array.getLast?_toList] at h
  obtain ⟨front, hfront⟩ := List.getLast?_eq_some_iff.1 h
  rw [hfront, List.dropLast_concat]

theorem frameIn_of_back? {s s' : State} {caller : Frame} (h : s.callers.back? = some caller)
    (hframe : s'.frame = caller) (hcallers : s'.callers = s.callers.pop) : FrameIn s' s := by
  apply FrameIn.of_suffix
  unfold State.frames
  rw [callers_of_back? h, List.reverse_append, hframe, hcallers]
  exact List.suffix_cons _ _

theorem proceeds_leaveFrame (v : Value) (hguards : s₀.guards = removed ++ guards)
    (hremoved : ∀ g ∈ removed, g.cleanup? p = none) (hframe : FrameIn s s₀)
    (hpending : Trimmed s₀.pending s.pending) (hlt : ∀ g ∈ guards, g.frame < s.depth) :
    Proceeds p limits s₀ (some (leaveFrame { s with guards } v)) := by
  unfold leaveFrame
  cases hback : s.callers.back? with
  | none =>
    have hdepth : s.depth = 0 := by
      rw [State.depth, Array.back?_eq_none_iff.1 hback]
      rfl
    -- a guard would belong to a frame below the first one
    have hnil : guards = [] := by
      apply List.eq_nil_iff_forall_not_mem.2
      intro g hg
      have := hlt g hg
      omega
    rw [hnil, List.append_nil] at hguards
    exact .done (hguards ▸ hremoved)
  | some caller =>
    have hsize : s.callers.size = s.callers.pop.size + 1 := by
      simpa using congrArg List.length (callers_of_back? hback)
    refine .next (.pass hguards hremoved ?_ ?_ hpending)
    · exact (frameIn_of_back? hback rfl rfl).trans hframe
    · intro g hg
      have := hlt g hg
      simp only [State.depth] at this ⊢
      omega

/-- A return leaves the constructs of its frame up to the first with a finally block. -/
theorem proceeds_returnThrough (v : Value) (hn : Nested limits s₀)
    (hguards : s₀.guards = removed ++ guards) (hremoved : ∀ g ∈ removed, g.cleanup? p = none)
    (hframe : FrameIn s s₀) (hdepth : s.depth = s₀.depth)
    (hpending : Trimmed s₀.pending s.pending) :
    Proceeds p limits s₀ (returnThrough p v s guards) := by
  induction guards generalizing removed with
  | nil => exact proceeds_leaveFrame v hguards hremoved hframe hpending (by simp)
  | cons g outer ih =>
    unfold returnThrough
    split
    · next hne =>
      -- the guards are sorted, so all that is left belongs to callers
      apply proceeds_leaveFrame v hguards hremoved hframe hpending
      have hsorted := hn.sorted
      rw [hguards, List.pairwise_append] at hsorted
      have hle := hn.frame_le g (by simp [hguards])
      intro g' hg'
      rcases List.mem_cons.1 hg' with rfl | hg'
      · omega
      · have := (List.pairwise_cons.1 hsorted.2.1).1 g' hg'
        omega
    · next heq =>
      have hposition : g.frame = s.depth := Decidable.not_not.1 heq
      cases ht : p.tries[g.table]? with
      | none => exact .stuck
      | some t =>
        simp only
        cases hcleanup : t.cleanup? with
        | none =>
          have hnone : g.cleanup? p = none := by
            rw [Guard.cleanup?_eq ht, hcleanup, Option.map_none]
          have hleft : s₀.guards = (removed ++ [g]) ++ outer := by
            rw [hguards, List.append_assoc, List.singleton_append]
          exact ih hleft (forall_concat hremoved hnone)
        | some address =>
          have haddress : g.cleanup? p = some address.toInt.toNat := by
            rw [Guard.cleanup?_eq ht, hcleanup, Option.map_some]
          have hpush : s.pending.push ⟨s.depth, .result v⟩ =
              s.pending.push ⟨g.frame, .result v⟩ := by rw [hposition]
          exact .next (.started hguards hremoved haddress rfl (hframe.congr rfl rfl rfl)
            hposition.symm hpending hpush)

theorem proceeds_completeReturn (v : Value) (hn : Nested limits s₀) (hguards : s.guards = s₀.guards)
    (hframe : FrameIn s s₀) (hdepth : s.depth = s₀.depth)
    (hpending : Trimmed s₀.pending s.pending) :
    Proceeds p limits s₀ (completeReturn p s v) := by
  have hleft : s₀.guards = [] ++ s.guards := by rw [hguards, List.nil_append]
  exact proceeds_returnThrough v hn hleft (by simp) (hframe.congr rfl rfl rfl) hdepth
    (hpending.trans (trimmed_popWhile _ _))

end transfers

theorem change_of_same {p : Program} {limits : Limits} {s s' : State} (hn : Nested limits s)
    (hguards : s'.guards = s.guards) (hframe : FrameIn s' s) (hdepth : s'.depth = s.depth)
    (hpending : Trimmed s.pending s'.pending) : Change p limits s s' := by
  have hleft : s.guards = [] ++ s'.guards := by rw [hguards, List.nil_append]
  refine .pass hleft (by simp) hframe ?_ hpending
  rw [hguards, hdepth]
  exact hn.frame_le

/-- An instruction that stays in its frame and leaves the constructs as they are, unless it raises
an error. -/
inductive Steady (p : Program) (s : State) : Option Progress → Prop
  | stuck : Steady p s none
  | next {s' : State} : SameControl s s' → Steady p s (some (.next s'))
  | raise {s' : State} {e : ScriptError} : SameControl s s' → Steady p s (raise p s' e)

section steady

variable {p : Program} {s : State}

theorem Steady.bind {x : Option α} {f : α → Option Progress}
    (h : ∀ a, x = some a → Steady p s (f a)) : Steady p s (x >>= f) := by
  cases x with
  | none => exact .stuck
  | some a => exact h a rfl

theorem Calm.steady {result : Option Progress} (h : Calm p s result) : Steady p s result := by
  cases h with
  | stuck => exact .stuck
  | next hcontrol _ => exact .next hcontrol
  | raise hpopped _ => exact .raise hpopped.control

theorem steady_throw : Steady p s (throw p s) := by
  apply Steady.bind
  intro ⟨v, s₁⟩ h
  dsimp only
  split
  · exact .raise (popped_of_pop? h).control
  · exact .raise (popped_of_pop? h).control

theorem steady_makeError (index : Nat) : Steady p s (makeError p s index) := by
  apply Steady.bind
  intro c _
  apply Steady.bind
  intro ⟨v, s₁⟩ h
  exact .next ((popped_of_pop? h).control.trans ⟨rfl, rfl, rfl, rfl, rfl⟩)

theorem steady_execute {limits : Limits} {op : Opcode} (ins : Instruction)
    (hop : op.transfers = false) : Steady p s (execute p limits s op ins) := by
  by_cases hthrow : op = .throw
  · subst hthrow
    exact steady_throw
  · by_cases hmake : op = .makeError
    · subst hmake
      exact steady_makeError _
    · exact (calm_execute ins hop hthrow hmake).steady

end steady

section fetched

-- Fetching an instruction moves the address of the frame on, so the frame is not quite the same.
variable {s s' : State} {op : Opcode} (h : SameControl (s.fetched op) s')
include h

theorem SameControl.frameIn : FrameIn s' s := by
  apply (FrameIn.refl s).congr h.callers
  · rw [h.frame]
    rfl
  · rw [h.frame]
    rfl

theorem SameControl.depth : s'.depth = s.depth := by
  rw [State.depth, h.callers]
  rfl

theorem SameControl.trimmed : Trimmed s.pending s'.pending := by
  rw [h.pending]
  exact Trimmed.refl _

end fetched

section step

variable {p : Program} {limits : Limits} {s : State}

theorem Steady.proceeds {op : Opcode} {result : Option Progress} (hn : Nested limits s)
    (h : Steady p (s.fetched op) result) : Proceeds p limits s result := by
  cases h with
  | stuck => exact .stuck
  | next hcontrol =>
    exact .next (change_of_same hn hcontrol.guards hcontrol.frameIn hcontrol.depth hcontrol.trimmed)
  | raise hcontrol => exact proceeds_raise _ hcontrol.guards hcontrol.frameIn hcontrol.trimmed

theorem proceeds_refused (op : Opcode) (e : ScriptError) :
    Proceeds p limits s (raise p (s.fetched op) e) :=
  proceeds_raise e rfl ((FrameIn.refl s).congr rfl rfl rfl) (Trimmed.refl _)

theorem proceeds_call (index argc : Nat) :
    Proceeds p limits s (call p limits (s.fetched .call) index argc) := by
  unfold call
  cases hf : p.functions[index]? with
  | none => exact .stuck
  | some f =>
    simp only [Option.bind_eq_bind, Option.bind_some]
    split
    · exact proceeds_refused _ _
    · next hrefusal =>
      cases frameStack? p f ((s.fetched .call).stack.size - argc) argc (s.fetched .call).stack with
      | none => exact .stuck
      | some stack =>
        have hroom : ¬ limits.maxFrames ≤ (s.fetched .call).depth + 1 := by
          intro hfull
          simp [refusal?, hfull] at hrefusal
        refine .next (.call rfl rfl ⟨(s.fetched .call).frame, ?_, rfl, rfl⟩ ?_ ?_)
        · simp only [State.frames, State.fetched, Array.toList_push, List.reverse_append,
            List.reverse_cons, List.reverse_nil, List.nil_append, List.singleton_append,
            List.tail_cons]
          exact List.suffix_cons _ _
        · simp [State.depth, State.fetched]
        · simp only [State.depth, State.fetched, Array.size_push] at hroom ⊢
          omega

theorem proceeds_popTry (hn : Nested limits s) (target : Nat) :
    Proceeds p limits s (popTry p (s.fetched .popTry) target) := by
  unfold popTry
  cases hguards : (s.fetched .popTry).guards with
  | nil => exact proceeds_refused _ _
  | cons g outer =>
    have hs : s.guards = [] ++ g :: outer := hguards
    dsimp only
    split
    · exact proceeds_refused _ _
    · next heq =>
      have hposition : g.frame = s.depth := Decidable.not_not.1 heq
      cases ht : p.tries[g.table]? with
      | none => exact .stuck
      | some t =>
        simp only
        cases hcleanup : t.cleanup? with
        | none =>
          have hnone : g.cleanup? p = none := by
            rw [Guard.cleanup?_eq ht, hcleanup, Option.map_none]
          have hleft : s.guards = [g] ++ outer := hguards
          refine .next (.pass hleft (by simpa using hnone) ((FrameIn.refl s).congr rfl rfl rfl) ?_
            (Trimmed.refl _))
          intro g' hg'
          apply hn.frame_le g'
          rw [hs]
          exact List.mem_cons_of_mem _ hg'
        | some address =>
          have haddress : g.cleanup? p = some address.toInt.toNat := by
            rw [Guard.cleanup?_eq ht, hcleanup, Option.map_some]
          exact .next (.started hs (by simp) haddress rfl ((FrameIn.refl s).congr rfl rfl rfl)
            hposition.symm (Trimmed.refl _) rfl)

theorem proceeds_endFinally (hn : Nested limits s) :
    Proceeds p limits s (endFinally p (s.fetched .endFinally)) := by
  unfold endFinally
  split
  · exact proceeds_refused _ _
  · next pending _ =>
    split
    · exact proceeds_refused _ _
    · have hpending : Trimmed s.pending (s.fetched .endFinally).pending.pop := trimmed_pop _
      have hframe : FrameIn { s.fetched .endFinally with pending := s.pending.pop } s :=
        (FrameIn.refl s).congr rfl rfl rfl
      dsimp only
      split
      · exact .next (change_of_same hn rfl ((FrameIn.refl s).congr rfl rfl rfl) rfl hpending)
      · exact proceeds_raise _ rfl hframe hpending
      · exact proceeds_completeReturn _ hn rfl hframe rfl hpending

/-- The step lemma: every instruction other than a halt leaves constructs in order. -/
theorem proceeds_step (hn : Nested limits s) (hhalt : s.op? p ≠ some .halt) :
    Proceeds p limits s (step p limits s) := by
  obtain hstuck | ⟨ins, op, hcode, hop, hstep⟩ := step_cases p limits s
  · rw [hstuck]
    exact .stuck
  rw [hstep]
  cases op with
  | halt => exact absurd (by simp [State.op?, hcode, hop]) hhalt
  | jump =>
    exact .next (change_of_same hn rfl ((FrameIn.refl s).congr rfl rfl rfl) rfl (Trimmed.refl _))
  | jumpIfFalse =>
    simp only [execute]
    cases hpop : (s.fetched .jumpIfFalse).pop? with
    | none => exact .stuck
    | some popped =>
      obtain ⟨v, s₁⟩ := popped
      have hcontrol := (popped_of_pop? hpop).control
      refine .next ?_
      dsimp only
      split
      · exact change_of_same hn hcontrol.guards hcontrol.frameIn hcontrol.depth hcontrol.trimmed
      · exact change_of_same hn hcontrol.guards (hcontrol.frameIn.congr rfl rfl rfl) hcontrol.depth
          hcontrol.trimmed
  | call => exact proceeds_call _ _
  | ret =>
    simp only [execute]
    cases hpop : (s.fetched .ret).pop? with
    | none => exact .stuck
    | some popped =>
      obtain ⟨v, s₁⟩ := popped
      have hcontrol := (popped_of_pop? hpop).control
      exact proceeds_completeReturn v hn hcontrol.guards hcontrol.frameIn hcontrol.depth
        hcontrol.trimmed
  | pushTry =>
    exact .next (.enter ⟨ins, hcode, hop, rfl⟩ rfl rfl ((FrameIn.refl s).congr rfl rfl rfl) rfl)
  | popTry => exact proceeds_popTry hn _
  | endFinally => exact proceeds_endFinally hn
  | _ => exact (steady_execute ins rfl).proceeds hn

end step

end Machine
end ScriptMachine
