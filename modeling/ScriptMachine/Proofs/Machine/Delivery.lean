import ScriptMachine.Proofs.Machine.Discipline

namespace ScriptMachine
namespace Machine

/-- Where a raised error has come to: what a step from `s` leaves behind. -/
inductive Delivered (s : State) (e : ScriptError) : Progress → Prop
  /-- A handler starts with the error, now an object of its own, on top of the stack. -/
  | caught {s' : State} : FrameIn s' s → Trimmed s.pending s'.pending →
      s'.world.heap = (s.world.heap.newError e).2 →
      s'.stack.back? = some (s.world.heap.newError e).1 → Delivered s e (.next s')
  | waits {s' : State} {kept : Array Pending} : FrameIn s' s → Trimmed s.pending kept →
      s'.world.heap = s.world.heap → s'.pending = kept.push ⟨s'.depth, .rethrow e⟩ →
      Delivered s e (.next s')
  | uncaught {f : Finished} : f.outcome = .failed e → f.world.heap = s.world.heap →
      Delivered s e (.done f)

/-- The instruction of `s` has been fetched; it has taken no more than operands and a completion. -/
structure Amid (s t : State) : Prop where
  frame : t.frame = { s.frame with ip := s.frame.ip + 1 }
  callers : t.callers = s.callers
  guards : t.guards = s.guards
  pending : Trimmed s.pending t.pending
  world : t.world = s.world

def Raised (p : Program) (limits : Limits) (s : State) (e : ScriptError) : Prop :=
  ∃ t, Amid s t ∧ step p limits s = raise p t e

/-- Where the instruction of `s` has the error from that it raises. -/
inductive Source (p : Program) (s : State) (e : ScriptError) : Prop
  | made : e.trace = [] → Source p s e
  | thrown {r : Ref} : s.op? p = some .throw → s.stack.back? = some (.error r) →
      s.world.heap.error r = e → Source p s e
  | resumed : s.op? p = some .endFinally → s.pending.back? = some ⟨s.depth, .rethrow e⟩ →
      Source p s e

/-- The completions that hold an error are completions of before, each in its place. -/
def Rethrows (xs ys : Array Pending) : Prop :=
  ∀ (i : Nat) d e, ys[i]? = some ⟨d, .rethrow e⟩ → xs[i]? = some ⟨d, .rethrow e⟩

structure KeepsErrors (s s' : State) : Prop where
  objects : ∃ made : Array ScriptError, s'.world.heap.errors = s.world.heap.errors ++ made ∧
    ∀ e ∈ made, e.trace = []
  pending : Rethrows s.pending s'.pending

structure Called (p : Program) (s s' : State) : Prop where
  code : ∃ ins, p.code[s.frame.ip]? = some ins ∧ ins.op? = some .call ∧
    s'.frame.function = ins.a.toNat
  function : s'.frame.function < p.functions.size
  callers : s'.callers = s.callers.push { s.frame with ip := s.frame.ip + 1 }

/-- What a step does to errors and frames. -/
inductive Course (p : Program) (s : State) : Option Progress → Prop
  | stuck : Course p s none
  | raised {t : State} {e : ScriptError} : Amid s t → Source p s e → Course p s (raise p t e)
  | on {s' : State} : FrameIn s' s → KeepsErrors s s' → Course p s (some (.next s'))
  | called {s' : State} : Called p s s' → KeepsErrors s s' → Course p s (some (.next s'))
  | returned {f : Finished} {v : Value} : f.outcome = .returned v → Course p s (some (.done f))

theorem ScriptError.trace_eq_nil {e : ScriptError} (h : e.untraced = e) : e.trace = [] :=
  (congrArg ScriptError.trace h).symm

section completions

variable {xs ys zs : Array Pending}

theorem Rethrows.refl (xs : Array Pending) : Rethrows xs xs := fun _ _ _ h => h

theorem Rethrows.trans (h : Rethrows xs ys) (h' : Rethrows ys zs) : Rethrows xs zs :=
  fun i d e hi => h i d e (h' i d e hi)

theorem Trimmed.rethrows (h : Trimmed xs ys) : Rethrows xs ys := by
  obtain ⟨k, n, hys⟩ := h
  intro i d e hi
  rw [← Array.getElem?_toList, hys] at hi
  rw [← Array.getElem?_toList]
  rw [List.getElem?_append] at hi
  split at hi
  · next hlt =>
    rwa [List.getElem?_take_of_lt (by simp at hlt; omega)] at hi
  · have hmem := List.mem_of_getElem? hi
    cases (List.mem_replicate.1 hmem).2

theorem Rethrows.push (h : Rethrows xs ys) {q : Pending} (hq : ∀ e, q.completion ≠ .rethrow e) :
    Rethrows xs (ys.push q) := by
  intro i d e hi
  rw [Array.getElem?_push] at hi
  split at hi
  · cases hi
    exact absurd rfl (hq e)
  · exact h i d e hi

end completions

section delivery

variable {p : Program} {s₀ s t : State} {e : ScriptError} {result : Progress}

theorem world_of_rewind? {s' : State} {g : Guard} (h : rewind? s g = some s') :
    s'.world = s.world := by
  unfold rewind? State.backTo? at h
  split at h
  · next hback =>
    cases h
    split at hback
    · cases hback
      rfl
    · split at hback
      · cases hback
        rfl
      · cases hback
  · cases h

/-- The induction is on the guards that are still open, as in `proceeds_unwind`. -/
theorem delivered_unwind {guards : List Guard} (hframe : FrameIn s s₀)
    (hpending : Trimmed s₀.pending s.pending) (hworld : s.world = s₀.world)
    (h : unwind p e s guards = some result) : Delivered s₀ e result := by
  induction guards generalizing s with
  | nil =>
    cases h
    exact .uncaught rfl (by rw [hworld])
  | cons g outer ih =>
    unfold unwind at h
    obtain ⟨t, -, h⟩ := Option.bind_eq_some_iff.1 h
    obtain ⟨s₁, hrewind, h⟩ := Option.bind_eq_some_iff.1 h
    have hback := rewound_of_rewind? hrewind
    have hframe₁ := (FrameIn.of_suffix hback.frames).trans hframe
    have hpending₁ := hpending.trans hback.pending
    have hworld₁ : s₁.world = s₀.world := (world_of_rewind? hrewind).trans hworld
    dsimp only at h
    split at h
    · cases h
      refine .caught (hframe₁.congr rfl rfl rfl) hpending₁ ?_ ?_
      · simp [State.jump, State.pushNew, hworld₁]
      · simp [State.jump, State.pushNew, Heap.newError, hworld₁]
    · cases h
      refine .waits (hframe₁.congr rfl rfl rfl) hpending₁ (by rw [← hworld₁]; rfl) ?_
      rw [← hback.depth]
      rfl
    · exact ih hframe₁ hpending₁ hworld₁ h

theorem Amid.frameIn (h : Amid s t) : FrameIn t s := by
  apply (FrameIn.refl s).congr h.callers
  · rw [h.frame]
  · rw [h.frame]

/-- The delivery lemma: an error comes out as it is, with an account of the open calls if it has
none. -/
theorem Amid.delivered (h : Amid s t) (hraise : raise p t e = some result) :
    Delivered s (traced p t e) result :=
  delivered_unwind h.frameIn h.pending h.world hraise

theorem unwind_isSome {guards : List Guard} (hrewinds : Rewinds s guards)
    (htables : ∀ g ∈ guards, (p.tries[g.table]?).isSome) : (unwind p e s guards).isSome := by
  induction guards generalizing s with
  | nil => rfl
  | cons g outer ih =>
    obtain ⟨t, ht⟩ := Option.isSome_iff_exists.1 (htables g List.mem_cons_self)
    obtain ⟨s₁, hrewind, -, -, houter⟩ := hrewinds
    simp only [unwind, ht, hrewind, Option.bind_eq_bind, Option.bind_some]
    split
    · rfl
    · rfl
    · exact ih houter fun g' hg' => htables g' (List.mem_cons_of_mem _ hg')

end delivery

section course

variable {p : Program} {limits : Limits} {s t : State}

theorem amid_fetched (s : State) (op : Opcode) : Amid s (s.fetched op) :=
  ⟨rfl, rfl, rfl, Trimmed.refl _, rfl⟩

theorem Popped.amid {op : Opcode} (h : Popped (s.fetched op) t) : Amid s t :=
  ⟨h.control.frame, h.control.callers, h.control.guards, h.control.trimmed, h.world⟩

theorem keepsErrors_of_same {s' : State} (herrors : s'.world.heap.errors = s.world.heap.errors)
    (hpending : Trimmed s.pending s'.pending) : KeepsErrors s s' :=
  ⟨⟨#[], by rw [herrors, Array.append_empty], by simp⟩, hpending.rethrows⟩

theorem course_refused (op : Opcode) (kind : ErrorKind) (message : Text) :
    Course p s (raise p (s.fetched op) (.make kind message)) :=
  .raised (amid_fetched s op) (.made rfl)

theorem Calm.course {op : Opcode} {result : Option Progress} (h : Calm p (s.fetched op) result) :
    Course p s result := by
  cases h with
  | stuck => exact .stuck
  | next hcontrol herrors =>
    exact .on hcontrol.frameIn (keepsErrors_of_same herrors hcontrol.trimmed)
  | raise hpopped hfresh => exact .raised hpopped.amid (.made (ScriptError.trace_eq_nil hfresh))

theorem course_throw (hop : s.op? p = some .throw) : Course p s (throw p (s.fetched .throw)) := by
  unfold throw
  cases hpop : (s.fetched .throw).pop? with
  | none => exact .stuck
  | some popped =>
    obtain ⟨v, s₁⟩ := popped
    have hpopped := popped_of_pop? hpop
    have hback : s.stack.back? = some v := by
      unfold State.pop? at hpop
      split at hpop
      · next hback =>
        cases hpop
        exact hback
      · cases hpop
    simp only [Option.bind_eq_bind, Option.bind_some]
    split
    · exact .raised hpopped.amid (.thrown hop hback (by rw [hpopped.world]; rfl))
    · exact .raised hpopped.amid (.made rfl)

theorem course_makeError (index : Nat) : Course p s (makeError p (s.fetched .makeError) index) := by
  unfold makeError
  cases p.constants[index]? with
  | none => exact .stuck
  | some c =>
    simp only [Option.bind_eq_bind, Option.bind_some]
    cases hpop : (s.fetched .makeError).pop? with
    | none => exact .stuck
    | some popped =>
      obtain ⟨v, s₁⟩ := popped
      have hpopped := popped_of_pop? hpop
      have hframe : FrameIn s₁ s := hpopped.control.frameIn
      refine .on (hframe.congr rfl rfl rfl)
        ⟨⟨#[.ofTypeName c.text (s₁.world.heap.display v)], ?_, ?_⟩,
        hpopped.control.trimmed.rethrows⟩
      · simp [State.pushNew, Heap.newError, hpopped.world, State.fetched]
      · simp [ScriptError.ofTypeName]

variable {s₀ : State}

theorem course_leaveFrame (v : Value) (guards : List Guard) (hframe : FrameIn s s₀)
    (hworld : s.world = s₀.world) (hpending : Rethrows s₀.pending s.pending) :
    Course p s₀ (some (leaveFrame { s with guards } v)) := by
  unfold leaveFrame
  cases hback : s.callers.back? with
  | none => exact .returned rfl
  | some caller =>
    refine .on ((frameIn_of_back? hback rfl rfl).trans hframe) ⟨⟨#[], ?_, by simp⟩, hpending⟩
    simp [hworld]

theorem course_returnThrough (v : Value) (guards : List Guard) (hframe : FrameIn s s₀)
    (hworld : s.world = s₀.world) (hpending : Rethrows s₀.pending s.pending) :
    Course p s₀ (returnThrough p v s guards) := by
  induction guards with
  | nil => exact course_leaveFrame v [] hframe hworld hpending
  | cons g outer ih =>
    unfold returnThrough
    split
    · exact course_leaveFrame v (g :: outer) hframe hworld hpending
    · cases p.tries[g.table]? with
      | none => exact .stuck
      | some t =>
        simp only
        cases t.cleanup? with
        | none => exact ih
        | some address =>
          refine .on (hframe.congr rfl rfl rfl) ⟨⟨#[], ?_, by simp⟩, hpending.push nofun⟩
          simp [State.jump, hworld]

theorem course_completeReturn (v : Value) (hframe : FrameIn s s₀) (hworld : s.world = s₀.world)
    (hpending : Rethrows s₀.pending s.pending) : Course p s₀ (completeReturn p s v) :=
  course_returnThrough v s.guards (hframe.congr rfl rfl rfl) hworld
    (hpending.trans (trimmed_popWhile _ _).rethrows)

theorem course_call {ins : Instruction} (hcode : p.code[s.frame.ip]? = some ins)
    (hop : ins.op? = some .call) (argc : Nat) :
    Course p s (call p limits (s.fetched .call) ins.a.toNat argc) := by
  unfold call
  cases hf : p.functions[ins.a.toNat]? with
  | none => exact .stuck
  | some f =>
    simp only [Option.bind_eq_bind, Option.bind_some]
    split
    · next e hrefusal =>
      exact .raised (amid_fetched s .call)
        (.made (ScriptError.trace_eq_nil (refusal?_untraced hrefusal)))
    · cases frameStack? p f ((s.fetched .call).stack.size - argc) argc (s.fetched .call).stack with
      | none => exact .stuck
      | some stack =>
        exact .called ⟨⟨ins, hcode, hop, rfl⟩, (Array.getElem?_eq_some_iff.1 hf).1, rfl⟩
          (keepsErrors_of_same rfl (Trimmed.refl _))

theorem course_popTry (target : Nat) : Course p s (popTry p (s.fetched .popTry) target) := by
  have hframe (s' : State) (hcallers : s'.callers = s.callers)
      (hfunction : s'.frame.function = s.frame.function) (hbase : s'.frame.base = s.frame.base) :
      FrameIn s' s := (FrameIn.refl s).congr hcallers hfunction hbase
  unfold popTry
  split
  · exact course_refused _ _ _
  · next g outer _ =>
    dsimp only
    split
    · exact course_refused _ _ _
    · cases p.tries[g.table]? with
      | none => exact .stuck
      | some t =>
        simp only
        cases t.cleanup? with
        | none => exact .on (hframe _ rfl rfl rfl) (keepsErrors_of_same rfl (Trimmed.refl _))
        | some address =>
          exact .on (hframe _ rfl rfl rfl)
            ⟨⟨#[], by simp [State.jump, State.fetched], by simp⟩, (Rethrows.refl _).push nofun⟩

theorem course_endFinally (hop : s.op? p = some .endFinally) :
    Course p s (endFinally p (s.fetched .endFinally)) := by
  unfold endFinally
  split
  · exact course_refused _ _ _
  · next pending hback =>
    split
    · exact course_refused _ _ _
    · next hdepth =>
      obtain ⟨frame, completion⟩ := pending
      obtain rfl : frame = s.depth := Decidable.not_not.1 hdepth
      have htrimmed : Trimmed s.pending (s.fetched .endFinally).pending.pop := trimmed_pop _
      dsimp only
      split
      · exact .on ((FrameIn.refl s).congr rfl rfl rfl) (keepsErrors_of_same rfl htrimmed)
      · exact .raised ⟨rfl, rfl, rfl, htrimmed, rfl⟩ (.resumed hop hback)
      · exact course_completeReturn _ ((FrameIn.refl s).congr rfl rfl rfl) rfl htrimmed.rethrows

/-- The step lemma. -/
theorem course_step : Course p s (step p limits s) := by
  obtain hstuck | ⟨ins, op, hcode, hdecoded, hstep⟩ := step_cases p limits s
  · rw [hstuck]
    exact .stuck
  have hop : s.op? p = some op := by simp [State.op?, hcode, hdecoded]
  have hsame : FrameIn (s.fetched op) s := (FrameIn.refl s).congr rfl rfl rfl
  rw [hstep]
  cases op with
  | halt => exact .returned rfl
  | jump =>
    exact .on (hsame.congr rfl rfl rfl) (keepsErrors_of_same rfl (Trimmed.refl _))
  | jumpIfFalse =>
    simp only [execute]
    cases hpop : (s.fetched .jumpIfFalse).pop? with
    | none => exact .stuck
    | some popped =>
      obtain ⟨v, s₁⟩ := popped
      have hpopped := popped_of_pop? hpop
      have hkeeps : KeepsErrors s s₁ :=
        keepsErrors_of_same (by rw [hpopped.world]; rfl) hpopped.control.trimmed
      simp only [Option.map_some]
      split
      · exact .on hpopped.control.frameIn hkeeps
      · exact .on (hpopped.control.frameIn.congr rfl rfl rfl) ⟨hkeeps.objects, hkeeps.pending⟩
  | call => exact course_call hcode hdecoded _
  | ret =>
    simp only [execute]
    cases hpop : (s.fetched .ret).pop? with
    | none => exact .stuck
    | some popped =>
      obtain ⟨v, s₁⟩ := popped
      have hpopped := popped_of_pop? hpop
      exact course_completeReturn v hpopped.control.frameIn (by rw [hpopped.world]; rfl)
        hpopped.control.trimmed.rethrows
  | pushTry => exact .on (hsame.congr rfl rfl rfl) (keepsErrors_of_same rfl (Trimmed.refl _))
  | popTry => exact course_popTry _
  | endFinally => exact course_endFinally hop
  | throw => exact course_throw hop
  | makeError => exact course_makeError _
  | _ => exact (calm_execute ins rfl (by simp) (by simp)).course

theorem raised_or_kept {s' : State} (hstep : step p limits s = some (.next s')) :
    (∃ t e, Amid s t ∧ Source p s e ∧ step p limits s = raise p t e ∧
        Delivered s (traced p t e) (.next s')) ∨
      KeepsErrors s s' ∧ (FrameIn s' s ∨ Called p s s') := by
  have hcourse : Course p s (step p limits s) := course_step
  generalize hresult : step p limits s = result at hcourse
  rw [hstep] at hresult
  cases hcourse with
  | stuck => cases hresult
  | @raised t e hamid hsource =>
    exact .inl ⟨t, e, hamid, hsource, rfl, hamid.delivered hresult.symm⟩
  | on hframe hkeeps =>
    cases hresult
    exact .inr ⟨hkeeps, .inl hframe⟩
  | called hcalled hkeeps =>
    cases hresult
    exact .inr ⟨hkeeps, .inr hcalled⟩
  | returned _ => cases hresult

theorem raised_of_failed {f : Finished} {e : ScriptError} (hstep : step p limits s = some (.done f))
    (hfailed : f.outcome = .failed e) :
    ∃ t e₀, Amid s t ∧ Source p s e₀ ∧ step p limits s = raise p t e₀ ∧ e = traced p t e₀ := by
  have hcourse : Course p s (step p limits s) := course_step
  generalize hresult : step p limits s = result at hcourse
  rw [hstep] at hresult
  cases hcourse with
  | stuck => cases hresult
  | on _ _ => cases hresult
  | called _ _ => cases hresult
  | returned hreturned =>
    cases hresult
    cases hfailed.symm.trans hreturned
  | @raised t e₀ hamid hsource =>
    cases hamid.delivered hresult.symm with
    | uncaught houtcome _ =>
      exact ⟨t, e₀, hamid, hsource, rfl,
        Outcome.failed.inj (hfailed.symm.trans houtcome)⟩

end course

end Machine
end ScriptMachine
