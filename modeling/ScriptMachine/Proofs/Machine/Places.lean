import ScriptMachine.Proofs.Compile.Lines
import ScriptMachine.Proofs.Machine.Safety
import ScriptMachine.Proofs.Meaning.Memory

namespace ScriptMachine

/-- A call in a trace without the place in the text. -/
def TraceFrame.unplaced (frame : TraceFrame) : TraceFrame := { frame with file := [], line := 0 }

abbrev ScriptError.unplaced : ScriptError → ScriptError :=
  ScriptError.retrace (List.map TraceFrame.unplaced)

abbrev Heap.unplaced : Heap → Heap := Heap.retrace (List.map TraceFrame.unplaced)

theorem unplaced_of_untraced {e : ScriptError} (h : e.untraced = e) : e.unplaced = e := by
  rw [← h]
  rfl

namespace Machine

def World.unplaced (w : World) : World := { w with heap := w.heap.unplaced }

def Completion.unplaced : Completion → Completion
  | .jump target => .jump target
  | .rethrow e => .rethrow e.unplaced
  | .result v => .result v

def Pending.unplaced (pending : Pending) : Pending :=
  { pending with completion := pending.completion.unplaced }

def State.unplaced (s : State) : State :=
  { s with pending := s.pending.map Pending.unplaced, world := s.world.unplaced }

def Outcome.unplaced : Outcome → Outcome
  | .returned v => .returned v
  | .failed e => .failed e.unplaced

def Finished.unplaced (f : Finished) : Finished :=
  { f with outcome := f.outcome.unplaced, world := f.world.unplaced }

def Progress.unplaced : Progress → Progress
  | .next s => .next s.unplaced
  | .done f => .done f.unplaced

def Run.unplaced : Run → Run
  | .finished f => .finished f.unplaced
  | .stuck => .stuck
  | .unfinished s => .unfinished s.unplaced

section state

variable (s : State)

@[simp] theorem heap_unplaced : s.unplaced.world.heap = s.world.heap.unplaced := rfl

@[simp] theorem files_unplaced : s.unplaced.world.files = s.world.files := rfl

@[simp] theorem stack_unplaced : s.unplaced.stack = s.stack := rfl

@[simp] theorem callers_unplaced : s.unplaced.callers = s.callers := rfl

@[simp] theorem guards_unplaced : s.unplaced.guards = s.guards := rfl

@[simp] theorem depth_unplaced : s.unplaced.depth = s.depth := rfl

theorem pushNew_unplaced {alloc alloc' : Heap → Value × Heap}
    (h : ∀ heap, alloc' heap.unplaced = ((alloc heap).1, (alloc heap).2.unplaced)) :
    s.unplaced.pushNew alloc' = (s.pushNew alloc).unplaced := by
  simp only [State.pushNew, heap_unplaced, h]
  rfl

theorem pop?_unplaced :
    s.unplaced.pop? = s.pop?.map fun popped => (popped.1, popped.2.unplaced) := by
  unfold State.pop?
  rw [stack_unplaced]
  cases s.stack.back? with
  | none => rfl
  | some v => rfl

theorem pop2?_unplaced : pop2? s.unplaced =
    (pop2? s).map fun popped => (popped.1, popped.2.1, popped.2.2.unplaced) := by
  simp only [pop2?, pop?_unplaced]
  cases s.pop? with
  | none => rfl
  | some first =>
    simp only [Option.map_some, Option.bind_eq_bind, Option.bind_some, pop?_unplaced]
    cases first.2.pop? with
    | none => rfl
    | some second => rfl

theorem backTo?_unplaced (position : Nat) :
    s.unplaced.backTo? position = (s.backTo? position).map State.unplaced := by
  unfold State.backTo?
  rw [callers_unplaced]
  split
  · rfl
  · cases s.callers[position]? with
    | none => rfl
    | some frame => rfl

theorem map_resize (f : α → β) (xs : Array α) (n : Nat) (fill : α) :
    (resize xs n fill).map f = resize (xs.map f) n (f fill) := by
  unfold resize
  rw [Array.size_map]
  split
  · apply Array.toList_inj.1
    simp
  · simp

theorem rewind?_unplaced (g : Guard) : rewind? s.unplaced g = (rewind? s g).map State.unplaced := by
  unfold rewind?
  rw [backTo?_unplaced]
  cases s.backTo? g.frame with
  | none => rfl
  | some s =>
    have hpending := map_resize Pending.unplaced s.pending g.pendingSize ⟨0, .jump 0⟩
    simp only [Option.map_some, State.unplaced, hpending]
    rfl

theorem popWhile_unplaced (xs : Array Pending) (position : Nat) :
    (xs.map Pending.unplaced).popWhile (fun pending => pending.frame == position) =
      (xs.popWhile fun pending => pending.frame == position).map Pending.unplaced := by
  obtain ⟨xs⟩ := xs
  have hsame : ((fun pending : Pending => pending.frame == position) ∘ Pending.unplaced) =
      fun pending => pending.frame == position := rfl
  rw [List.map_toArray, List.popWhile_toArray, List.popWhile_toArray, List.map_toArray,
    ← List.map_reverse, List.dropWhile_map, hsame, List.map_reverse]

end state

section transfers

variable (p : Program) (s : State)

theorem trace_unplaced :
    trace p.stripped s.unplaced = (trace p s).map TraceFrame.unplaced := by
  simp only [trace, List.map_map]
  rfl

theorem traced_unplaced (e : ScriptError) :
    traced p.stripped s.unplaced e.unplaced = (traced p s e).unplaced := by
  unfold traced
  rw [trace_unplaced, show e.unplaced.trace.isEmpty = e.trace.isEmpty from List.isEmpty_map]
  split
  · rfl
  · rfl

theorem unwind_unplaced (e : ScriptError) (guards : List Guard) :
    unwind p.stripped e.unplaced s.unplaced guards =
      (unwind p e s guards).map Progress.unplaced := by
  induction guards generalizing s with
  | nil => rfl
  | cons g outer ih =>
    -- filters are matched with the type name, which has no place in it
    have hclause (clauses : List CatchClause) :
        selectClause? p.stripped e.unplaced clauses = selectClause? p e clauses := rfl
    simp only [unwind, rewind?_unplaced, hclause, Program.tries_stripped]
    cases p.tries[g.table]? with
    | none => rfl
    | some t =>
      cases rewind? s g with
      | none => rfl
      | some s₁ =>
        simp only [Option.bind_eq_bind, Option.bind_some, Option.map_some]
        split
        · next clause _ =>
          let entered : State := { s₁ with guards := { g with phase := .handling } :: outer }
          have hpush : entered.unplaced.pushNew (·.newError e.unplaced) =
              (entered.pushNew (·.newError e)).unplaced :=
            pushNew_unplaced entered fun heap => heap.newError_retrace _ e
          exact congrArg (fun s => some (Progress.next (s.jump clause.handler.toInt.toNat))) hpush
        · simp only [Progress.unplaced, State.unplaced, State.jump, Array.map_push, Option.pure_def,
            Option.map_some]
          rfl
        · exact ih s₁

theorem raise_unplaced (e : ScriptError) :
    raise p.stripped s.unplaced e.unplaced = (raise p s e).map Progress.unplaced := by
  unfold raise
  rw [traced_unplaced]
  exact unwind_unplaced p s _ _

theorem raise_fresh {e : ScriptError} (h : e.untraced = e) :
    raise p.stripped s.unplaced e = (raise p s e).map Progress.unplaced := by
  have hraise := raise_unplaced p s e
  rwa [unplaced_of_untraced h] at hraise

theorem raise_make (kind : ErrorKind) (message : Text) :
    raise p.stripped s.unplaced (.make kind message) =
      (raise p s (.make kind message)).map Progress.unplaced := raise_fresh p s rfl

theorem leaveFrame_unplaced (v : Value) :
    leaveFrame s.unplaced v = (leaveFrame s v).unplaced := by
  unfold leaveFrame
  rw [callers_unplaced]
  cases s.callers.back? with
  | none => rfl
  | some frame => rfl

theorem returnThrough_unplaced (v : Value) (guards : List Guard) :
    returnThrough p.stripped v s.unplaced guards =
      (returnThrough p v s guards).map Progress.unplaced := by
  induction guards with
  | nil => exact congrArg some (leaveFrame_unplaced { s with guards := [] } v)
  | cons g outer ih =>
    unfold returnThrough
    rw [depth_unplaced, Program.tries_stripped]
    split
    · exact congrArg some (leaveFrame_unplaced { s with guards := g :: outer } v)
    · cases p.tries[g.table]? with
      | none => rfl
      | some t =>
        simp only
        cases t.cleanup? with
        | none => exact ih
        | some address =>
          simp only [Progress.unplaced, State.unplaced, State.jump, Array.map_push, Option.map_some]
          rfl

theorem completeReturn_unplaced (v : Value) :
    completeReturn p.stripped s.unplaced v = (completeReturn p s v).map Progress.unplaced := by
  unfold completeReturn
  have hpending := popWhile_unplaced s.pending s.depth
  have hreturn := returnThrough_unplaced p
    { s with pending := s.pending.popWhile fun pending => pending.frame == s.depth } v s.guards
  rw [← hreturn]
  simp only [State.unplaced, ← hpending]
  rfl

theorem frameStack?_stripped (f : Function) (base argc : Nat) (stack : Array Value) :
    frameStack? p.stripped f base argc stack = frameStack? p f base argc stack := rfl

theorem call_unplaced (limits : Limits) (index argc : Nat) :
    call p.stripped limits s.unplaced index argc =
      (call p limits s index argc).map Progress.unplaced := by
  unfold call
  rw [Program.functions_stripped, depth_unplaced, stack_unplaced]
  cases p.functions[index]? with
  | none => rfl
  | some f =>
    simp only [Option.bind_eq_bind, Option.bind_some]
    cases hrefusal : refusal? limits f (s.depth + 1) (s.stack.size - argc) argc with
    | some e => exact raise_fresh p s (refusal?_untraced hrefusal)
    | none =>
      simp only [frameStack?_stripped]
      cases frameStack? p f (s.stack.size - argc) argc s.stack with
      | none => rfl
      | some stack => rfl

end transfers

section instructions

variable {p : Program} {s : State}

theorem bind_pop?_unplaced {k k' : Value × State → Option Progress}
    (h : ∀ v s, k' (v, s.unplaced) = (k (v, s)).map Progress.unplaced) :
    s.unplaced.pop? >>= k' = (s.pop? >>= k).map Progress.unplaced := by
  rw [pop?_unplaced]
  cases s.pop? with
  | none => rfl
  | some popped => exact h popped.1 popped.2

theorem bind_pop2?_unplaced {k k' : Value × Value × State → Option Progress}
    (h : ∀ l r s, k' (l, r, s.unplaced) = (k (l, r, s)).map Progress.unplaced) :
    pop2? s.unplaced >>= k' = (pop2? s >>= k).map Progress.unplaced := by
  rw [pop2?_unplaced]
  cases pop2? s with
  | none => rfl
  | some popped => exact h popped.1 popped.2.1 popped.2.2

theorem bind_unplaced {x : Option α} {k k' : α → Option Progress}
    (h : ∀ a, k' a = (k a).map Progress.unplaced) : x >>= k' = (x >>= k).map Progress.unplaced := by
  cases x with
  | none => rfl
  | some a => exact h a

theorem settle_unplaced {r : Except ScriptError Value} (h : Fresh r) :
    settle p.stripped s.unplaced r = (settle p s r).map Progress.unplaced := by
  cases r with
  | ok v => rfl
  | error e => exact raise_fresh p s (h e rfl)

theorem unary_unplaced {f : Heap → Value → Except ScriptError Value}
    (hf : ∀ h v, f h.unplaced v = f h v) (hfresh : ∀ h v, Fresh (f h v)) :
    unary p.stripped s.unplaced f = (unary p s f).map Progress.unplaced := by
  apply bind_pop?_unplaced
  intro v s
  dsimp only
  rw [heap_unplaced, hf]
  exact settle_unplaced (hfresh _ _)

theorem binary_unplaced {f : Heap → Value → Value → Except ScriptError Value}
    (hf : ∀ h l r, f h.unplaced l r = f h l r) (hfresh : ∀ h l r, Fresh (f h l r)) :
    binary p.stripped s.unplaced f = (binary p s f).map Progress.unplaced := by
  apply bind_pop2?_unplaced
  intro l r s
  dsimp only
  rw [heap_unplaced, hf]
  exact settle_unplaced (hfresh _ _ _)

theorem errorText_unplaced {text : ScriptError → Text} (htext : ∀ e, text e.unplaced = text e) :
    unary p.stripped s.unplaced (fun h v => (h.expectError v).map fun e => .string (text e)) =
      (unary p s fun h v => (h.expectError v).map fun e =>
        .string (text e)).map Progress.unplaced := by
  apply unary_unplaced
  · intro h v
    simp only [h.expectError_retrace (List.map TraceFrame.unplaced) rfl]
    cases h.expectError v with
    | error e => rfl
    | ok e => exact congrArg (fun t => Except.ok (Value.string t)) (htext e)
  · exact fun h v => (h.fresh_expectError v).map _

theorem loadGlobal_unplaced (index : Nat) :
    loadGlobal p.stripped s.unplaced index = (loadGlobal p s index).map Progress.unplaced := by
  apply bind_unplaced
  intro value?
  cases value? with
  | some v => rfl
  | none => exact bind_unplaced fun name => raise_make p s _ _

theorem storeGlobal_unplaced (index : Nat) :
    storeGlobal s.unplaced index = (storeGlobal s index).map Progress.unplaced := by
  apply bind_pop?_unplaced
  intro v s
  dsimp only
  show (if index < (s.world.globals.setIfInBounds index (some v)).size then _ else _) = _
  split
  · rfl
  · rfl

theorem storeLocal_unplaced (slot : Nat) :
    storeLocal s.unplaced slot = (storeLocal s slot).map Progress.unplaced := by
  apply bind_pop?_unplaced
  intro v s
  dsimp only
  show (if s.frame.base + slot < s.stack.size then _ else _) = _
  split
  · rfl
  · rfl

theorem add_unplaced : add p.stripped s.unplaced = (add p s).map Progress.unplaced := by
  apply bind_pop2?_unplaced
  intro l r s
  have hadd := s.world.heap.add_retrace (List.map TraceFrame.unplaced) rfl l r
  have hfresh := s.world.heap.fresh_add l r
  dsimp only
  rw [heap_unplaced, hadd]
  cases hresult : s.world.heap.add l r with
  | ok result => rfl
  | error e => exact raise_fresh p s (hfresh e hresult)

theorem makeList_unplaced (count : Nat) :
    makeList s.unplaced count = (makeList s count).map Progress.unplaced := by
  unfold makeList
  show (if count ≤ s.stack.size then _ else _) = _
  split
  · rfl
  · rfl

theorem makeDict_unplaced (count : Nat) :
    makeDict p.stripped s.unplaced count = (makeDict p s count).map Progress.unplaced := by
  unfold makeDict
  show (if count * 2 ≤ s.stack.size then _ else _) = _
  split
  · have hfresh := fresh_pairUp (s.stack.extract (s.stack.size - count * 2) s.stack.size).toList
    rw [stack_unplaced]
    cases hpairs : pairUp (s.stack.extract (s.stack.size - count * 2) s.stack.size).toList with
    | ok pairs =>
      simp only [hpairs]
      rfl
    | error e =>
      simp only [hpairs]
      exact raise_fresh p { s with stack := s.stack.shrink (s.stack.size - count * 2) }
        (hfresh e hpairs)
  · rfl

theorem indexSet_unplaced : indexSet p.stripped s.unplaced =
    (indexSet p s).map Progress.unplaced := by
  apply bind_pop?_unplaced
  intro v s
  apply bind_pop2?_unplaced
  intro collection index s
  have hset := s.world.heap.indexSet_retrace (List.map TraceFrame.unplaced) rfl collection index v
  have hfresh := s.world.heap.fresh_indexSet collection index v
  dsimp only
  rw [heap_unplaced, hset]
  cases hresult : s.world.heap.indexSet collection index v with
  | ok heap => rfl
  | error e => exact raise_fresh p s (hfresh e hresult)

theorem popTry_unplaced (target : Nat) :
    popTry p.stripped s.unplaced target = (popTry p s target).map Progress.unplaced := by
  have hrefused := raise_make p s .runtime "Internal error: no active try block to leave"
  unfold popTry
  simp only [hrefused, guards_unplaced, depth_unplaced, Program.tries_stripped]
  cases s.guards with
  | nil => rfl
  | cons g outer =>
    dsimp only
    split
    · rfl
    · cases p.tries[g.table]? with
      | none => rfl
      | some t =>
        dsimp only
        cases t.cleanup? with
        | none => rfl
        | some address =>
          simp only [Progress.unplaced, State.unplaced, State.jump, Array.map_push, Option.map_some]
          rfl

theorem endFinally_unplaced :
    endFinally p.stripped s.unplaced = (endFinally p s).map Progress.unplaced := by
  have hrefused := raise_make p s .runtime "Internal error: finally block has nothing to resume"
  have hback : s.unplaced.pending.back? = s.pending.back?.map Pending.unplaced := by
    simp [State.unplaced]
  unfold endFinally
  simp only [hrefused, hback, depth_unplaced]
  cases s.pending.back? with
  | none => rfl
  | some pending =>
    obtain ⟨frame, completion⟩ := pending
    have hpop : { s.unplaced with pending := s.unplaced.pending.pop } =
        State.unplaced { s with pending := s.pending.pop } := by
      simp [State.unplaced]
    simp only [Option.map_some, hpop,
      show (Pending.unplaced ⟨frame, completion⟩).frame = frame from rfl]
    split
    · rfl
    · cases completion with
      | jump target => rfl
      | rethrow e =>
        -- an error that has waited has its trace already
        exact raise_unplaced p _ e
      | result v => exact completeReturn_unplaced p _ v

theorem throw_unplaced : throw p.stripped s.unplaced = (throw p s).map Progress.unplaced := by
  apply bind_pop?_unplaced
  intro v s
  cases v with
  | error r =>
    dsimp only
    rw [heap_unplaced, Heap.error_retrace _ _ rfl]
    exact raise_unplaced p s _
  | _ =>
    dsimp only
    rw [heap_unplaced, Heap.display_retrace _ _ rfl]
    exact raise_make p s _ _

theorem makeError_unplaced (index : Nat) :
    makeError p.stripped s.unplaced index = (makeError p s index).map Progress.unplaced := by
  apply bind_unplaced
  intro c
  apply bind_pop?_unplaced
  intro v s
  dsimp only
  rw [heap_unplaced, Heap.display_retrace _ _ rfl]
  let e := ScriptError.ofTypeName c.text (s.world.heap.display v)
  have hpush : s.unplaced.pushNew (·.newError e) = (s.pushNew (·.newError e)).unplaced :=
    pushNew_unplaced s fun heap => heap.newError_retrace _ e
  exact congrArg (fun s => some (Progress.next s)) hpush

theorem print_unplaced : print s.unplaced = (print s).map Progress.unplaced := by
  apply bind_pop?_unplaced
  intro v s
  dsimp only
  rw [heap_unplaced, Heap.display_retrace _ _ rfl]
  rfl

theorem readFile_unplaced : readFile p.stripped s.unplaced =
    (readFile p s).map Progress.unplaced := by
  apply bind_pop?_unplaced
  intro path s
  cases path with
  | string path =>
    dsimp only
    rw [files_unplaced]
    cases s.world.files.read? path with
    | some content => rfl
    | none => exact raise_fresh p s rfl
  | _ => exact raise_fresh p s rfl

theorem writeFile_unplaced :
    writeFile p.stripped s.unplaced = (writeFile p s).map Progress.unplaced := by
  apply bind_pop2?_unplaced
  intro content path s
  cases path with
  | string path =>
    dsimp only
    rw [files_unplaced, heap_unplaced, Heap.display_retrace _ _ rfl]
    cases s.world.files.write? path (s.world.heap.display content) with
    | some files => rfl
    | none => exact raise_fresh p s rfl
  | _ => exact raise_fresh p s rfl

end instructions

theorem execute_unplaced (p : Program) (limits : Limits) (s : State) (op : Opcode)
    (ins : Instruction) : execute p.stripped limits s.unplaced op ins =
      (execute p limits s op ins).map Progress.unplaced := by
  cases op with
  | loadConst =>
    simp only [execute, Option.map_map]
    rfl
  | loadLocal =>
    simp only [execute, Option.map_map]
    rfl
  | storeLocal => exact storeLocal_unplaced _
  | loadGlobal => exact loadGlobal_unplaced _
  | storeGlobal => exact storeGlobal_unplaced _
  | add => exact add_unplaced
  | sub | mul | div | mod => exact binary_unplaced (fun _ _ _ => rfl) fun _ => fresh_arithmetic _
  | less | lessEqual | greater | greaterEqual =>
    exact binary_unplaced (fun _ _ _ => rfl) fun _ => fresh_order _
  | equal | notEqual =>
    simp only [execute]
    apply binary_unplaced
    · intro h l r
      simp only [h.equal_retrace]
    · exact fun _ _ _ => fresh_ok _
  | negate => exact unary_unplaced (fun _ _ => rfl) fun _ => fresh_negate
  | not =>
    simp only [execute]
    apply unary_unplaced
    · intro h v
      simp only [h.truthy_retrace]
    · exact fun _ _ => fresh_ok _
  | jump => rfl
  | jumpIfFalse =>
    simp only [execute, pop?_unplaced, Option.map_map]
    congr 1
    funext popped
    have htest := popped.2.world.heap.truthy_retrace (List.map TraceFrame.unplaced) popped.1
    simp only [Function.comp_apply, heap_unplaced, htest]
    split
    · rfl
    · rfl
  | pop =>
    simp only [execute, pop?_unplaced, Option.map_map]
    rfl
  | call => exact call_unplaced p s limits _ _
  | ret => exact bind_pop?_unplaced fun v s => completeReturn_unplaced p s v
  | makeList => exact makeList_unplaced _
  | makeDict => exact makeDict_unplaced _
  | indexGet => exact binary_unplaced (fun h => h.indexGet_retrace _ rfl) fun h => h.fresh_indexGet
  | indexSet => exact indexSet_unplaced
  | pushTry =>
    simp only [execute, pushTry, Option.map_some, Progress.unplaced, State.unplaced, Array.size_map]
    rfl
  | popTry => exact popTry_unplaced _
  | endFinally => exact endFinally_unplaced
  | throw => exact throw_unplaced
  | makeError => exact makeError_unplaced _
  | errorMessage => exact errorText_unplaced fun _ => rfl
  | errorType => exact errorText_unplaced fun _ => rfl
  | print => exact print_unplaced
  | input => rfl
  | readFile => exact readFile_unplaced
  | writeFile => exact writeFile_unplaced
  | halt => rfl

/-- The step lemma: executions with debug information and without go in step. -/
theorem step_unplaced (p : Program) (limits : Limits) (s : State) :
    step p.stripped limits s.unplaced = (step p limits s).map Progress.unplaced := by
  apply bind_unplaced
  intro ins
  apply bind_unplaced
  intro op
  exact execute_unplaced p limits (s.fetched op) op ins

/-- The run lemma. -/
theorem run_unplaced (p : Program) (limits : Limits) (n : Nat) (s : State) :
    run p.stripped limits n s.unplaced = (run p limits n s).unplaced := by
  induction n generalizing s with
  | zero => rfl
  | succ n ih =>
    simp only [run, step_unplaced]
    cases step p limits s with
    | none => rfl
    | some progress =>
      cases progress with
      | done f => rfl
      | next s' => exact ih s'

theorem start_unplaced (p : Program) (limits : Limits) (w : World) (f : Function) (index : Nat)
    (args : List Value) : start p.stripped limits w.unplaced f index args =
      (start p limits w f index args).map Progress.unplaced := by
  unfold start
  cases hrefusal : refusal? limits f 0 0 args.length with
  | some e =>
    have he := unplaced_of_untraced (refusal?_untraced hrefusal)
    simp only [Option.map_some, Progress.unplaced, Finished.unplaced, Outcome.unplaced, he]
  | none =>
    simp only [frameStack?_stripped]
    cases frameStack? p f 0 args.length args.toArray with
    | none => rfl
    | some stack => simp [Progress.unplaced, State.unplaced]

theorem invoke_unplaced (p : Program) (limits : Limits) (w : World) (n index : Nat)
    (args : List Value) : (Machine.mk p.stripped limits w.unplaced).invoke n index args =
      ((Machine.mk p limits w).invoke n index args).map Run.unplaced := by
  unfold invoke
  have hstart (f : Function) := start_unplaced p limits { w with output := #[] } f index args
  simp only [Program.functions_stripped]
  cases p.functions[index]? with
  | none => rfl
  | some f =>
    dsimp only
    rw [show { w.unplaced with output := #[] } = World.unplaced { w with output := #[] } from rfl,
      hstart]
    cases start p limits { w with output := #[] } f index args with
    | none => rfl
    | some progress =>
      cases progress with
      | done finished => rfl
      | next s => exact congrArg Except.ok (run_unplaced p limits n s)

end Machine

/-- Debug information does not change behaviour. Trees that differ in their lines only, one compiled
with debug information and one without, both fail with one error, or come to programs that differ in
debug information only; and executions of these from worlds that differ in the places of errors only
do too. -/
theorem compile_placeless (options : Compile.Options) (tree tree' : List Stmt)
    (h : unlinedBlock tree = unlinedBlock tree') :
    match compile { options with debug := true } tree,
    compile { options with debug := false } tree' with
    | .error e, .error e' => e = e'
    | .ok p, .ok q => q = { p with debug := none } ∧
      ∀ limits w w', w.unplaced = w'.unplaced → ∀ n index args,
        ((Machine.mk p limits w).invoke n index args).map Machine.Run.unplaced =
          ((Machine.mk q limits w').invoke n index args).map Machine.Run.unplaced
    | _, _ => False := by
  have hcompile : compile { options with debug := false } tree' =
      (compile { options with debug := true } tree).map Program.stripped :=
    compile_lines { options with debug := true } h
  rw [hcompile]
  cases compile { options with debug := true } tree with
  | error e => rfl
  | ok p =>
    refine ⟨rfl, fun limits w w' hw n index args => ?_⟩
    have hdebug := Machine.invoke_unplaced p limits w n index args
    have hplain := Machine.invoke_unplaced p.stripped limits w' n index args
    rw [← hdebug, ← hplain, hw]
    rfl

def thrown (line : Nat) : List Stmt := [.mk line (.throw (.string "boom"))]

theorem compile_placeless_thrown : unlinedBlock (thrown 7) = unlinedBlock (thrown 9) ∧
    ∃ p q, compile { debug := true } (thrown 7) = .ok p ∧
      compile { debug := false } (thrown 9) = .ok q ∧
      p.debug.isSome ∧ q = { p with debug := none } ∧ ∀ n,
        ((Machine.mk p {} {}).invoke n 0 []).map Machine.Run.unplaced =
          ((Machine.mk q {} {}).invoke n 0 []).map Machine.Run.unplaced := by
  have hlines : unlinedBlock (thrown 7) = unlinedBlock (thrown 9) := rfl
  have hdebug : ∃ p ∈ (compile { debug := true } (thrown 7)).toOption, p.debug.isSome := by
    decide +kernel
  have hplaceless := compile_placeless {} (thrown 7) (thrown 9) hlines
  obtain ⟨p, hp, hsome⟩ := hdebug
  rw [Machine.eq_ok_of_toOption hp] at hplaceless
  cases hq : compile { debug := false } (thrown 9) with
  | error e =>
    rw [hq] at hplaceless
    exact hplaceless.elim
  | ok q =>
    rw [hq] at hplaceless
    obtain ⟨hstripped, hruns⟩ := hplaceless
    exact ⟨hlines, p, q, Machine.eq_ok_of_toOption hp, rfl, hsome, hstripped,
      fun n => hruns {} {} {} rfl n 0 []⟩

end ScriptMachine
