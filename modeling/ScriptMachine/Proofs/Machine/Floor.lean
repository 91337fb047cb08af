import ScriptMachine.Proofs.Machine.Safety

namespace ScriptMachine
namespace Machine
open Verify

theorem shrink_append (xs ys : Array α) (n : Nat) :
    (xs ++ ys).shrink (xs.size + n) = xs ++ ys.shrink n := by
  apply Array.ext'
  simp [List.take_of_length_le]

/-- What is below the frame of a function that has been called. -/
structure Floor where
  stack : Array Value
  caller : Frame
  callers : Array Frame
  pending : Array Pending
  /-- The completions wait in frames of the floor. -/
  pending_lt : ∀ q ∈ pending, q.frame < callers.size + 1

namespace Floor

def depth (F : Floor) : Nat := F.callers.size + 1

def frame (F : Floor) (x : Frame) : Frame := { x with base := F.stack.size + x.base }

def guard (F : Floor) (g : Guard) : Guard :=
  { g with
    frame := F.depth + g.frame
    stackSize := F.stack.size + g.stackSize
    pendingSize := F.pending.size + g.pendingSize }

def completion (F : Floor) (q : Pending) : Pending := { q with frame := F.depth + q.frame }

/-- A state put on the floor, inside of further guards. -/
def lift (F : Floor) (outer : List Guard) (stats : Option Stats) (s : State) : State where
  stack := F.stack ++ s.stack
  frame := F.frame s.frame
  callers := F.callers.push F.caller ++ s.callers.map F.frame
  guards := s.guards.map F.guard ++ outer
  pending := F.pending ++ s.pending.map F.completion
  world := s.world
  stats := stats

/-- The state of the callers when the result has come. -/
def returned (F : Floor) (outer : List Guard) (stats : Option Stats) (v : Value) (w : World) :
    State where
  stack := F.stack.push v
  frame := F.caller
  callers := F.callers
  guards := outer
  pending := F.pending
  world := w
  stats := stats

section

variable (F : Floor) (outer : List Guard) (stats : Option Stats) (s : State)

@[simp] theorem world_lift : (F.lift outer stats s).world = s.world := rfl

@[simp] theorem stack_lift : (F.lift outer stats s).stack = F.stack ++ s.stack := rfl

@[simp] theorem frame_lift : (F.lift outer stats s).frame = F.frame s.frame := rfl

@[simp] theorem guards_lift : (F.lift outer stats s).guards = s.guards.map F.guard ++ outer := rfl

theorem pending_lift :
    (F.lift outer stats s).pending = F.pending ++ s.pending.map F.completion := rfl

@[simp] theorem depth_lift : (F.lift outer stats s).depth = F.depth + s.depth := by
  simp [lift, State.depth, depth]

theorem fetched_lift (op : Opcode) :
    ∃ stats', (F.lift outer stats s).fetched op = F.lift outer stats' (s.fetched op) := ⟨_, rfl⟩

@[simp] theorem jump_lift (target : Nat) :
    (F.lift outer stats s).jump target = F.lift outer stats (s.jump target) := rfl

@[simp] theorem setHeap_lift (h : Heap) :
    (F.lift outer stats s).setHeap h = F.lift outer stats (s.setHeap h) := (rfl)

@[simp] theorem print_lift (t : Text) :
    (F.lift outer stats s).print t = F.lift outer stats (s.print t) := (rfl)

@[simp] theorem push_lift (v : Value) :
    (F.lift outer stats s).push v = F.lift outer stats (s.push v) := by
  simp [lift, State.push]

@[simp] theorem pushNew_lift (alloc : Heap → Value × Heap) :
    (F.lift outer stats s).pushNew alloc = F.lift outer stats (s.pushNew alloc) := by
  simp [lift, State.pushNew]

end

theorem pop?_lift (F : Floor) (outer : List Guard) (stats : Option Stats) {s s' : State} {v : Value}
    (h : s.pop? = some (v, s')) :
    (F.lift outer stats s).pop? = some (v, F.lift outer stats s') := by
  unfold State.pop? at h
  cases hback : s.stack.back? with
  | none => simp [hback] at h
  | some v' =>
    have hne : s.stack ≠ #[] := by
      intro hnil
      simp [hnil] at hback
    rw [hback] at h
    cases h
    simp [State.pop?, hback, lift, hne]

theorem pop2?_lift (F : Floor) (outer : List Guard) (stats : Option Stats) {s s' : State}
    {l r : Value} (h : pop2? s = some (l, r, s')) :
    pop2? (F.lift outer stats s) = some (l, r, F.lift outer stats s') := by
  simp only [pop2?, Option.bind_eq_bind, Option.bind_eq_some_iff, Prod.exists] at h
  obtain ⟨r', s₁, hr, l', s₂, hl, heq⟩ := h
  cases heq
  simp [pop2?, F.pop?_lift outer stats hr, F.pop?_lift outer stats hl]

theorem getElem?_lift (F : Floor) (outer : List Guard) (stats : Option Stats) (s : State)
    (i : Nat) : (F.lift outer stats s).stack[(F.frame s.frame).base + i]? =
    s.stack[s.frame.base + i]? := by
  rw [stack_lift, Array.getElem?_append_right (by simp only [frame]; omega)]
  congr 1
  simp only [frame]
  omega

end Floor

/-- What an instruction does to a state, on whatever floor and inside of whatever guards. -/
inductive Acts (p : Program) (s : State) (act : State → Option Progress) : Prop
  | next (s' : State) : act s = some (.next s') →
      (∀ F outer stats, act (Floor.lift F outer stats s) =
        some (.next (Floor.lift F outer stats s'))) → Acts p s act
  | raise (s' : State) (e : ScriptError) : SameControl s s' → s.frame.base ≤ s'.stack.size →
      (∀ F outer stats, act (Floor.lift F outer stats s) =
        raise p (Floor.lift F outer stats s') e) → Acts p s act

section

variable {p : Program} {s : State}

theorem acts_push (v : Value) : Acts p s fun s => some (.next (s.push v)) :=
  .next (s.push v) rfl fun F outer stats => by rw [F.push_lift]

theorem acts_unary (f : Heap → Value → Except ScriptError Value)
    (h : s.frame.base + 1 ≤ s.stack.size) : Acts p s fun s => unary p s f := by
  obtain ⟨v, s₁, hpop, htaken⟩ := taken_pop (s := s) (by omega)
  have hsize := htaken.size
  cases hf : f s₁.world.heap v with
  | ok r =>
    exact .next (s₁.push r) (by simp [unary, hpop, hf, settle]) fun F outer stats => by
      simp [unary, F.pop?_lift outer stats hpop, hf, settle]
  | error e =>
    exact .raise s₁ e htaken.control (by omega) fun F outer stats => by
      simp [unary, F.pop?_lift outer stats hpop, hf, settle]

theorem acts_binary (f : Heap → Value → Value → Except ScriptError Value)
    (h : s.frame.base + 2 ≤ s.stack.size) : Acts p s fun s => binary p s f := by
  obtain ⟨l, r, s₁, hpop, htaken⟩ := taken_pop2 (s := s) (by omega)
  have hsize := htaken.size
  cases hf : f s₁.world.heap l r with
  | ok v =>
    exact .next (s₁.push v) (by simp [binary, hpop, hf, settle]) fun F outer stats => by
      simp [binary, F.pop2?_lift outer stats hpop, hf, settle]
  | error e =>
    exact .raise s₁ e htaken.control (by omega) fun F outer stats => by
      simp [binary, F.pop2?_lift outer stats hpop, hf, settle]

theorem acts_add (h : s.frame.base + 2 ≤ s.stack.size) : Acts p s (add p) := by
  obtain ⟨l, r, s₁, hpop, htaken⟩ := taken_pop2 (s := s) (by omega)
  have hsize := htaken.size
  cases hadd : s₁.world.heap.add l r with
  | ok result =>
    exact .next ((s₁.setHeap result.2).push result.1) (by simp [add, hpop, hadd])
      fun F outer stats => by simp [add, F.pop2?_lift outer stats hpop, hadd]
  | error e =>
    exact .raise s₁ e htaken.control (by omega) fun F outer stats => by
      simp [add, F.pop2?_lift outer stats hpop, hadd]

theorem acts_loadLocal {slot : Nat} (h : s.frame.base + slot < s.stack.size) :
    Acts p s fun s => (s.stack[s.frame.base + slot]?).map fun v => .next (s.push v) := by
  have hv := Array.getElem?_eq_getElem h
  refine .next (s.push s.stack[s.frame.base + slot]) (by simp [hv]) fun F outer stats => ?_
  rw [F.frame_lift, F.getElem?_lift, hv, Option.map_some, F.push_lift]

theorem acts_storeLocal {slot : Nat} (h : s.frame.base + slot + 1 < s.stack.size) :
    Acts p s fun s => storeLocal s slot := by
  obtain ⟨v, s₁, hpop, htaken⟩ := taken_pop (s := s) (by omega)
  have hsize := htaken.size
  have hplace : s₁.frame.base + slot < s₁.stack.size := by
    rw [htaken.control.frame]
    omega
  refine .next { s₁ with stack := s₁.stack.setIfInBounds (s₁.frame.base + slot) v }
    (by simp [storeLocal, hpop, hplace]) fun F outer stats => ?_
  have hset : (F.stack ++ s₁.stack).setIfInBounds (F.stack.size + s₁.frame.base + slot) v =
      F.stack ++ s₁.stack.setIfInBounds (s₁.frame.base + slot) v := by
    rw [Array.setIfInBounds_append_right (by omega)]
    congr 2
    omega
  simp only [storeLocal, F.pop?_lift outer stats hpop, Option.bind_eq_bind, Option.bind_some,
    F.frame_lift, F.stack_lift, Array.size_append]
  rw [if_pos (by simp only [Floor.frame]; omega)]
  simp [Floor.lift, Floor.frame, hset]

theorem acts_loadGlobal {index : Nat} (h : index < p.globals.size)
    (hglobals : s.world.globals.size = p.globals.size) (hbase : s.frame.base ≤ s.stack.size) :
    Acts p s fun s => loadGlobal p s index := by
  have hvalue := Array.getElem?_eq_getElem (show index < s.world.globals.size by omega)
  have hname := Array.getElem?_eq_getElem h
  cases hv : s.world.globals[index] with
  | some v =>
    rw [hv] at hvalue
    exact .next (s.push v) (by simp [loadGlobal, hvalue]) fun F outer stats => by
      simp [loadGlobal, hvalue]
  | none =>
    rw [hv] at hvalue
    refine .raise s (.make .undefinedReference
      (Text.concat ["Variable '", p.globals[index], "' is not defined"]))
      (SameControl.refl s) hbase ?_
    intro F outer stats
    simp only [loadGlobal, F.world_lift, hvalue, hname, Option.bind_eq_bind, Option.bind_some]

theorem acts_storeGlobal {index : Nat} (h : index < s.world.globals.size)
    (hsize : 1 ≤ s.stack.size) : Acts p s fun s => storeGlobal s index := by
  obtain ⟨v, s₁, hpop, htaken⟩ := taken_pop hsize
  have hlt : index < s₁.world.globals.size := by rwa [htaken.world]
  exact .next { s₁ with world := { s₁.world with
      globals := s₁.world.globals.setIfInBounds index (some v) } }
    (by simp [storeGlobal, hpop, hlt]) fun F outer stats => by
      simp [storeGlobal, F.pop?_lift outer stats hpop, hlt]
      rfl

theorem Floor.split_lift (F : Floor) (outer : List Guard) (stats : Option Stats) {n : Nat}
    (h : n ≤ s.stack.size) :
    let t := F.lift outer stats s
    n ≤ t.stack.size ∧ t.stack.extract (t.stack.size - n) t.stack.size =
        s.stack.extract (s.stack.size - n) s.stack.size ∧
      { t with stack := t.stack.shrink (t.stack.size - n) } =
        F.lift outer stats { s with stack := s.stack.shrink (s.stack.size - n) } := by
  have hsize : F.stack.size + s.stack.size - n = F.stack.size + (s.stack.size - n) := by omega
  refine ⟨by simp; omega, ?_, ?_⟩
  · simp only [F.stack_lift, Array.size_append, hsize, Array.extract_append]
    rw [Array.extract_empty_of_size_le_start (by omega)]
    simp
  · simp only [F.stack_lift, Array.size_append, hsize, shrink_append]
    rfl

theorem acts_makeList {count : Nat} (h : count ≤ s.stack.size) :
    Acts p s fun s => makeList s count := by
  refine .next _ (by unfold makeList; rw [if_pos h]) fun F outer stats => ?_
  obtain ⟨hle, hitems, hrest⟩ := F.split_lift outer stats h
  simp only [makeList]
  rw [if_pos hle, hitems, hrest, F.pushNew_lift]

theorem acts_makeDict {count : Nat} (h : s.frame.base + count * 2 ≤ s.stack.size) :
    Acts p s fun s => makeDict p s count := by
  have hle : count * 2 ≤ s.stack.size := by omega
  cases hpairs : pairUp (s.stack.extract (s.stack.size - count * 2) s.stack.size).toList with
  | ok pairs =>
    refine .next (State.pushNew { s with stack := s.stack.shrink (s.stack.size - count * 2) }
      (·.newDict (Dict.ofPairs pairs)))
      (by simp only [makeDict]; rw [if_pos hle]; simp only [hpairs])
      fun F outer stats => ?_
    obtain ⟨hle', hitems, hrest⟩ := F.split_lift outer stats hle
    simp only [makeDict]
    rw [if_pos hle', hitems, hrest]
    simp only [hpairs, F.pushNew_lift]
  | error e =>
    refine .raise { s with stack := s.stack.shrink (s.stack.size - count * 2) } e
      (taken_shrink hle).control (by simp; omega) fun F outer stats => ?_
    obtain ⟨hle', hitems, hrest⟩ := F.split_lift outer stats hle
    simp only [makeDict]
    rw [if_pos hle', hitems, hrest]
    simp only [hpairs]

theorem acts_indexSet (h : s.frame.base + 3 ≤ s.stack.size) : Acts p s (indexSet p) := by
  obtain ⟨v, s₁, hpop, htaken⟩ := taken_pop (s := s) (by omega)
  obtain ⟨l, r, s₂, hpop2, htaken2⟩ := taken_pop2 (s := s₁) (by have := htaken.size; omega)
  have hboth := htaken.trans htaken2
  have hsize := hboth.size
  cases hset : s₂.world.heap.indexSet l r v with
  | ok heap =>
    exact .next (s₂.setHeap heap) (by simp [indexSet, hpop, hpop2, hset]) fun F outer stats => by
      simp [indexSet, F.pop?_lift outer stats hpop, F.pop2?_lift outer stats hpop2, hset]
  | error e =>
    exact .raise s₂ e hboth.control (by omega) fun F outer stats => by
      simp [indexSet, F.pop?_lift outer stats hpop, F.pop2?_lift outer stats hpop2, hset]

theorem acts_throw (h : s.frame.base + 1 ≤ s.stack.size) : Acts p s (throw p) := by
  obtain ⟨v, s₁, hpop, htaken⟩ := taken_pop (s := s) (by omega)
  have hsize := htaken.size
  cases hv : v with
  | error r =>
    exact .raise s₁ (s₁.world.heap.error r) htaken.control (by omega) fun F outer stats => by
      simp [throw, F.pop?_lift outer stats hpop, hv]
  | _ =>
    exact .raise s₁ (.make .runtime (s₁.world.heap.display v)) htaken.control (by omega)
      fun F outer stats => by simp [throw, F.pop?_lift outer stats hpop, hv]

theorem acts_makeError {index : Nat} (hindex : index < p.constants.size)
    (h : 1 ≤ s.stack.size) : Acts p s fun s => makeError p s index := by
  obtain ⟨v, s₁, hpop, htaken⟩ := taken_pop h
  have hc := Array.getElem?_eq_getElem hindex
  exact .next
    (s₁.pushNew (·.newError (.ofTypeName p.constants[index].text (s₁.world.heap.display v))))
    (by simp [makeError, hc, hpop]) fun F outer stats => by
      simp [makeError, hc, F.pop?_lift outer stats hpop]

theorem acts_print (h : 1 ≤ s.stack.size) : Acts p s print := by
  obtain ⟨v, s₁, hpop, htaken⟩ := taken_pop h
  exact .next ((s₁.print (s₁.world.heap.display v)).print "\n") (by simp [print, hpop])
    fun F outer stats => by simp [print, F.pop?_lift outer stats hpop]

theorem acts_readFile (h : s.frame.base + 1 ≤ s.stack.size) : Acts p s (readFile p) := by
  obtain ⟨v, s₁, hpop, htaken⟩ := taken_pop (s := s) (by omega)
  have hsize := htaken.size
  cases v with
  | string path =>
    cases hread : s₁.world.files.read? path with
    | some content =>
      exact .next (s₁.push (.string content)) (by simp [readFile, hpop, hread])
        fun F outer stats => by simp [readFile, F.pop?_lift outer stats hpop, hread]
    | none =>
      exact .raise s₁ (fileError "read" path) htaken.control (by omega) fun F outer stats => by
        simp [readFile, F.pop?_lift outer stats hpop, hread]
  | _ =>
    exact .raise s₁ pathError htaken.control (by omega) fun F outer stats => by
      simp [readFile, F.pop?_lift outer stats hpop]

theorem acts_writeFile (h : s.frame.base + 2 ≤ s.stack.size) : Acts p s (writeFile p) := by
  obtain ⟨content, path, s₁, hpop, htaken⟩ := taken_pop2 (s := s) (by omega)
  have hsize := htaken.size
  cases path with
  | string path =>
    cases hwrite : s₁.world.files.write? path (s₁.world.heap.display content) with
    | some files =>
      exact .next { s₁ with world := { s₁.world with files } } (by simp [writeFile, hpop, hwrite])
        fun F outer stats => by
          simp only [writeFile, F.pop2?_lift outer stats hpop, Option.bind_eq_bind,
            Option.bind_some, F.world_lift, hwrite]
          rfl
    | none =>
      exact .raise s₁ (fileError "write" path) htaken.control (by omega) fun F outer stats => by
        simp [writeFile, F.pop2?_lift outer stats hpop, hwrite]
  | _ =>
    exact .raise s₁ pathError htaken.control (by omega) fun F outer stats => by
      simp [writeFile, F.pop2?_lift outer stats hpop]

end

theorem acts_execute {p : Program} {limits : Limits} {f : Function} {s : State} {op : Opcode}
    {ins : Instruction} {depth : Nat} (hop : ins.op? = some op) (htransfers : op.transfers = false)
    (hsound : Verify.Sound p f op ins depth)
    (hsize : s.stack.size = s.frame.base + f.localCount + depth)
    (hglobals : s.world.globals.size = p.globals.size) :
    Acts p s fun s => execute p limits s op ins := by
  -- the operands that an instruction takes are above the locals, and so above the floor
  obtain ⟨hrange, -, -, -, hpops⟩ := hsound
  simp only [Instruction.pops, hop] at hpops
  cases op with
  | jump | jumpIfFalse | call | ret | pushTry | popTry | endFinally | halt => cases htransfers
  | loadConst =>
    simp only [Opcode.kindA, Verify.InRange] at hrange
    have hnat := Verify.toNat_of_nonneg hrange.1
    have hc := Array.getElem?_eq_getElem (show ins.a.toNat < p.constants.size by omega)
    simp only [execute, hc, Option.map_some]
    exact acts_push _
  | loadLocal =>
    simp only [Opcode.kindA, Verify.InRange] at hrange
    have hnat := Verify.toNat_of_nonneg hrange.1
    exact acts_loadLocal (by omega)
  | storeLocal =>
    simp only [Opcode.kindA, Verify.InRange, Instruction.popsOf] at hrange hpops
    have hnat := Verify.toNat_of_nonneg hrange.1
    exact acts_storeLocal (by omega)
  | loadGlobal =>
    simp only [Opcode.kindA, Verify.InRange] at hrange
    have hnat := Verify.toNat_of_nonneg hrange.1
    exact acts_loadGlobal (by omega) hglobals (by omega)
  | storeGlobal =>
    simp only [Opcode.kindA, Verify.InRange, Instruction.popsOf] at hrange hpops
    have hnat := Verify.toNat_of_nonneg hrange.1
    exact acts_storeGlobal (by omega) (by omega)
  | makeList =>
    simp only [Opcode.kindA, Verify.InRange, Instruction.popsOf] at hrange hpops
    have hnat := Verify.toNat_of_nonneg hrange
    exact acts_makeList (by omega)
  | makeDict =>
    simp only [Opcode.kindA, Verify.InRange, Instruction.popsOf] at hrange hpops
    have hnat := Verify.toNat_of_nonneg hrange
    exact acts_makeDict (by omega)
  | makeError =>
    simp only [Opcode.kindA, Verify.InRange, Instruction.popsOf] at hrange hpops
    have hnat := Verify.toNat_of_nonneg hrange.1
    exact acts_makeError (by omega) (by omega)
  | add =>
    simp only [Instruction.popsOf] at hpops
    exact acts_add (by omega)
  | sub | mul | div | mod | equal | notEqual | less | lessEqual | greater | greaterEqual
  | indexGet =>
    simp only [Instruction.popsOf] at hpops
    have htwo : s.frame.base + 2 ≤ s.stack.size := by omega
    simp only [execute]
    exact acts_binary _ htwo
  | negate | not | errorMessage | errorType =>
    simp only [Instruction.popsOf] at hpops
    have hone : s.frame.base + 1 ≤ s.stack.size := by omega
    simp only [execute]
    exact acts_unary _ hone
  | pop =>
    simp only [Instruction.popsOf] at hpops
    obtain ⟨v, s₁, hpop, -⟩ := taken_pop (s := s) (by omega)
    exact .next s₁ (by simp [execute, hpop]) fun F outer stats => by
      simp [execute, F.pop?_lift outer stats hpop]
  | indexSet =>
    simp only [Instruction.popsOf] at hpops
    exact acts_indexSet (by omega)
  | throw =>
    simp only [Instruction.popsOf] at hpops
    exact acts_throw (by omega)
  | print =>
    simp only [Instruction.popsOf] at hpops
    exact acts_print (by omega)
  | input =>
    exact .next _ rfl fun F outer stats => by
      simp only [execute, input, F.world_lift, Option.some.injEq, Progress.next.injEq]
      exact F.push_lift outer stats
        { s with world := { s.world with input := (firstLine s.world.input).2 } } _
  | readFile =>
    simp only [Instruction.popsOf] at hpops
    exact acts_readFile (by omega)
  | writeFile =>
    simp only [Instruction.popsOf] at hpops
    exact acts_writeFile (by omega)

end Machine
end ScriptMachine
