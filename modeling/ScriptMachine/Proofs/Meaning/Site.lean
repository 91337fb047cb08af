import ScriptMachine.Proofs.Compile.Building
import ScriptMachine.Proofs.Machine.Frames
import ScriptMachine.Proofs.Meaning.Evaluate

namespace ScriptMachine
namespace Machine

/-- A state that has more of everything than another: it may be at another address, and further
frames, operands and completions may have come on top. -/
structure Extends (s t : State) : Prop where
  world : t.world = s.world
  stats : t.stats = s.stats
  stack : s.stack.toList <+: t.stack.toList
  pending : s.pending.toList <+: t.pending.toList
  frames : ∃ ip above, t.frames = above ++ { s.frame with ip } :: s.callers.toList.reverse

/-- Guards that were entered one inside the other, with at most so many frames, operands and
completions around. -/
def Fits : List Guard → Nat → Nat → Nat → Prop
  | [], _, _, _ => True
  | g :: outer, depth, size, waiting =>
    g.frame ≤ depth ∧ g.stackSize ≤ size ∧ g.pendingSize ≤ waiting ∧
      Fits outer g.frame g.stackSize g.pendingSize

theorem Fits.mono {gs : List Guard} {depth depth' size size' waiting waiting' : Nat}
    (h : Fits gs depth size waiting) (hdepth : depth ≤ depth') (hsize : size ≤ size')
    (hwaiting : waiting ≤ waiting') : Fits gs depth' size' waiting' := by
  cases gs with
  | nil => trivial
  | cons g outer =>
    obtain ⟨hframe, hstack, hpending, houter⟩ := h
    exact ⟨by omega, by omega, by omega, houter⟩

theorem resize_of_isPrefix {xs ys : Array α} {n : Nat} {fill : α} (h : xs.toList <+: ys.toList)
    (hn : n ≤ xs.size) : resize ys n fill = resize xs n fill := by
  have hle := h.length_le
  simp only [Array.length_toList] at hle
  unfold resize
  rw [if_pos hn, if_pos (Nat.le_trans hn hle)]
  apply Array.ext'
  rw [Array.toList_shrink, Array.toList_shrink]
  obtain ⟨rest, hrest⟩ := h
  rw [← hrest, List.take_append_of_le_length (by simpa using hn)]

theorem exists_caller {s : State} {position : Nat} (hlt : position < s.depth) :
    ∃ inner frame rest, s.callers.toList.reverse = inner ++ frame :: rest ∧
      rest.length = position := by
  have hlength : s.callers.toList.reverse.length = s.depth := by simp [State.depth]
  have hplace : s.depth - position - 1 < s.callers.toList.reverse.length := by omega
  refine ⟨s.callers.toList.reverse.take (s.depth - position - 1),
    s.callers.toList.reverse[s.depth - position - 1],
    s.callers.toList.reverse.drop (s.depth - position - 1 + 1), ?_, ?_⟩
  · rw [← List.drop_eq_getElem_cons hplace, List.take_append_drop]
  · rw [List.length_drop]
    omega

theorem backTo?_of_extends {s t : State} (h : Extends s t) {position : Nat}
    (hle : position ≤ s.depth) : ∃ frame callers ip,
      s.backTo? position = some { s with frame, callers } ∧
      t.backTo? position = some { t with frame := { frame with ip }, callers } ∧
      callers.size = position := by
  obtain ⟨ip, above, hframes⟩ := h.frames
  rcases Nat.eq_or_lt_of_le hle with rfl | hlt
  · obtain ⟨callers, ht, hcallers⟩ := backTo?_eq_some hframes
    have hsame : callers = s.callers := by
      apply Array.ext'
      simpa using hcallers
    subst hsame
    refine ⟨s.frame, s.callers, ip, by simp [State.backTo?, State.depth], ?_, rfl⟩
    simpa [State.depth] using ht
  · obtain ⟨inner, frame, rest, hsplit, rfl⟩ := exists_caller hlt
    have hsframes : s.frames = (s.frame :: inner) ++ frame :: rest := by
      rw [State.frames, List.cons_append, ← hsplit]
    have htframes : t.frames = (above ++ { s.frame with ip } :: inner) ++ frame :: rest := by
      rw [hframes, List.append_assoc, List.cons_append, ← hsplit]
    obtain ⟨callers, hs, hcallers⟩ := backTo?_eq_some hsframes
    obtain ⟨callers', ht, hcallers'⟩ := backTo?_eq_some htframes
    have hsame : callers' = callers := by
      apply Array.ext'
      rw [← List.reverse_inj, hcallers, hcallers']
    subst hsame
    exact ⟨frame, callers', frame.ip, hs, ht, by simpa using congrArg List.length hcallers⟩

theorem rewind?_of_extends {s t : State} (h : Extends s t) {g : Guard} (hframe : g.frame ≤ s.depth)
    (hstack : g.stackSize ≤ s.stack.size) (hpending : g.pendingSize ≤ s.pending.size) :
    ∃ s', rewind? s g = some s' ∧ s'.depth = g.frame ∧ s'.stack.size = g.stackSize ∧
      s'.pending.size = g.pendingSize ∧
      ∃ ip, rewind? t g = some { s' with frame := { s'.frame with ip }, guards := t.guards } := by
  obtain ⟨frame, callers, ip, hs, ht, hsize⟩ := backTo?_of_extends h hframe
  obtain ⟨hworld, hstats, hstacks, hwaiting, -⟩ := h
  refine ⟨{ s with
    frame
    callers
    stack := resize s.stack g.stackSize .nil
    pending := resize s.pending g.pendingSize ⟨0, .jump 0⟩ }, by simp only [rewind?, hs], hsize,
    size_resize _ _ _, size_resize _ _ _, ip, ?_⟩
  simp only [rewind?, ht, hworld, hstats, resize_of_isPrefix hstacks hstack,
    resize_of_isPrefix hwaiting hpending]

/-- An error takes the same way from all states that extend one. -/
theorem unwind_of_extends {p : Program} {e : ScriptError} {s t : State} {gs : List Guard}
    (h : Extends s t) (hfits : Fits gs s.depth s.stack.size s.pending.size) :
    unwind p e t gs = unwind p e s gs := by
  induction gs generalizing s t with
  | nil => simp only [unwind, State.finish, h.world, h.stats]
  | cons g outer ih =>
    obtain ⟨hframe, hstack, hpending, houter⟩ := hfits
    obtain ⟨s', hs', hdepth, hsize, hwaiting, ip, ht'⟩ :=
      rewind?_of_extends h hframe hstack hpending
    have hrest : unwind p e { s' with frame := { s'.frame with ip }, guards := t.guards } outer =
        unwind p e s' outer := by
      refine ih ⟨rfl, rfl, List.prefix_refl _, List.prefix_refl _, ip, [], rfl⟩ ?_
      rw [hdepth, hsize, hwaiting]
      exact houter
    simp only [unwind, hs', ht', Option.bind_eq_bind, Option.bind_some, hrest]
    rfl

section

variable {p : Program} {limits : Limits} {s t : State} {k n : Nat} {P Q : State → Prop}

/-- The execution goes on for a number of steps at least. -/
def Lasts (p : Program) (limits : Limits) (k : Nat) (s : State) : Prop :=
  ∃ t, run p limits k s = .unfinished t

/-- The execution comes to a state of the given kind. -/
def Leads (p : Program) (limits : Limits) (s : State) (P : State → Prop) : Prop :=
  ∃ n t, run p limits n s = .unfinished t ∧ P t

theorem run_add (h : run p limits n s = .unfinished t) (k : Nat) :
    run p limits (n + k) s = run p limits k t := by
  induction n generalizing s with
  | zero =>
    cases h
    rw [Nat.zero_add]
  | succ n ih =>
    rw [Nat.add_right_comm]
    unfold run at h
    split at h
    · cases h
    · cases h
    · next hstep =>
      simp only [run, hstep]
      exact ih h

theorem run_of_step (h : step p limits s = some (.next t)) (n : Nat) :
    run p limits (n + 1) s = run p limits n t := by
  simp only [run, h]

theorem Lasts.mono (h : Lasts p limits n s) (hk : k ≤ n) : Lasts p limits k s := by
  cases hrun : run p limits k s with
  | unfinished t => exact ⟨t, hrun⟩
  | stuck | finished f =>
    obtain ⟨t, ht⟩ := h
    induction k generalizing n s with
    | zero => cases hrun
    | succ k ih =>
      obtain ⟨n, rfl⟩ := Nat.exists_eq_add_of_le' (Nat.lt_of_lt_of_le (Nat.succ_pos k) hk)
      unfold run at hrun ht
      split at ht
      · cases ht
      · cases ht
      · next hstep =>
        simp only [hstep] at hrun
        obtain ⟨_, hlasts⟩ := ih (Nat.le_of_succ_le_succ hk) hrun ht
        rw [hrun] at hlasts
        cases hlasts

theorem Lasts.step (hstep : step p limits s = some (.next t)) (h : Lasts p limits k t) :
    Lasts p limits (k + 1) s := by
  obtain ⟨t', ht'⟩ := h
  exact ⟨t', by rw [run_of_step hstep, ht']⟩

theorem Leads.here (h : P s) : Leads p limits s P := ⟨0, s, rfl, h⟩

theorem Leads.step (hstep : step p limits s = some (.next t)) (h : Leads p limits t P) :
    Leads p limits s P := by
  obtain ⟨n, t', ht', hP⟩ := h
  exact ⟨n + 1, t', by rw [run_of_step hstep, ht'], hP⟩

theorem Leads.trans (h : Leads p limits s P) (hP : ∀ t, P t → Leads p limits t Q) :
    Leads p limits s Q := by
  obtain ⟨n, t, ht, hPt⟩ := h
  obtain ⟨k, t', ht', hQ⟩ := hP t hPt
  exact ⟨n + k, t', by rw [run_add ht, ht'], hQ⟩

theorem Leads.lasts (h : Leads p limits s P) (hP : ∀ t, P t → Lasts p limits k t) :
    Lasts p limits k s := by
  obtain ⟨n, t, ht, hPt⟩ := h
  obtain ⟨t', ht'⟩ := hP t hPt
  have hlong : Lasts p limits (n + k) s := ⟨t', by rw [run_add ht, ht']⟩
  exact hlong.mono (Nat.le_add_left k n)

end

end Machine

namespace Meaning
open Machine Compile

/-- A world with the counters of the execution. -/
structure Scene where
  world : World
  stats : Option Stats

/-- The memory that scripts find in a world. -/
structure Scene.Shows (p : Program) (x : Scene) (μ : Memory) : Prop where
  globals : x.world.globals.size = p.globals.size
  memory : Memory.of p x.world = μ

theorem Scene.Shows.counted {p : Program} {x : Scene} {μ : Memory} (h : x.Shows p μ)
    (stats : Option Stats) : Scene.Shows p ⟨x.world, stats⟩ μ := ⟨h.globals, h.memory⟩

/-- What a state has below the locals of its function, and what waits around it. -/
structure Site where
  function : Nat
  below : List Value
  callers : Array Frame
  guards : List Guard
  pending : Array Pending

namespace Site

/-- The state with the given locals, at an address, with operands from the top down. -/
def state (c : Site) (cells : List Value) (pc : Nat) (operands : List Value) (x : Scene) :
    State where
  stack := (c.below ++ cells ++ operands.reverse).toArray
  frame := ⟨c.function, pc, c.below.length⟩
  callers := c.callers
  guards := c.guards
  pending := c.pending
  world := x.world
  stats := x.stats

section

variable (c : Site) (cells : List Value) (pc : Nat) (operands : List Value) (x : Scene)

@[simp] theorem frame_state : (c.state cells pc operands x).frame =
    ⟨c.function, pc, c.below.length⟩ :=
  rfl

@[simp] theorem world_state : (c.state cells pc operands x).world = x.world := rfl

@[simp] theorem depth_state : (c.state cells pc operands x).depth = c.callers.size := rfl

@[simp] theorem guards_state : (c.state cells pc operands x).guards = c.guards := rfl

@[simp] theorem pending_state : (c.state cells pc operands x).pending = c.pending := rfl

@[simp] theorem size_state : (c.state cells pc operands x).stack.size =
    c.below.length + cells.length + operands.length := by
  simp [state, Nat.add_assoc]

@[simp] theorem push_state (v : Value) :
    (c.state cells pc operands x).push v = c.state cells pc (v :: operands) x := by
  simp [state, State.push]

@[simp] theorem pop?_state (v : Value) :
    (c.state cells pc (v :: operands) x).pop? = some (v, c.state cells pc operands x) := by
  simp [state, State.pop?, ← List.append_assoc]

@[simp] theorem pop2?_state (l r : Value) :
    pop2? (c.state cells pc (r :: l :: operands) x) = some (l, r, c.state cells pc operands x) := by
  simp [pop2?]

@[simp] theorem jump_state (pc' : Nat) :
    (c.state cells pc operands x).jump pc' = c.state cells pc' operands x := rfl

@[simp] theorem pushNew_state (alloc : Heap → Value × Heap) :
    (c.state cells pc operands x).pushNew alloc =
      c.state cells pc ((alloc x.world.heap).1 :: operands)
        { x with world := { x.world with heap := (alloc x.world.heap).2 } } := by
  simp [state, State.pushNew]

@[simp] theorem setHeap_state (h : Heap) : (c.state cells pc operands x).setHeap h =
    c.state cells pc operands { x with world := { x.world with heap := h } } := (rfl)

theorem getElem?_state {i : Nat} {v : Value} (hv : cells[i]? = some v) :
    (c.state cells pc operands x).stack[c.below.length + i]? = some v := by
  obtain ⟨hlt, -⟩ := List.getElem?_eq_some_iff.1 hv
  simp only [state, List.getElem?_toArray, List.append_assoc]
  rw [List.getElem?_append_right (Nat.le_add_right _ _), Nat.add_sub_cancel_left,
    List.getElem?_append_left hlt, hv]

theorem split_state (values : List Value) :
    let s := c.state cells pc (values.reverse ++ operands) x
    values.length ≤ s.stack.size ∧
      s.stack.extract (s.stack.size - values.length) s.stack.size = values.toArray ∧
      { s with stack := s.stack.shrink (s.stack.size - values.length) } =
        c.state cells pc operands x := by
  have hstack : (c.state cells pc (values.reverse ++ operands) x).stack =
      (c.below ++ cells ++ operands.reverse ++ values).toArray := by
    simp [state]
  have hsize : (c.below ++ cells ++ operands.reverse ++ values).length - values.length =
      (c.below ++ cells ++ operands.reverse).length := by
    rw [List.length_append, Nat.add_sub_cancel]
  refine ⟨?_, ?_, ?_⟩
  · rw [hstack, List.size_toArray, List.length_append]
    exact Nat.le_add_left _ _
  · rw [hstack, List.size_toArray, hsize]
    apply Array.ext'
    rw [Array.toList_extract, List.extract_eq_take_drop, List.drop_left, List.take_of_length_le]
    rw [List.length_append]
    omega
  · have hshrink : (c.below ++ cells ++ operands.reverse ++ values).toArray.shrink
        (c.below ++ cells ++ operands.reverse).length =
          (c.below ++ cells ++ operands.reverse).toArray := by
      apply Array.ext'
      rw [Array.toList_shrink, List.take_left]
    rw [hstack, List.size_toArray, hsize, hshrink]
    rfl

theorem fetched_state (op : Opcode) : ∃ stats, (c.state cells pc operands x).fetched op =
    c.state cells (pc + 1) operands ⟨x.world, stats⟩ := ⟨_, rfl⟩

end

/-- The guards are those of the frames at hand, and so are the completions. -/
structure Stands (c : Site) (size : Nat) : Prop where
  guards : Fits c.guards c.callers.size (c.below.length + size) c.pending.size
  pending {q : Pending} : q ∈ c.pending → q.frame ≤ c.callers.size

end Site

end Meaning
end ScriptMachine
