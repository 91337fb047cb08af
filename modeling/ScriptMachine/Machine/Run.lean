import ScriptMachine.Machine.Step

namespace ScriptMachine
namespace Machine

inductive Run where
  | finished (f : Finished)
  /-- The next instruction reaches outside the stack or a table. -/
  | stuck
  /-- The instructions that were allowed are used up. -/
  | unfinished (s : State)

def run (p : Program) (limits : Limits) : Nat → State → Run
  | 0, s => .unfinished s
  | fuel + 1, s =>
    match step p limits s with
    | none => .stuck
    | some (.done f) => .finished f
    | some (.next s) => run p limits fuel s

theorem run_of_ended {p : Program} {limits : Limits} {n k : Nat} {s : State} {r : Run}
    (h : run p limits n s = r) (ended : ∀ t, r ≠ .unfinished t) (hle : n ≤ k) :
    run p limits k s = r := by
  induction n generalizing s k with
  | zero => exact absurd h.symm (ended s)
  | succ n ih =>
    obtain ⟨k, rfl⟩ := Nat.exists_eq_add_of_le' (Nat.lt_of_lt_of_le (Nat.succ_pos n) hle)
    unfold run at h ⊢
    split at h
    · exact h
    · exact h
    · exact ih h (Nat.le_of_succ_le_succ hle)

/-- The state in which a function starts, or the end of an execution that is refused. -/
def start (p : Program) (limits : Limits) (w : World) (f : Function) (index : Nat)
    (args : List Value) : Option Progress :=
  let stats : Option Stats := if limits.collectStats then some {} else none
  match refusal? limits f 0 0 args.length with
  | some e => some (.done ⟨.failed e, w, stats⟩)
  | none =>
    match frameStack? p f 0 args.length args.toArray with
    | none => none
    | some stack =>
      some (.next {
        stack
        frame := ⟨index, f.entry, 0⟩
        callers := #[]
        guards := []
        pending := #[]
        world := w
        stats := stats.map (·.countCall 1) })

end Machine

/-- A verified program, the limits of its executions and the world they act on. -/
structure Machine where
  program : Program
  limits : Machine.Limits := {}
  world : Machine.World

namespace Machine

def create (p : Program) (limits : Limits) (input : Text) (files : Storage) : Machine :=
  ⟨p, limits, { globals := Array.replicate p.globals.size none, input, files }⟩

def setGlobal (m : Machine) (name : Text) (v : Value) : Except LookupError Machine := do
  let index ← m.program.findGlobal name
  return { m with
    world := { m.world with globals := m.world.globals.setIfInBounds index (some v) } }

/-- The value of a global, `none` when it is unknown or unset. -/
def getGlobal? (m : Machine) (name : Text) : Option Value := do
  let index ← m.program.globalIndex? name
  m.world.globals.getD index none

/-- Runs a function of the program on arguments, with an empty output. -/
def invoke (m : Machine) (fuel index : Nat) (args : List Value) : Except LookupError Run :=
  match m.program.functions[index]? with
  | none => .error (.entry index)
  | some f =>
    match start m.program m.limits { m.world with output := #[] } f index args with
    | none => .ok .stuck
    | some (.done finished) => .ok (.finished finished)
    | some (.next s) => .ok (run m.program m.limits fuel s)

theorem invoke_of_ended {m : Machine} {n k index : Nat} {args : List Value} {r : Run}
    (h : m.invoke n index args = .ok r) (ended : ∀ t, r ≠ .unfinished t) (hle : n ≤ k) :
    m.invoke k index args = .ok r := by
  unfold invoke at h ⊢
  split at h
  · cases h
  · split at h
    · exact h
    · exact h
    · exact congrArg Except.ok (run_of_ended (Except.ok.inj h) ended hle)

end Machine
end ScriptMachine
