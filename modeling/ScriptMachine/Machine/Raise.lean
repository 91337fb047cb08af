import ScriptMachine.Machine.State

/-!
Transfers of control between frames: calls, returns and errors. An error goes to the innermost open
try construct that has a handler for it; a finally block on the way is run first and the error or
the return goes on when the block is done.
-/

namespace ScriptMachine
namespace Machine

/-- The open calls as an error records them. The address before a frame's next instruction is the
one it executes. -/
def trace (p : Program) (s : State) : List TraceFrame :=
  s.frames.map fun frame =>
    { function := (p.functions.getD frame.function default).name
      instruction := frame.ip - 1
      file := p.sourceFile
      line := p.lineAt (frame.ip - 1) }

/-- An error keeps the trace of the place where it was first raised. -/
def traced (p : Program) (s : State) (e : ScriptError) : ScriptError :=
  if e.trace.isEmpty then { e with trace := trace p s } else e

def filterText? (p : Program) (clause : CatchClause) : Option Text :=
  (p.constant? clause.filter).bind Constant.string?

/-- The first clause whose filter names the error's type, else the first that catches everything. -/
def selectClause? (p : Program) (e : ScriptError) (clauses : List CatchClause) :
    Option CatchClause :=
  let named (clause : CatchClause) : Bool :=
    clause.filter != noIndex &&
      match filterText? p clause with
      | some filter => e.matchesFilter filter
      | none => false
  clauses.find? named <|> clauses.find? (·.filter == noIndex)

/-- Takes frames, operands and pending completions back to where a guard was set up. -/
def rewind? (s : State) (g : Guard) : Option State :=
  match s.backTo? g.frame with
  | some s =>
    some { s with
      stack := resize s.stack g.stackSize .nil
      pending := resize s.pending g.pendingSize ⟨0, .jump 0⟩ }
  | none => none

/-- Carries an error through the guards, innermost first. -/
def unwind (p : Program) (e : ScriptError) : State → List Guard → Option Progress
  | s, [] => some (s.finish (.failed e))
  | s, g :: outer => do
    let t ← p.tries[g.table]?
    let s ← rewind? s g
    let clause? := if g.phase = .body then selectClause? p e t.clauses else none
    match clause?, t.cleanup? with
    | some clause, _ =>
      let s := { s with guards := { g with phase := .handling } :: outer }
      return .next ((s.pushNew (·.newError e)).jump clause.handler.toInt.toNat)
    | none, some cleanup =>
      let s := { s with guards := outer, pending := s.pending.push ⟨g.frame, .rethrow e⟩ }
      return .next (s.jump cleanup.toInt.toNat)
    | none, none => unwind p e s outer

def raise (p : Program) (s : State) (e : ScriptError) : Option Progress :=
  unwind p (traced p s e) s s.guards

/-- Gives a value to the frame that waits for it, or ends the execution. -/
def leaveFrame (s : State) (v : Value) : Progress :=
  match s.callers.back? with
  | none => s.finish (.returned v)
  | some frame =>
    .next { s with
      stack := (resize s.stack s.frame.base .nil).push v
      frame
      callers := s.callers.pop }

/-- Carries a return through the guards of the executing frame, innermost first. -/
def returnThrough (p : Program) (v : Value) (s : State) : List Guard → Option Progress
  | [] => some (leaveFrame { s with guards := [] } v)
  | g :: outer =>
    if g.frame ≠ s.depth then some (leaveFrame { s with guards := g :: outer } v)
    else
      match p.tries[g.table]? with
      | none => none
      | some t =>
        match t.cleanup? with
        | none => returnThrough p v s outer
        | some cleanup =>
          let s := { s with
            guards := outer
            stack := resize s.stack g.stackSize .nil
            pending := s.pending.push ⟨s.depth, .result v⟩ }
          some (.next (s.jump cleanup.toInt.toNat))

/-- Returns from the executing frame; completions that wait in it are given up. -/
def completeReturn (p : Program) (s : State) (v : Value) : Option Progress :=
  let s := { s with pending := s.pending.popWhile fun pending => pending.frame == s.depth }
  returnThrough p v s s.guards

/-- Why a call is refused, given the number of frames and the size of the stack below the
arguments. -/
def refusal? (limits : Limits) (f : Function) (frames base argc : Nat) : Option ScriptError :=
  let overflow (parts : List Text) := some (ScriptError.make .stackOverflow (Text.concat parts))
  if limits.maxFrames ≤ frames then
    overflow ["Maximum call depth of ", Text.decimal limits.maxFrames, " exceeded calling '",
      f.name, "'"]
  else if f.arity < argc ∨ argc < f.requiredArity then
    some (typeError ["Function '", f.name, "' expects ", Text.decimal f.arity,
      " arguments but got ", Text.decimal argc])
  else if limits.maxStack < base + f.localCount + f.maxStackDepth then
    overflow ["Operand stack limit of ", Text.decimal limits.maxStack, " exceeded calling '",
      f.name, "'"]
  else none

/-- The stack with the frame of a function on it: the arguments, the defaults of the parameters that
were left out, and nil for the other locals. -/
def frameStack? (p : Program) (f : Function) (base argc : Nat) (stack : Array Value) :
    Option (Array Value) := do
  let missing ← ((f.defaults.take f.arity).drop argc).mapM p.constant?
  return resize (stack ++ missing.map Constant.toValue) (base + f.localCount) .nil

def call (p : Program) (limits : Limits) (s : State) (index argc : Nat) : Option Progress := do
  let f ← p.functions[index]?
  let base := s.stack.size - argc
  match refusal? limits f (s.depth + 1) base argc with
  | some e => raise p s e
  | none =>
    let frames := s.depth + 2
    let stack ← frameStack? p f base argc s.stack
    return .next { s with
      stack
      frame := ⟨index, f.entry, base⟩
      callers := s.callers.push s.frame
      stats := s.stats.map (·.countCall frames) }

end Machine
end ScriptMachine
