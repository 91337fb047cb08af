import ScriptMachine.Verify.Flow
import ScriptMachine.Verify.Layout

namespace ScriptMachine
namespace Verify

structure Exploration where
  /-- The state at each address of the function, counted from its entry. -/
  states : Array (Option FlowState)
  /-- The addresses that have a state and whose demands are still to be met. -/
  worklist : List Nat
  /-- The function that uses each try table. -/
  owners : Array (Option Nat)
deriving DecidableEq

namespace Exploration

def own (x : Exploration) (f : Function) (index pc table : Nat) : Except VerifyError Exploration :=
  match x.owners.getD table none with
  | none => .ok { x with owners := x.owners.setIfInBounds table (some index) }
  | some owner =>
    if owner = index then .ok x else .error (.flow f.name pc (.foreignTable table))

def reach (x : Exploration) (f : Function) (pc target : Nat) (state : FlowState) :
    Except VerifyError Exploration :=
  if !f.contains target then .error (.flow f.name pc (.leavesFunction target))
  else
    match x.states.getD (target - f.entry) none with
    | none =>
      .ok { x with
        states := x.states.setIfInBounds (target - f.entry) (some state)
        worklist := target :: x.worklist }
    | some known =>
      if known.depth ≠ state.depth then
        .error (.flow f.name target (.depthMismatch known.depth state.depth))
      else if known.scopes ≠ state.scopes then
        .error (.flow f.name target (.scopeMismatch known.scopes state.scopes))
      else .ok x

def meet (f : Function) (index pc : Nat) (x : Exploration) : Demand → Except VerifyError Exploration
  | .refuse e => .error e
  | .own table => x.own f index pc table
  | .reach target state => x.reach f pc target state

def meetAll (f : Function) (index pc : Nat) (x : Exploration) (ds : List Demand) :
    Except VerifyError Exploration := ds.foldlM (meet f index pc) x

/-- Meets the demands of the addresses on the worklist, of `count` addresses at most. -/
def run (p : Program) (f : Function) (index : Nat) : Nat → Exploration →
    Except VerifyError Exploration
  | 0, x => .ok x
  | count + 1, x =>
    match x.worklist with
    | [] => .ok x
    | pc :: rest =>
      match x.states.getD (pc - f.entry) none with
      | none => run p f index count { x with worklist := rest }
      | some state => do
        let y ← meetAll f index pc { x with worklist := rest } (demands p f pc state)
        run p f index count y

def maxDepth (x : Exploration) : Nat :=
  x.states.foldl (fun deepest state? => max deepest (state?.elim 0 FlowState.depth)) 0

end Exploration

/-- Each address enters the worklist once, so the size of the function bounds the exploration. -/
def explore (p : Program) (index : Nat) (f : Function) (owners : Array (Option Nat)) :
    Except VerifyError Exploration := do
  let blank : Exploration := ⟨Array.replicate (f.stop - f.entry) none, [], owners⟩
  let start ← blank.reach f f.entry f.entry ⟨0, []⟩
  start.run p f index (f.stop - f.entry)

/-- The depths of the functions up to the first that is refused, and why it is. -/
def functionDepths (p : Program) : Nat → Array (Option Nat) → List Function →
    List Nat × Option VerifyError
  | _, _, [] => ([], none)
  | index, owners, f :: rest =>
    match explore p index f owners with
    | .error e => ([], some e)
    | .ok x =>
      let (depths, e?) := functionDepths p (index + 1) x.owners rest
      (x.maxDepth :: depths, e?)

def storeDepths (p : Program) (depths : List Nat) : Program :=
  { p with
    functions := p.functions.mapIdx fun i f =>
      match depths[i]? with
      | some d => { f with maxStackDepth := d }
      | none => f }

/-- A program with the depths found so far, and the reason if it is refused. -/
structure Verdict where
  program : Program
  error? : Option VerifyError

def inspect (p : Program) : Verdict :=
  match checkLayout p with
  | .error e => ⟨p, some e⟩
  | .ok () =>
    let (depths, e?) := functionDepths p 0 (Array.replicate p.tries.size none) p.functions.toList
    ⟨storeDepths p depths, e?⟩

end Verify

/-- A program that passes verification, with the operand stack depth of each function. -/
def Program.verify (p : Program) : Except VerifyError Program :=
  let verdict := Verify.inspect p
  match verdict.error? with
  | some e => .error e
  | none => .ok verdict.program

end ScriptMachine
