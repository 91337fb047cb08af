import ScriptMachine.Compile.Basic
import ScriptMachine.Image.Reader
import ScriptMachine.Image.Writer
import ScriptMachine.Listing
import ScriptMachine.Log
import ScriptMachine.Machine.Run

namespace ScriptMachine

/-- What a host finds around it. -/
structure Surroundings where
  files : Storage := {}
  input : Text := []
  log : Log := {}
  /-- What the log has shown on the console. -/
  console : Text := []

def Surroundings.record (env : Surroundings) (text : Text) : Surroundings :=
  { env with files := env.log.record env.files text, console := env.console ++ env.log.shown text }

structure Host where
  limits : Machine.Limits := {}
  options : Compile.Options := {}
  program : Option Program := none
  /-- The message of the last load if it failed. -/
  lastError : Text := []

inductive HostError where
  | noProgram
  | lookup (e : LookupError)
deriving DecidableEq

def HostError.message : HostError → Text
  | noProgram => "No program loaded"
  | lookup e => e.message

/-- The program in an image file. An error of the reading itself is passed on as it is. -/
def Image.load (files : Storage) (path : Text) : Except ReadError (Except LoadError Program) :=
  match files.open? path with
  | none => .ok (.error (.file path))
  | some source => do
    let image ← source.content
    return if source.bad then .error (.content path) else Image.read image

/-- Writes an image file; the file is made before the image is. -/
def Image.save (files : Storage) (path : Text) (p : Program) :
    Except Image.WriteError (Option Storage) :=
  match files.write? path [] with
  | none => .ok none
  | some _ => do return files.write? path (← Image.write p)

namespace Host

def accept (h : Host) (p : Program) : Host := { h with program := some p, lastError := [] }

def reject (h : Host) (message : Text) : Host := { h with lastError := message }

/-- Compiles a tree and makes it the current program. -/
def loadTree (h : Host) (env : Surroundings) (time : Text) (tree : List Stmt) :
    Bool × Host × Surroundings :=
  match compile h.options tree with
  | .ok p => (true, h.accept p, env)
  | .error e =>
    let text := Log.exceptionBlock time "CompileError" e.message "load program"
      [("Compile Error Kind", e.kind.name)]
    (false, h.reject e.message, env.record text)

/-- Reads an image and makes it the current program. Only an error in the image is recorded. -/
def loadFile (h : Host) (env : Surroundings) (time path : Text) :
    Except ReadError (Bool × Host × Surroundings) := do
  match ← Image.load env.files path with
  | .ok p => return (true, h.accept p, env)
  | .error e =>
    let text := Log.exceptionBlock time "LoadError" e.message "load bytecode"
      [("Bytecode File", path)]
    return (false, h.reject e.message, env.record text)

def save (h : Host) (env : Surroundings) (path : Text) :
    Except Image.WriteError (Bool × Surroundings) :=
  match h.program with
  | none => .ok (false, env)
  | some p =>
    match Image.save env.files path p with
    | .error e => .error e
    | .ok none => .ok (false, env)
    | .ok (some files) => .ok (true, { env with files })

/-- A new machine for the current program, and the function of that name. -/
def prepare (h : Host) (env : Surroundings) (function : Text) : Except HostError (Machine × Nat) :=
  match h.program with
  | none => .error .noProgram
  | some p =>
    match p.findFunction function with
    | .error e => .error (.lookup e)
    | .ok index => .ok (.create p h.limits env.input env.files, index)

/-- The surroundings after an execution, with an uncaught error in the log. -/
def conclude (env : Surroundings) (time function : Text) (f : Machine.Finished) : Surroundings :=
  let env := { env with files := f.world.files, input := f.world.input }
  match f.outcome with
  | .returned _ => env
  | .failed e => env.record (Log.uncaughtBlock time function e)

/-- Runs a function of the current program on arguments that live in a heap. -/
def call (h : Host) (env : Surroundings) (time : Text) (fuel : Nat) (function : Text) (heap : Heap)
    (args : List Value) : Except HostError (Machine.Run × Surroundings) := do
  let (machine, index) ← h.prepare env function
  let machine := { machine with world := { machine.world with heap } }
  match machine.invoke fuel index args with
  | .error e => .error (.lookup e)
  | .ok (.finished f) => .ok (.finished f, conclude env time function f)
  | .ok run => .ok (run, env)

/-- The listing of the current program, empty when there is none. -/
def listing (h : Host) : Except UnknownOpcode Text :=
  match h.program with
  | none => .ok []
  | some p => p.listing

end Host
end ScriptMachine
