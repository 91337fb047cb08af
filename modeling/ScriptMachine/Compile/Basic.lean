import ScriptMachine.Compile.Stmt
import ScriptMachine.Verify.Basic

namespace ScriptMachine
namespace Compile

structure Options where
  /-- Globals that the host sets, known to every function. -/
  hostGlobals : List Text := []
  debug : Bool := false
  sourceName : Text := []

/-- The defaults of parameters; once one has a default, all later ones need one. -/
def defaultWords (function : Text) : Bool → List Parameter → Build (List Int32)
  | _, [] => return []
  | seenDefault, parameter :: rest =>
    match parameter.fallback with
    | none =>
      if seenDefault then fail (.missingDefault parameter.name function)
      else do return noIndex :: (← defaultWords function false rest)
    | some e =>
      match e.literal? with
      | none => fail (.defaultNotLiteral parameter.name)
      | some c => do
        let index ← constantIndex c
        return Int32.ofNat index.toNat :: (← defaultWords function true rest)

/-- The header of a function, without its code. -/
def header (known : Array Function) (d : Declaration) : Build Function := do
  if known.any (·.name == d.name) then fail (.duplicateFunction d.name)
  else if d.parameters.length > maxArguments then fail (.tooManyParameters d.name)
  else
    let defaults ← defaultWords d.name false d.parameters
    return { name := d.name, entry := 0, stop := 0, arity := d.parameters.length, localCount := 0,
             defaults }

def headers (ds : List Declaration) : Build (Array Function) :=
  ds.foldlM (fun known d => do return known.push (← header known d)) #[]

/-- Gives each parameter a slot of its own. -/
def bindParameters (cx : Context) : List Parameter → Build Unit
  | [] => return ()
  | parameter :: rest => do
    if (← get).locals.contains parameter.name then
      fail (.duplicateParameter parameter.name cx.function)
    else
      let _ ← localSlot cx parameter.name
      bindParameters cx rest

/-- The functions that have been given their place in the program. -/
structure Assembly where
  functions : Array Function := #[]
  code : Array Instruction := #[]
  lines : Array UInt32 := #[]
  tries : Array TryTable := #[]
  locals : Array (Array Text) := #[]

/-- Moves the target of a jump by the entry of its function. -/
def relocate (function : Text) (entry index : Nat) : Slot → Build Instruction
  | .unclosed _ => fail (.unresolvedJump index function)
  | .fixed ins => do
    match ins.op? with
    | some op =>
      if op.kindA = .target then return { ins with a := ← address (entry + ins.a.toNat) }
      else return ins
    | none => return ins

def relocateAll (function : Text) (entry : Nat) : Nat → List Placed → Build (List Instruction)
  | _, [] => return []
  | index, p :: rest => do
    let ins ← relocate function entry index p.slot
    let more ← relocateAll function entry (index + 1) rest
    return ins :: more

def relocateWord (entry : Nat) (w : Int32) : Build Int32 := do
  return Int32.ofNat (← address (entry + w.toInt.toNat)).toNat

def relocateTable (entry : Nat) (t : TryTable) : Build TryTable := do
  let clauses ← t.clauses.mapM fun c => do
    return { c with handler := ← relocateWord entry c.handler }
  match t.cleanup? with
  | none => return { t with clauses }
  | some w => return ⟨clauses, ← relocateWord entry w⟩

/-- Places a function behind the ones before it. -/
def Assembly.add (assembly : Assembly) (f : Function) (fragment : Fragment) : Build Assembly := do
  let entry := assembly.code.size
  let code ← relocateAll f.name entry 0 fragment.code
  let tries ← fragment.tables.mapM (relocateTable entry)
  let locals := (← get).locals
  return {
    functions := assembly.functions.push
      { f with entry, stop := entry + code.length, localCount := locals.length }
    code := assembly.code ++ code
    lines := assembly.lines ++ fragment.code.map Placed.line
    tries := assembly.tries ++ tries
    locals := assembly.locals.push locals.toArray }

def enterFunction : Build Unit :=
  modify fun draft => { draft with locals := [], counters := 0 }

def mainFunction : Function :=
  { name := mainName, entry := 0, stop := 0, arity := 0, localCount := 0, defaults := [] }

def addMain (cx : Context) (tree : List Stmt) (assembly : Assembly) : Build Assembly := do
  enterFunction
  let body ← block cx 0 tree
  assembly.add mainFunction (body ++ emit cx [.of .halt])

/-- A function that runs to its end returns nil. -/
def addFunction (cx : Context) (assembly : Assembly) (unit : Function × Declaration) :
    Build Assembly := do
  let (f, d) := unit
  let cx := { cx with function := d.name, isMain := false, line := d.line.toUInt32 }
  enterFunction
  bindParameters cx d.parameters
  let body ← block cx 0 d.body
  let last ← loadConstant .nil
  assembly.add f (body ++ emit cx [last, .of .ret])

def program (options : Options) (tree : List Stmt) : Build Program := do
  let _ ← options.hostGlobals.mapM globalIndex
  let declarations := tree.filterMap Stmt.declaration?
  let functions ← headers declarations
  let cx : Context :=
    { function := mainName, isMain := true, functions,
      knownGlobals := options.hostGlobals ++ assignedNames tree }
  let main ← addMain cx tree {}
  let assembly ← (functions.toList.zip declarations).foldlM (addFunction cx) main
  let draft ← get
  return {
    constants := draft.constants
    globals := draft.globals
    functions := assembly.functions
    tries := assembly.tries
    code := assembly.code
    debug :=
      if options.debug then some ⟨options.sourceName, assembly.lines, assembly.locals⟩ else none }

end Compile

def compile (options : Compile.Options) (tree : List Stmt) : Except CompileError Program :=
  match (Compile.program options tree).run {} with
  | .error e => .error e
  | .ok (p, _) =>
    match p.verify with
    | .ok verified => .ok verified
    | .error e => .error (.verification e)

end ScriptMachine
