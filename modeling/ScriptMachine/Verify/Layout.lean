import ScriptMachine.Verify.Error

namespace ScriptMachine
namespace Verify

def require (condition : Bool) (e : VerifyError) : Except VerifyError Unit :=
  if condition then .ok () else .error e

/-- Defaults come after the required parameters and are constants of the pool. -/
def checkDefaults (name : Text) (constants : Nat) : Bool → List Int32 → Except VerifyError Unit
  | _, [] => .ok ()
  | seenDefault, d :: rest =>
    if d = noIndex then
      if seenDefault then .error (.requiredAfterDefault name)
      else checkDefaults name constants seenDefault rest
    else if 0 ≤ d.toInt ∧ d.toInt < constants then checkDefaults name constants true rest
    else .error (.defaultIndex name)

def checkFunction (p : Program) (expectedEntry : Nat) (f : Function) : Except VerifyError Unit := do
  require (f.entry = expectedEntry ∧ f.entry < f.stop) (.notContiguous f.name)
  require (f.localCount ≤ maxLocals ∧ f.arity ≤ f.localCount ∧ f.arity ≤ maxArguments)
    (.frameLayout f.name)
  require (f.defaults.length = f.arity) (.defaultCount f.name f.defaults.length f.arity)
  checkDefaults f.name p.constants.size false f.defaults

/-- Checks functions that follow one another from an address on and returns where the last ends. -/
def checkFunctions (p : Program) : Nat → List Function → Except VerifyError Nat
  | expectedEntry, [] => .ok expectedEntry
  | expectedEntry, f :: rest => do
    checkFunction p expectedEntry f
    checkFunctions p f.stop rest

def checkLocalNames : List (Function × Array Text) → Except VerifyError Unit
  | [] => .ok ()
  | (f, names) :: rest => do
    require (names.size = f.localCount) (.localNames names.size f.name)
    checkLocalNames rest

def checkDebug (p : Program) (debug : DebugInfo) : Except VerifyError Unit := do
  require (debug.lines.size = p.code.size) (.lineCount debug.lines.size p.code.size)
  require (debug.locals.size = p.functions.size) (.localTables debug.locals.size p.functions.size)
  checkLocalNames (p.functions.toList.zip debug.locals.toList)

def checkLayout (p : Program) : Except VerifyError Unit := do
  require (p.version = formatVersion) (.version p.version)
  require (!p.functions.isEmpty) .noMain
  let stop ← checkFunctions p 0 p.functions.toList
  require (stop = p.code.size) .strayCode
  match p.debug with
  | some debug => checkDebug p debug
  | none => .ok ()

end Verify
end ScriptMachine
