import ScriptMachine.Program

namespace ScriptMachine

inductive ScopeKind where
  | guarded
  | cleanup
deriving DecidableEq

/-- A try construct around an instruction: its table, whether control is in the guarded part (body
and handlers) or in the finally block, and the operand depth at which the construct was entered. -/
structure Scope where
  table : Nat
  kind : ScopeKind
  depth : Nat
deriving DecidableEq

def Scope.describe (s : Scope) : Text :=
  Text.concat [match s.kind with | .guarded => "try " | .cleanup => "finally ", Text.decimal s.table]

/-- The open constructs, outermost first, given innermost first. -/
def describeScopes (scopes : List Scope) : Text :=
  Text.concat ["[", Text.join ", " (scopes.reverse.map Scope.describe), "]"]

inductive FlowProblem where
  | leavesFunction (target : Nat)
  | depthMismatch (known found : Nat)
  | scopeMismatch (known found : List Scope)
  | jumpTarget (target : Int)
  | constantIndex (index : Int)
  | localSlot (slot : Int)
  | globalIndex (index : Int)
  | functionIndex (index : Int)
  | negativeCount
  | tryTable (table : Int)
  | argumentCount (callee : Text) (given : Int)
  | errorTypeName
  | underflow
  | noOpenTry
  | tryDepth (table depth entered : Nat)
  | noOpenFinally
  | finallyDepth (depth entered : Nat)
  | returnDepth (depth : Nat)
  | fallsOffEnd
  | foreignTable (table : Nat)
  | catchFilter
deriving DecidableEq

namespace FlowProblem

def message : FlowProblem → Text
  | leavesFunction target =>
    Text.concat ["control reaches ", Text.decimal target, " outside the function"]
  | depthMismatch known found =>
    Text.concat ["inconsistent stack depth ", Text.decimal known, " vs ", Text.decimal found]
  | scopeMismatch known found =>
    Text.concat ["inconsistent try nesting ", describeScopes known, " vs ", describeScopes found]
  | jumpTarget target =>
    Text.concat ["jump target ", Text.integer target, " outside the function"]
  | constantIndex index => Text.concat ["constant index ", Text.integer index, " out of range"]
  | localSlot slot => Text.concat ["local slot ", Text.integer slot, " out of range"]
  | globalIndex index => Text.concat ["global index ", Text.integer index, " out of range"]
  | functionIndex index => Text.concat ["function index ", Text.integer index, " out of range"]
  | negativeCount => "negative count operand"
  | tryTable table => Text.concat ["try table ", Text.integer table, " out of range"]
  | argumentCount callee given =>
    Text.concat ["call to '", callee, "' with ", Text.integer given, " arguments"]
  | errorTypeName => "error type name must be a string constant"
  | underflow => "stack underflow"
  | noOpenTry => "leaving a try block that is not open"
  | tryDepth table depth entered =>
    Text.concat ["leaving try ", Text.decimal table, " with stack depth ", Text.decimal depth,
      ", entered at ", Text.decimal entered]
  | noOpenFinally => "end of finally outside a finally block"
  | finallyDepth depth entered =>
    Text.concat ["finally block ends with stack depth ", Text.decimal depth, ", entered at ",
      Text.decimal entered]
  | returnDepth depth => Text.concat ["return with stack depth ", Text.decimal depth]
  | fallsOffEnd => "execution falls off the end of the function"
  | foreignTable table =>
    Text.concat ["try table ", Text.decimal table, " belongs to another function"]
  | catchFilter => "catch filter must be a string constant"

end FlowProblem

inductive VerifyError where
  | version (version : UInt32)
  | noMain
  | notContiguous (function : Text)
  | frameLayout (function : Text)
  | defaultCount (function : Text) (given arity : Nat)
  | requiredAfterDefault (function : Text)
  | defaultIndex (function : Text)
  | strayCode
  | lineCount (given instructions : Nat)
  | localTables (given functions : Nat)
  | localNames (given : Nat) (function : Text)
  | flow (function : Text) (address : Nat) (problem : FlowProblem)
  | unknownOpcode (e : UnknownOpcode)
deriving DecidableEq

namespace VerifyError

def wording : VerifyError → Text
  | version v => Text.concat ["Unsupported bytecode version ", Text.decimal v.toNat]
  | noMain => "Program has no main function"
  | notContiguous f => Text.concat ["Function '", f, "' does not cover a contiguous code range"]
  | frameLayout f => Text.concat ["Function '", f, "' has an invalid frame layout"]
  | defaultCount f given arity =>
    Text.concat ["Function '", f, "' has ", Text.decimal given, " default entries for ",
      Text.decimal arity, " parameters"]
  | requiredAfterDefault f =>
    Text.concat ["Function '", f, "' has a required parameter after a default"]
  | defaultIndex f => Text.concat ["Function '", f, "' has a default outside the constant pool"]
  | strayCode => "Code after the last function is not owned by any function"
  | lineCount given instructions =>
    Text.concat ["Debug info has ", Text.decimal given, " line entries for ",
      Text.decimal instructions, " instructions"]
  | localTables given functions =>
    Text.concat ["Debug info has local names for ", Text.decimal given, " of ",
      Text.decimal functions, " functions"]
  | localNames given f =>
    Text.concat ["Debug info names ", Text.decimal given, " locals of '", f, "'"]
  | flow f address problem =>
    Text.concat ["Function '", f, "' at ", Text.decimal address, ": ", problem.message]
  | unknownOpcode e => e.message

def message (e : VerifyError) : Text := e.wording.untilZero

end VerifyError
end ScriptMachine
