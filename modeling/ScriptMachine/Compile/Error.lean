import ScriptMachine.Tree
import ScriptMachine.Verify.Error

namespace ScriptMachine

inductive CompileErrorKind where
  | undefinedReference
  | operandOverflow
  | arity
  | unresolvedJump
  | structural
  | verification
deriving DecidableEq

def CompileErrorKind.name : CompileErrorKind → Text
  | undefinedReference => "UndefinedReference"
  | operandOverflow => "OperandOverflow"
  | arity => "Arity"
  | unresolvedJump => "UnresolvedJump"
  | structural => "Structure"
  | verification => "Verification"

inductive CompileError where
  | undefinedReference (name : Text)
  | tooMany (what : Text)
  | tooManyLocals (function : Text)
  | tooManyParameters (function : Text)
  | tooManyArguments (function : Text) (arity given : Nat)
  | tooFewArguments (function : Text) (required given : Nat)
  | unresolvedJump (address : Nat) (function : Text)
  | duplicateFunction (name : Text)
  | missingDefault (parameter function : Text)
  | defaultNotLiteral (parameter : Text)
  | duplicateParameter (parameter function : Text)
  | exitOutsideLoop (way : LoopExit)
  | exitFromFinally (way : LoopExit)
  | nestedFunction (name : Text)
  | verification (e : VerifyError)
deriving DecidableEq

def LoopExit.keyword : LoopExit → Text
  | stop => "stop"
  | skip => "skip"

namespace CompileError

def kind : CompileError → CompileErrorKind
  | undefinedReference _ => .undefinedReference
  | tooMany _ | tooManyLocals _ => .operandOverflow
  | tooManyParameters _ | tooManyArguments .. | tooFewArguments .. => .arity
  | unresolvedJump .. => .unresolvedJump
  | duplicateFunction _ | missingDefault .. | defaultNotLiteral _ | duplicateParameter ..
  | exitOutsideLoop _ | exitFromFinally _ | nestedFunction _ => .structural
  | verification _ => .verification

def wording : CompileError → Text
  | undefinedReference name => Text.concat ["Undefined reference: '", name, "'"]
  | tooMany what =>
    Text.concat ["Too many ", what, " (operand limit ", Text.decimal maxOperand, ")"]
  | tooManyLocals f =>
    Text.concat ["Too many local variables in '", f, "' (limit ", Text.decimal maxLocals, ")"]
  | tooManyParameters f =>
    Text.concat ["Function '", f, "' declares more than ", Text.decimal maxArguments,
      " parameters"]
  | tooManyArguments f arity given =>
    Text.concat ["Function '", f, "' takes ", Text.decimal arity, " arguments but ",
      Text.decimal given, " were given"]
  | tooFewArguments f required given =>
    Text.concat ["Function '", f, "' requires ", Text.decimal required, " arguments but ",
      Text.decimal given, " were given"]
  | unresolvedJump address f =>
    Text.concat ["Unresolved jump at ", Text.decimal address, " in '", f, "'"]
  | duplicateFunction name => Text.concat ["Duplicate function name: ", name]
  | missingDefault parameter f =>
    Text.concat ["Parameter '", parameter, "' of '", f, "' needs a default value"]
  | defaultNotLiteral parameter =>
    Text.concat ["Default value of '", parameter, "' must be a literal"]
  | duplicateParameter parameter f =>
    Text.concat ["Duplicate parameter '", parameter, "' in '", f, "'"]
  | exitOutsideLoop way => Text.concat ["'", way.keyword, "' used outside of a loop"]
  | exitFromFinally way => Text.concat ["'", way.keyword, "' cannot leave a finally block"]
  | nestedFunction name => Text.concat ["Function '", name, "' must be defined at the top level"]
  | verification e => e.message

def message (e : CompileError) : Text := e.wording.untilZero

end CompileError
end ScriptMachine
