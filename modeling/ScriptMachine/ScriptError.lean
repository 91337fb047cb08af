import ScriptMachine.Text

namespace ScriptMachine

inductive ErrorKind where
  | runtime
  | type
  | math
  | file
  | json
  | network
  | validation
  | stackOverflow
  | undefinedReference
  | custom
deriving DecidableEq, Inhabited

namespace ErrorKind

def name : ErrorKind → Text
  | runtime => "RuntimeError"
  | type => "TypeError"
  | math => "MathError"
  | file => "FileError"
  | json => "JsonError"
  | network => "NetworkError"
  | validation => "ValidationError"
  | stackOverflow => "StackOverflowError"
  | undefinedReference => "UndefinedReferenceError"
  | custom => "CustomError"

/-- The kinds that a type name can stand for. -/
def builtin : List ErrorKind :=
  [runtime, type, math, file, json, network, validation, stackOverflow, undefinedReference]

/-- Names of built-in kinds are read without regard to case; any other name is custom. -/
def ofName (typeName : Text) : ErrorKind :=
  (builtin.find? fun kind => Text.sameIgnoringCase typeName kind.name).getD custom

def description : ErrorKind → Text
  | runtime => "a runtime error"
  | type => "a type error"
  | math => "a math error"
  | file => "a file error"
  | json => "a JSON error"
  | network => "a network error"
  | validation => "a validation error"
  | stackOverflow => "a stack overflow error"
  | undefinedReference => "an undefined reference error"
  | custom => "an error"

end ErrorKind

/-- One call that was open when an error was raised; line 0 stands for an unknown line. -/
structure TraceFrame where
  function : Text
  instruction : Nat
  file : Text
  line : UInt32
deriving DecidableEq, Inhabited

structure ScriptError where
  kind : ErrorKind
  customName : Text := []
  message : Text
  /-- The open calls, innermost first. -/
  trace : List TraceFrame := []
deriving DecidableEq, Inhabited

namespace TraceFrame

def place (frame : TraceFrame) : Text :=
  if frame.line = 0 then Text.concat ["instruction ", Text.decimal frame.instruction]
  else if frame.file.isEmpty then Text.concat ["line ", Text.decimal frame.line.toNat]
  else Text.concat [frame.file, ":", Text.decimal frame.line.toNat]

end TraceFrame

namespace ScriptError

def make (kind : ErrorKind) (message : Text) : ScriptError := ⟨kind, [], message, []⟩

def ofTypeName (typeName message : Text) : ScriptError :=
  let kind := ErrorKind.ofName typeName
  ⟨kind, if kind = .custom then typeName else [], message, []⟩

def typeName (e : ScriptError) : Text := if e.kind = .custom then e.customName else e.kind.name

def matchesFilter (e : ScriptError) (filter : Text) : Bool :=
  Text.sameIgnoringCase e.typeName filter

def render (e : ScriptError) : Text :=
  if e.kind = .custom then Text.concat [e.customName, " occurred: ", e.message]
  else Text.concat ["Error occurred: ", e.kind.description, " - ", e.message]

/-- The rendered error, followed by one line for each open call. -/
def renderWithTrace (e : ScriptError) : Text :=
  if e.trace.isEmpty then e.render
  else
    Text.concat [e.render, "\nCall stack:",
      e.trace.flatMap fun frame => Text.concat ["\n  in ", frame.function, " at ", frame.place]]

end ScriptError
end ScriptMachine
