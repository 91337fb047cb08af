import ScriptMachine.ScriptError
import ScriptMachine.Storage

namespace ScriptMachine

structure Log where
  path : Text := "Error.log"
  toFile : Bool := true
  toConsole : Bool := true

namespace Log

def rule : Text := Text.concat [List.replicate 80 0x3d, "\n"]

def field (name value : Text) : Text := Text.concat [name, ": ", value, "\n"]

def optionalField (name value : Text) : Text := if value.isEmpty then [] else field name value

/-- A titled part that is left out when it has no lines. -/
def part (title : Text) (lines : List Text) : Text :=
  if lines.isEmpty then [] else Text.concat ["\n--- ", title, " ---\n", Text.concat lines]

def details (items : List (Text × Text)) : Text :=
  part "Debug Context" (items.map fun (name, value) => field name value)

def block (kind time body : Text) : Text :=
  Text.concat ["\n", rule, kind, " LOG - ", time, "\n", rule, body, rule, "\n"]

def errorBlock (time message function file : Text) (line : Int) : Text :=
  block "ERROR" time (Text.concat [
    field "Message" message,
    optionalField "Function" function,
    optionalField "File" file,
    if 0 < line then field "Line" (Text.integer line) else []])

def machineBlock (time message function : Text) (instruction : Nat) (calls : List Text)
    (context : Text) (items : List (Text × Text)) : Text :=
  block "VM ERROR" time (Text.concat [
    field "Message" message,
    part "VM State" [field "Current Function" function,
      field "Instruction" (Text.decimal instruction)],
    part "Script Call Stack" (calls.mapIdx fun i call =>
      Text.concat ["  [", Text.decimal i, "] ", call, "\n"]),
    if context.isEmpty then [] else part "Additional Context" [context, "\n"],
    details items])

/-- The block of a failure outside scripts, whose message ends at its first zero byte. -/
def exceptionBlock (time type message context : Text) (items : List (Text × Text)) : Text :=
  block "EXCEPTION" time (Text.concat [
    field "Exception Type" type,
    field "Message" message.untilZero,
    optionalField "Context" context,
    details items])

/-- The files with a block added to the log; a log that cannot be opened is left alone. -/
def record (log : Log) (files : Storage) (text : Text) : Storage :=
  if log.toFile && !log.path.isEmpty then (files.append? log.path text).getD files else files

def shown (log : Log) (text : Text) : Text := if log.toConsole then text else []

def describeCall (frame : TraceFrame) : Text :=
  Text.concat [frame.function, " at instruction ", Text.decimal frame.instruction,
    if frame.line = 0 then [] else Text.concat [" (", frame.place, ")"]]

def uncaughtBlock (time function : Text) (e : ScriptError) : Text :=
  let innermost := e.trace.head?
  machineBlock time e.render ((innermost.map TraceFrame.function).getD function)
    ((innermost.map TraceFrame.instruction).getD 0) (e.trace.map describeCall)
    (Text.concat ["Error Type: ", e.typeName]) []

end Log
end ScriptMachine
