import ScriptMachine.Machine.State

namespace ScriptMachine
namespace Machine

inductive Request where
  | line
  | read (path : Text)
  | write (path : Text)
deriving DecidableEq

def request? (p : Program) (s : State) : Option Request :=
  match (p.code[s.frame.ip]?).bind Instruction.op?, s.stack.back? with
  | some .input, _ => some .line
  | some .readFile, some (.string path) => some (.read path)
  | some .writeFile, some (.string path) => some (.write path)
  | _, _ => none

end Machine
end ScriptMachine
