import ScriptMachine.Value.Basic

namespace ScriptMachine

inductive Constant where
  | number (x : Number)
  | string (t : Text)
  | boolean (b : Bool)
  | nil
deriving DecidableEq, Inhabited

namespace Constant

def toValue : Constant → Value
  | number x => .number x
  | string t => .string t
  | boolean b => .boolean b
  | nil => .nil

def describe : Constant → Text
  | number x => x.format
  | string t => t.quoted
  | boolean b => if b then "true" else "false"
  | nil => "nil"

def string? : Constant → Option Text
  | string t => some t
  | _ => none

/-- The text that a constant carries, which only a string has any of. -/
def text : Constant → Text
  | string t => t
  | _ => []

end Constant
end ScriptMachine
