import ScriptMachine.Value.Basic

namespace ScriptMachine
namespace Heap

/-- More than the number of collections that can be open at a time. -/
def displayDepth (h : Heap) : Nat := h.lists.size + h.dicts.size + 1

/-- The text of a value inside a collection, given the collections that are being written, and the
number of collections that may still be opened. -/
def displayWithin (h : Heap) : Nat → List Value → Value → Text
  | _, _, .nil => "null"
  | _, _, .number x => x.format
  | _, _, .boolean b => if b then "true" else "false"
  | _, _, .string t => t.quoted
  | _, _, .error r => (h.error r).render
  | depth, path, .list r =>
    if .list r ∈ path then "[...]"
    else
      match depth with
      | 0 => []
      | depth + 1 =>
        let texts := (h.items r).toList.map (displayWithin h depth (.list r :: path))
        Text.concat ["[", Text.join ", " texts, "]"]
  | depth, path, .dict r =>
    if .dict r ∈ path then "\x7b...\x7d"
    else
      match depth with
      | 0 => []
      | depth + 1 =>
        let texts := (h.entries r).map fun (key, value) =>
          Text.concat [key, ": ", displayWithin h depth (.dict r :: path) value]
        Text.concat ["\x7b", Text.join ", " texts, "\x7d"]

/-- The text of a value as scripts print it; a string stands for itself. -/
def display (h : Heap) : Value → Text
  | .string t => t
  | v => h.displayWithin h.displayDepth [] v

end Heap
end ScriptMachine
