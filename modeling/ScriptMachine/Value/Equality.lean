import ScriptMachine.Value.Basic

namespace ScriptMachine
namespace Heap

/-- More than the number of pairs of collections that can be open at a time. -/
def compareDepth (h : Heap) : Nat := h.lists.size ^ 2 + h.dicts.size ^ 2 + 1

/-- Equality under the assumption that the pairs in `path` are equal, opening at most `depth` more
pairs. -/
def equalWithin (h : Heap) : Nat → List (Value × Value) → Value → Value → Bool
  | _, _, .nil, .nil => true
  | _, _, .number x, .number y => x.equal y
  | _, _, .boolean b, .boolean c => b == c
  | _, _, .string s, .string t => s == t
  | _, _, .error r, .error q => r == q
  | depth, path, .list r, .list q =>
    if (.list r, .list q) ∈ path then true
    else
      match depth with
      | 0 => false
      | depth + 1 =>
        let left := (h.items r).toList
        let right := (h.items q).toList
        left.length == right.length &&
          (left.zip right).all fun (v, w) =>
            equalWithin h depth ((.list r, .list q) :: path) v w
  | depth, path, .dict r, .dict q =>
    if (.dict r, .dict q) ∈ path then true
    else
      match depth with
      | 0 => false
      | depth + 1 =>
        let left := h.entries r
        let right := h.entries q
        left.length == right.length &&
          left.all fun (key, v) =>
            match right.find? key with
            | some w => equalWithin h depth ((.dict r, .dict q) :: path) v w
            | none => false
  | _, _, _, _ => false

def equal (h : Heap) (v w : Value) : Bool := h.equalWithin h.compareDepth [] v w

end Heap
end ScriptMachine
