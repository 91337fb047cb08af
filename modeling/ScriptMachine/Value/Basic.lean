import ScriptMachine.Number.Decimal
import ScriptMachine.ScriptError

namespace ScriptMachine

abbrev Ref := Nat

inductive Value where
  | nil
  | number (x : Number)
  | boolean (b : Bool)
  | string (t : Text)
  | list (r : Ref)
  | dict (r : Ref)
  | error (r : Ref)
deriving DecidableEq, Inhabited

inductive ValueType where
  | nil
  | number
  | boolean
  | string
  | list
  | dict
  | error
deriving DecidableEq

namespace ValueType

def name : ValueType → Text
  | nil => "nil"
  | number => "number"
  | boolean => "boolean"
  | string => "string"
  | list => "list"
  | dict => "dictionary"
  | error => "error"

/-- The name of the shared object behind a value of this type, if there is one. -/
def objectName? : ValueType → Option Text
  | list => some "List"
  | dict => some "Dictionary"
  | error => some "Error"
  | _ => none

end ValueType

abbrev Dict := List (Text × Value)

namespace Dict

def find? (key : Text) (d : Dict) : Option Value := d.lookup key

/-- Replaces the value of a known key in its place and puts a new key at the end. -/
def set (key : Text) (value : Value) : Dict → Dict
  | [] => [(key, value)]
  | (k, v) :: rest => if k = key then (k, value) :: rest else (k, v) :: set key value rest

def ofPairs (pairs : List (Text × Value)) : Dict :=
  pairs.foldl (fun d pair => set pair.1 pair.2 d) []

end Dict

structure Heap where
  lists : Array (Array Value) := #[]
  dicts : Array Dict := #[]
  errors : Array ScriptError := #[]
deriving DecidableEq, Inhabited

namespace Heap

def items (h : Heap) (r : Ref) : Array Value := h.lists.getD r #[]

def entries (h : Heap) (r : Ref) : Dict := h.dicts.getD r []

def error (h : Heap) (r : Ref) : ScriptError := h.errors.getD r default

def newList (h : Heap) (items : Array Value) : Value × Heap :=
  (.list h.lists.size, { h with lists := h.lists.push items })

def newDict (h : Heap) (d : Dict) : Value × Heap :=
  (.dict h.dicts.size, { h with dicts := h.dicts.push d })

def newError (h : Heap) (e : ScriptError) : Value × Heap :=
  (.error h.errors.size, { h with errors := h.errors.push e })

def pushItem (h : Heap) (r : Ref) (v : Value) : Heap :=
  { h with lists := h.lists.modify r fun items => items.push v }

def setItem (h : Heap) (r : Ref) (i : Nat) (v : Value) : Heap :=
  { h with lists := h.lists.modify r fun items => items.setIfInBounds i v }

def setEntry (h : Heap) (r : Ref) (key : Text) (v : Value) : Heap :=
  { h with dicts := h.dicts.modify r fun d => d.set key v }

end Heap

/-- A value was asked for as a type that it does not have. -/
structure TypeMismatch where
  expected : ValueType
deriving DecidableEq

def TypeMismatch.message (e : TypeMismatch) : Text := Text.concat ["Value is not ", e.expected.name]

namespace Value

def type : Value → ValueType
  | nil => .nil
  | number _ => .number
  | boolean _ => .boolean
  | string _ => .string
  | list _ => .list
  | dict _ => .dict
  | error _ => .error

def typeName (v : Value) : Text := v.type.name

def asNumber : Value → Except TypeMismatch Number
  | number x => .ok x
  | _ => .error ⟨.number⟩

def asBoolean : Value → Except TypeMismatch Bool
  | boolean b => .ok b
  | _ => .error ⟨.boolean⟩

def asString : Value → Except TypeMismatch Text
  | string t => .ok t
  | _ => .error ⟨.string⟩

def asList : Value → Except TypeMismatch Ref
  | list r => .ok r
  | _ => .error ⟨.list⟩

def asDict : Value → Except TypeMismatch Ref
  | dict r => .ok r
  | _ => .error ⟨.dict⟩

def asError : Value → Except TypeMismatch Ref
  | error r => .ok r
  | _ => .error ⟨.error⟩

end Value

/-- Nil, false, zero and whatever is empty count as false. -/
def Heap.truthy (h : Heap) : Value → Bool
  | .nil => false
  | .number x => !x.isZero
  | .boolean b => b
  | .string t => !t.isEmpty
  | .list r => !(h.items r).isEmpty
  | .dict r => !(h.entries r).isEmpty
  | .error _ => true

end ScriptMachine
