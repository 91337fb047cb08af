import ScriptMachine.Number.Arithmetic
import ScriptMachine.Value.Equality
import ScriptMachine.Value.Index

namespace ScriptMachine

def typePair (l r : Value) : Text := Text.concat [l.typeName, " and ", r.typeName]

inductive ArithmeticOp where
  | sub
  | mul
  | div
  | mod
deriving DecidableEq

inductive OrderOp where
  | less
  | lessEqual
  | greater
  | greaterEqual
deriving DecidableEq

namespace Heap

/-- Numbers are added, anything is joined to a string as text, and lists are joined to a new one. -/
def add (h : Heap) (l r : Value) : Except ScriptError (Value × Heap) :=
  match l, r with
  | .number x, .number y => .ok (.number (x.add y), h)
  | .string _, _ | _, .string _ => .ok (.string (h.display l ++ h.display r), h)
  | .list a, .list b => .ok (h.newList (h.items a ++ h.items b))
  | _, _ => .error (typeError ["Cannot add ", typePair l r])

end Heap

def ArithmeticOp.apply (op : ArithmeticOp) (l r : Value) : Except ScriptError Value :=
  let divideByZero := ScriptError.make .math "Cannot divide by zero"
  match l, r with
  | .number x, .number y =>
    match op with
    | sub => .ok (.number (x.sub y))
    | mul => .ok (.number (x.mul y))
    | div => if y.isZero then .error divideByZero else .ok (.number (x.div y))
    | mod => if y.isZero then .error divideByZero else .ok (.number (x.rem y))
  | _, _ => .error (typeError ["Arithmetic on ", typePair l r, " is not supported"])

def OrderOp.holds (op : OrderOp) (o : Ordering) : Bool :=
  match op with
  | less => o.isLT
  | lessEqual => o.isLE
  | greater => o.isGT
  | greaterEqual => o.isGE

/-- Numbers and strings are ordered; no order holds with a NaN. -/
def OrderOp.apply (op : OrderOp) (l r : Value) : Except ScriptError Value :=
  match l, r with
  | .number x, .number y => .ok (.boolean ((x.order? y).any op.holds))
  | .string s, .string t => .ok (.boolean (op.holds (Text.order s t)))
  | _, _ => .error (typeError ["Cannot compare ", typePair l r])

def negate (v : Value) : Except ScriptError Value :=
  match v with
  | .number x => .ok (.number x.negate)
  | _ => .error (typeError ["Cannot negate a ", v.typeName])

def pairUp : List Value → Except ScriptError (List (Text × Value))
  | .string key :: value :: rest => do return (key, value) :: (← pairUp rest)
  | key :: _ :: _ => .error (Heap.badKey key)
  | _ => .ok []

def Heap.expectError (h : Heap) (v : Value) : Except ScriptError ScriptError :=
  match v with
  | .error r => .ok (h.error r)
  | _ => .error (typeError ["Expected an error value, got ", v.typeName])

end ScriptMachine
