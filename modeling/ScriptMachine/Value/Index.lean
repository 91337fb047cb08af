import ScriptMachine.Value.Display

namespace ScriptMachine

def typeError (parts : List Text) : ScriptError := ScriptError.make .type (Text.concat parts)

def runtimeError (parts : List Text) : ScriptError := ScriptError.make .runtime (Text.concat parts)

namespace Heap

/-- The position in a sequence of `length` elements that an index stands for. -/
def position (h : Heap) (index : Value) (length : Nat) : Except ScriptError Nat :=
  let notWhole := typeError ["List index must be a whole number, got ", h.display index]
  match index with
  | .number x =>
    let outOfRange := runtimeError ["Index ", x.format, " is out of range for a list of length ",
      Text.decimal length]
    if x.isInfinite then .error outOfRange
    else
      match x.toInt? with
      | none => .error notWhole
      | some i =>
        let place := if i < 0 then i + length else i
        if 0 ≤ place ∧ place < length then .ok place.toNat else .error outOfRange
  | _ => .error notWhole

def badKey (index : Value) : ScriptError :=
  typeError ["Dictionary keys must be strings, got ", index.typeName]

def indexGet (h : Heap) (collection index : Value) : Except ScriptError Value :=
  match collection with
  | .list r => do
    let place ← h.position index (h.items r).size
    return (h.items r).getD place .nil
  | .string t => do
    let place ← h.position index t.length
    return .string (t[place]?.toList)
  | .dict r =>
    match index with
    | .string key =>
      match (h.entries r).find? key with
      | some v => .ok v
      | none => .error (runtimeError ["Key '", key, "' not found in dictionary"])
    | _ => .error (badKey index)
  | _ => .error (typeError ["Cannot index into a ", collection.typeName])

def indexSet (h : Heap) (collection index value : Value) : Except ScriptError Heap :=
  match collection with
  | .list r => do
    let place ← h.position index (h.items r).size
    return h.setItem r place value
  | .dict r =>
    match index with
    | .string key => .ok (h.setEntry r key value)
    | _ => .error (badKey index)
  | _ => .error (typeError ["Cannot assign into a ", collection.typeName])

end Heap
end ScriptMachine
