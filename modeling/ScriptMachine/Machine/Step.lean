import ScriptMachine.Machine.Operation
import ScriptMachine.Machine.Raise

namespace ScriptMachine
namespace Machine

/-- Pushes a result, or raises the error that came instead. -/
def settle (p : Program) (s : State) : Except ScriptError Value → Option Progress
  | .ok v => some (.next (s.push v))
  | .error e => raise p s e

def pop2? (s : State) : Option (Value × Value × State) := do
  let (right, s) ← s.pop?
  let (left, s) ← s.pop?
  return (left, right, s)

def binary (p : Program) (s : State) (f : Heap → Value → Value → Except ScriptError Value) :
    Option Progress := do
  let (left, right, s) ← pop2? s
  settle p s (f s.world.heap left right)

def unary (p : Program) (s : State) (f : Heap → Value → Except ScriptError Value) :
    Option Progress := do
  let (v, s) ← s.pop?
  settle p s (f s.world.heap v)

def loadGlobal (p : Program) (s : State) (index : Nat) : Option Progress := do
  match ← s.world.globals[index]? with
  | some v => return .next (s.push v)
  | none =>
    let name ← p.globals[index]?
    raise p s (.make .undefinedReference (Text.concat ["Variable '", name, "' is not defined"]))

def storeGlobal (s : State) (index : Nat) : Option Progress := do
  let (v, s) ← s.pop?
  let globals := s.world.globals.setIfInBounds index (some v)
  if index < globals.size then return .next { s with world := { s.world with globals } }
  else none

def storeLocal (s : State) (slot : Nat) : Option Progress := do
  let (v, s) ← s.pop?
  let place := s.frame.base + slot
  if place < s.stack.size then return .next { s with stack := s.stack.setIfInBounds place v }
  else none

def add (p : Program) (s : State) : Option Progress := do
  let (left, right, s) ← pop2? s
  match s.world.heap.add left right with
  | .ok (v, h) => return .next ((s.setHeap h).push v)
  | .error e => raise p s e

def makeList (s : State) (count : Nat) : Option Progress :=
  if count ≤ s.stack.size then
    let below := s.stack.size - count
    let items := s.stack.extract below s.stack.size
    let s := { s with stack := s.stack.shrink below }
    some (.next (s.pushNew (·.newList items)))
  else none

def makeDict (p : Program) (s : State) (count : Nat) : Option Progress :=
  if count * 2 ≤ s.stack.size then
    let below := s.stack.size - count * 2
    let pairs := pairUp (s.stack.extract below s.stack.size).toList
    let s := { s with stack := s.stack.shrink below }
    match pairs with
    | .ok pairs => some (.next (s.pushNew (·.newDict (Dict.ofPairs pairs))))
    | .error e => raise p s e
  else none

def indexSet (p : Program) (s : State) : Option Progress := do
  let (v, s) ← s.pop?
  let (collection, index, s) ← pop2? s
  match s.world.heap.indexSet collection index v with
  | .ok h => return .next (s.setHeap h)
  | .error e => raise p s e

def pushTry (s : State) (table : Nat) : Progress :=
  .next { s with
    guards := ⟨table, s.depth, s.stack.size, s.pending.size, .body⟩ :: s.guards }

/-- Leaves the innermost try construct for an address, by way of its finally block. -/
def popTry (p : Program) (s : State) (target : Nat) : Option Progress :=
  let refused := raise p s (.make .runtime "Internal error: no active try block to leave")
  match s.guards with
  | [] => refused
  | g :: outer =>
    if g.frame ≠ s.depth then refused
    else
      match p.tries[g.table]? with
      | none => none
      | some t =>
        match t.cleanup? with
        | none => some (.next ({ s with guards := outer }.jump target))
        | some cleanup =>
          let s := { s with guards := outer, pending := s.pending.push ⟨g.frame, .jump target⟩ }
          some (.next (s.jump cleanup.toInt.toNat))

/-- Goes on with what waits for the end of a finally block. -/
def endFinally (p : Program) (s : State) : Option Progress :=
  let refused := raise p s (.make .runtime "Internal error: finally block has nothing to resume")
  match s.pending.back? with
  | none => refused
  | some pending =>
    if pending.frame ≠ s.depth then refused
    else
      let s := { s with pending := s.pending.pop }
      match pending.completion with
      | .jump target => some (.next (s.jump target))
      | .rethrow e => raise p s e
      | .result v => completeReturn p s v

/-- Throws an error value, or any other value as the text of a new error. -/
def throw (p : Program) (s : State) : Option Progress := do
  let (v, s) ← s.pop?
  match v with
  | .error r => raise p s (s.world.heap.error r)
  | _ => raise p s (.make .runtime (s.world.heap.display v))

def makeError (p : Program) (s : State) (index : Nat) : Option Progress := do
  let typeName := (← p.constants[index]?).text
  let (v, s) ← s.pop?
  let message := s.world.heap.display v
  return .next (s.pushNew (·.newError (.ofTypeName typeName message)))

def print (s : State) : Option Progress := do
  let (v, s) ← s.pop?
  return .next ((s.print (s.world.heap.display v)).print "\n")

def input (s : State) : Progress :=
  let (line, rest) := firstLine s.world.input
  .next ({ s with world := { s.world with input := rest } }.push (.string line))

def pathError : ScriptError := typeError ["File path must be a string"]

def fileError (verb path : Text) : ScriptError :=
  .make .file (Text.concat ["Could not ", verb, " file '", path, "'"])

def readFile (p : Program) (s : State) : Option Progress := do
  let (path, s) ← s.pop?
  match path with
  | .string path =>
    match s.world.files.read? path with
    | some content => return .next (s.push (.string content))
    | none => raise p s (fileError "read" path)
  | _ => raise p s pathError

def writeFile (p : Program) (s : State) : Option Progress := do
  let (content, path, s) ← pop2? s
  match path with
  | .string path =>
    match s.world.files.write? path (s.world.heap.display content) with
    | some files => return .next { s with world := { s.world with files } }
    | none => raise p s (fileError "write" path)
  | _ => raise p s pathError

def execute (p : Program) (limits : Limits) (s : State) (op : Opcode) (ins : Instruction) :
    Option Progress :=
  let a := ins.a.toNat
  match op with
  | .loadConst => (p.constants[a]?).map fun c => .next (s.push c.toValue)
  | .loadLocal => (s.stack[s.frame.base + a]?).map fun v => .next (s.push v)
  | .storeLocal => storeLocal s a
  | .loadGlobal => loadGlobal p s a
  | .storeGlobal => storeGlobal s a
  | .add => add p s
  | .sub => binary p s fun _ => ArithmeticOp.sub.apply
  | .mul => binary p s fun _ => ArithmeticOp.mul.apply
  | .div => binary p s fun _ => ArithmeticOp.div.apply
  | .mod => binary p s fun _ => ArithmeticOp.mod.apply
  | .negate => unary p s fun _ => negate
  | .not => unary p s fun h v => .ok (.boolean (!h.truthy v))
  | .equal => binary p s fun h l r => .ok (.boolean (h.equal l r))
  | .notEqual => binary p s fun h l r => .ok (.boolean (!h.equal l r))
  | .less => binary p s fun _ => OrderOp.less.apply
  | .lessEqual => binary p s fun _ => OrderOp.lessEqual.apply
  | .greater => binary p s fun _ => OrderOp.greater.apply
  | .greaterEqual => binary p s fun _ => OrderOp.greaterEqual.apply
  | .jump => some (.next (s.jump a))
  | .jumpIfFalse => (s.pop?).map fun (v, s) => .next (if s.world.heap.truthy v then s else s.jump a)
  | .pop => (s.pop?).map fun (_, s) => .next s
  | .call => call p limits s a ins.b.toNat
  | .ret => (s.pop?).bind fun (v, s) => completeReturn p s v
  | .makeList => makeList s a
  | .makeDict => makeDict p s a
  | .indexGet => binary p s Heap.indexGet
  | .indexSet => indexSet p s
  | .pushTry => some (pushTry s a)
  | .popTry => popTry p s a
  | .endFinally => endFinally p s
  | .throw => throw p s
  | .makeError => makeError p s a
  | .errorMessage => unary p s fun h v => (h.expectError v).map fun e => .string e.message
  | .errorType => unary p s fun h v => (h.expectError v).map fun e => .string e.typeName
  | .print => print s
  | .input => some (input s)
  | .readFile => readFile p s
  | .writeFile => writeFile p s
  | .halt => some (s.finish (.returned .nil))

def step (p : Program) (limits : Limits) (s : State) : Option Progress := do
  let ins ← p.code[s.frame.ip]?
  let op ← ins.op?
  execute p limits (s.fetched op) op ins

end Machine
end ScriptMachine
