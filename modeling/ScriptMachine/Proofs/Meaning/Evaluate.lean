import ScriptMachine.Compile.Expr
import ScriptMachine.Proofs.Meaning.Memory

/-!
The meaning of a tree, read off the tree. Loops and calls are followed up to a given number of
rounds, and a script that asks for more has no meaning yet. The one thing that comes from outside
is the room on the stack: how many frames and operands there are at a call, and how many it takes.
-/

namespace ScriptMachine

def BinaryOp.apply (op : BinaryOp) (h : Heap) (l r : Value) : Except ScriptError (Value × Heap) :=
  let pure (v : Except ScriptError Value) := v.map fun v => (v, h)
  match op with
  | .plus => h.add l r
  | .minus => pure (ArithmeticOp.sub.apply l r)
  | .times => pure (ArithmeticOp.mul.apply l r)
  | .dividedBy => pure (ArithmeticOp.div.apply l r)
  | .modulo => pure (ArithmeticOp.mod.apply l r)
  | .equal => .ok (.boolean (h.equal l r), h)
  | .notEqual => .ok (.boolean (!h.equal l r), h)
  | .less => pure (OrderOp.less.apply l r)
  | .lessEqual => pure (OrderOp.lessEqual.apply l r)
  | .greater => pure (OrderOp.greater.apply l r)
  | .greaterEqual => pure (OrderOp.greaterEqual.apply l r)

def UnaryOp.apply (op : UnaryOp) (h : Heap) (v : Value) : Except ScriptError Value :=
  match op with
  | .not => .ok (.boolean (!h.truthy v))
  | .negate => ScriptMachine.negate v

namespace Meaning

def fileText (files : Storage) : Value → Except ScriptError Value
  | .string path =>
    match files.read? path with
    | some content => .ok (.string content)
    | none => .error (Machine.fileError "read" path)
  | _ => .error Machine.pathError

def writtenFiles (files : Storage) (path : Value) (content : Text) : Except ScriptError Storage :=
  match path with
  | .string path =>
    match files.write? path content with
    | some files => .ok files
    | none => .error (Machine.fileError "write" path)
  | _ => .error Machine.pathError

/-- The error that a value is, or an error with the text of any other value. -/
def thrownError (h : Heap) : Value → ScriptError
  | .error r => h.error r
  | v => .make .runtime (h.display v)

/-- A computation with a value or an error, or without an end in the rounds it may take. -/
def Eval (α : Type) := Memory → Option (Except ScriptError α × Memory)

namespace Eval

instance : Monad Eval where
  pure a := fun μ => some (.ok a, μ)
  bind x f := fun μ =>
    match x μ with
    | none => none
    | some (.ok a, μ) => f a μ
    | some (.error e, μ) => some (.error e, μ)

def endless : Eval α := fun _ => none

def throw (e : ScriptError) : Eval α := fun μ => some (.error e, μ)

/-- Looks at the memory. -/
def query (f : Memory → Except ScriptError α) : Eval α := fun μ => some (f μ, μ)

def update (f : Memory → Except ScriptError (α × Memory)) : Eval α := fun μ =>
  match f μ with
  | .ok (a, μ) => some (.ok a, μ)
  | .error e => some (.error e, μ)

def onHeap (f : Heap → Except ScriptError (α × Heap)) : Eval α :=
  update fun μ => (f μ.heap).map fun (a, heap) => (a, { μ with heap })

def truth (v : Value) : Eval Bool := query fun μ => .ok (μ.heap.truthy v)

def global (name : Text) : Eval Value := query fun μ =>
  match μ.globals name with
  | some v => .ok v
  | none =>
    .error (.make .undefinedReference (Text.concat ["Variable '", name, "' is not defined"]))

def readFile (path : Value) : Eval Value := query fun μ => fileText μ.files path

def writeFile (content path : Value) : Eval Unit := update fun μ =>
  (writtenFiles μ.files path (μ.heap.display content)).map fun files => ((), { μ with files })

def print (v : Value) : Eval Unit := update fun μ =>
  .ok ((), { μ with output := μ.output ++ μ.heap.display v ++ ("\n" : Text) })

def readLine : Eval Value := update fun μ =>
  .ok (.string (Machine.firstLine μ.input).1, { μ with input := (Machine.firstLine μ.input).2 })

def throwValue (v : Value) : Eval Unit := query fun μ => .error (thrownError μ.heap v)

end Eval

/-- What a name stands for in a function. -/
structure Scope where
  isMain : Bool
  parameters : List Text
  /-- The names that the main program and the host set. -/
  known : List Text

def Scope.isLocal (s : Scope) (name : Text) : Bool :=
  !s.isMain && (s.parameters.contains name || !s.known.contains name)

abbrev Locals := Text → Value

def replace (f : Text → α) (name : Text) (a : α) : Text → α := fun other =>
  if other = name then a else f other

/-- A function at work. `base` is the height of the stack below its operands, and a call is given
the height of the stack below its arguments. -/
structure Activation where
  scope : Scope
  base : Nat
  call : Text → List Value → Nat → Eval Value

mutual

def expr (x : Activation) (locals : Locals) (height : Nat) : Expr → Eval Value
  | .number n => pure (.number n)
  | .string t => pure (.string t)
  | .boolean b => pure (.boolean b)
  | .nil => pure .nil
  | .identifier name => if x.scope.isLocal name then pure (locals name) else .global name
  | .unary op e => do
    let v ← expr x locals height e
    .query fun μ => op.apply μ.heap v
  | .binary op l r => do
    let left ← expr x locals height l
    let right ← expr x locals (height + 1) r
    .onHeap fun h => op.apply h left right
  | .logical op l r => do
    let left ← expr x locals height l
    let holds ← .truth left
    -- a left operand that holds decides `or`, and one that does not decides `and`
    if holds = decide (op = .or) then pure (.boolean holds)
    else do
      let right ← expr x locals height r
      let holds ← .truth right
      pure (.boolean holds)
  | .call name args => do
    let values ← exprs x locals height args
    x.call name values height
  | .list items => do
    let values ← exprs x locals height items
    .onHeap fun h => .ok (h.newList values.toArray)
  | .dict pairs => do
    let pairs ← entries x locals height pairs
    .onHeap fun h => .ok (h.newDict (.ofPairs pairs))
  | .index c i => do
    let collection ← expr x locals height c
    let position ← expr x locals (height + 1) i
    .query fun μ => μ.heap.indexGet collection position
  | .newError typeName e => do
    let message ← expr x locals height e
    .onHeap fun h => .ok (h.newError (.ofTypeName typeName (h.display message)))
  | .errorMessage e => do
    let v ← expr x locals height e
    .query fun μ => (μ.heap.expectError v).map fun e => .string e.message
  | .errorType e => do
    let v ← expr x locals height e
    .query fun μ => (μ.heap.expectError v).map fun e => .string e.typeName
  | .fileText e => do
    let path ← expr x locals height e
    .readFile path

def exprs (x : Activation) (locals : Locals) (height : Nat) : List Expr → Eval (List Value)
  | [] => pure []
  | e :: rest => do
    let v ← expr x locals height e
    let values ← exprs x locals (height + 1) rest
    pure (v :: values)

def entries (x : Activation) (locals : Locals) (height : Nat) :
    List (Text × Expr) → Eval (List (Text × Value))
  | [] => pure []
  | (key, e) :: rest => do
    let v ← expr x locals (height + 1) e
    let pairs ← entries x locals (height + 2) rest
    pure ((key, v) :: pairs)

end

/-- How statements end. -/
inductive Ending where
  | normal
  | exit (way : LoopExit)
  | ret (v : Value)
  | throw (e : ScriptError)

structure Store where
  locals : Locals
  memory : Memory

def Exec := Store → Option (Ending × Store)

namespace Exec

def ends (ending : Ending) : Exec := fun σ => some (ending, σ)

def evaluate (x : Locals → Eval α) (next : α → Exec) : Exec := fun σ =>
  match x σ.locals σ.memory with
  | none => none
  | some (.ok a, μ) => next a { σ with memory := μ }
  | some (.error e, μ) => some (.throw e, { σ with memory := μ })

/-- Stops at the first part that does not end normally. -/
def andThen (first rest : Exec) : Exec := fun σ =>
  match first σ with
  | some (.normal, σ) => rest σ
  | other => other

def assign (s : Scope) (name : Text) (v : Value) : Exec := fun σ =>
  some (.normal,
    if s.isLocal name then { σ with locals := replace σ.locals name v }
    else { σ with memory := { σ.memory with globals := replace σ.memory.globals name (some v) } })

/-- An empty name discards the value. -/
def take (s : Scope) (binder : Text) (v : Value) : Exec :=
  if binder.isEmpty then ends .normal else assign s binder v

def round (body next : Exec) : Exec := fun σ =>
  match body σ with
  | some (.normal, σ) => next σ
  | some (.exit .skip, σ) => next σ
  | some (.exit .stop, σ) => some (.normal, σ)
  | other => other

def whileLoop (test : Locals → Eval Bool) (body : Exec) : Nat → Exec
  | 0 => fun _ => none
  | rounds + 1 =>
    evaluate test fun holds =>
      if holds then round body (whileLoop test body rounds) else ends .normal

def countdown (body : Exec) : Nat → Value → Exec
  | 0, _ => fun _ => none
  | rounds + 1, count =>
    let more : Eval Bool := do
      let more ← .query fun _ => OrderOp.greater.apply count (.number .zero)
      .truth more
    let less : Eval Value := .query fun _ => ArithmeticOp.sub.apply count (.number .one)
    evaluate (fun _ => more) fun holds =>
      if holds then round body (evaluate (fun _ => less) (countdown body rounds)) else ends .normal

/-- The first handler for errors of this type, else the first for every error. -/
def select (e : ScriptError) (handlers : List (Text × (Value → Exec))) : Option (Value → Exec) :=
  let named (h : Text × (Value → Exec)) : Bool := !h.1.isEmpty && e.matchesFilter h.1
  (handlers.find? named <|> handlers.find? (·.1.isEmpty)).map Prod.snd

/-- Runs the handler of an error, which gets it as a new object. -/
def attempt (body : Exec) (handlers : List (Text × (Value → Exec))) : Exec := fun σ =>
  match body σ with
  | some (.throw e, σ) =>
    match select e handlers with
    | some handler => evaluate (fun _ => .onHeap fun h => .ok (h.newError e)) handler σ
    | none => some (.throw e, σ)
  | other => other

/-- Runs a finally block. If it ends normally, the earlier ending stands. -/
def conclude (cleanup : Option Exec) (body : Exec) : Exec := fun σ =>
  match cleanup, body σ with
  | some cleanup, some (ending, σ) => andThen cleanup (ends ending) σ
  | _, other => other

end Exec

mutual

def action (x : Activation) (rounds : Nat) : Action → Exec
  | .write e =>
    .evaluate (fun locals => do
      let v ← expr x locals x.base e
      .print v) fun _ => .ends .normal
  | .ask name => .evaluate (fun _ => .readLine) (.assign x.scope name)
  | .set name e => .evaluate (fun locals => expr x locals x.base e) (.assign x.scope name)
  | .setIndex c i e =>
    .evaluate (fun locals => do
      let collection ← expr x locals x.base c
      let position ← expr x locals (x.base + 1) i
      let v ← expr x locals (x.base + 2) e
      .onHeap fun h => (h.indexSet collection position v).map fun h => ((), h)) fun _ =>
      .ends .normal
  | .branch c yes no =>
    .evaluate (test x c) fun holds => if holds then block x rounds yes else block x rounds no
  | .whileLoop c b => .whileLoop (test x c) (block x rounds b) rounds
  | .repeatLoop n b =>
    .evaluate (fun locals => expr x locals x.base n) (.countdown (block x rounds b) rounds)
  | .exit way => .ends (.exit way)
  | .function _ _ _ => .ends .normal
  | .use name args =>
    .evaluate (fun locals => expr x locals x.base (.call name args)) fun _ => .ends .normal
  | .ret none => .ends (.ret .nil)
  | .ret (some e) => .evaluate (fun locals => expr x locals x.base e) fun v => .ends (.ret v)
  | .guard b hs c => .conclude (cleanup x rounds c)
      (.attempt (block x rounds b) (handlers x rounds hs))
  | .throw e =>
    .evaluate (fun locals => do
      let v ← expr x locals x.base e
      .throwValue v) fun _ => .ends .normal
  | .writeFile c e =>
    .evaluate (fun locals => do
      let content ← expr x locals x.base c
      let path ← expr x locals (x.base + 1) e
      .writeFile content path) fun _ => .ends .normal
where
  test (x : Activation) (c : Expr) (locals : Locals) : Eval Bool := do
    let v ← expr x locals x.base c
    .truth v

def handlers (x : Activation) (rounds : Nat) : List Handler → List (Text × (Value → Exec))
  | [] => []
  | .mk typeName binder b :: rest =>
    (typeName, fun v => .andThen (.take x.scope binder v) (block x rounds b)) ::
      handlers x rounds rest

def cleanup (x : Activation) (rounds : Nat) : Option (List Stmt) → Option Exec
  | none => none
  | some b => some (block x rounds b)

def block (x : Activation) (rounds : Nat) : List Stmt → Exec
  | [] => .ends .normal
  | .mk _ a :: rest => .andThen (action x rounds a) (block x rounds rest)

end

/-- Parameters stand for the arguments, or for their defaults where there are too few; all other
locals start as nil. -/
def bind : List Parameter → List Value → Locals
  | [], _ => fun _ => .nil
  | q :: rest, v :: values => fun name => if name = q.name then v else bind rest values name
  | q :: rest, [] => fun name =>
    if name = q.name then ((q.fallback.bind Expr.literal?).map Constant.toValue).getD .nil
    else bind rest [] name

def activate (body : Exec) (locals : Locals) : Eval Value := fun μ =>
  match body ⟨locals, μ⟩ with
  | none => none
  | some (.ret v, σ) => some (.ok v, σ.memory)
  | some (.throw e, σ) => some (.error e, σ.memory)
  | some (_, σ) => some (.ok .nil, σ.memory)

/-- A tree, the globals that the host sets, and the room on the stack. -/
structure Script where
  tree : List Stmt
  hostGlobals : List Text
  limits : Machine.Limits
  /-- The room that the main program takes up, and that of each function. -/
  main : Function
  function : Text → Function

namespace Script

def known (S : Script) : List Text := S.hostGlobals ++ assignedNames S.tree

def declaration? (S : Script) (name : Text) : Option Declaration :=
  (S.tree.filterMap Stmt.declaration?).find? (·.name = name)

/-- A call from a number of frames on, in at most so many rounds. -/
def call (S : Script) : Nat → Nat → Text → List Value → Nat → Eval Value
  | 0, _, _, _, _ => .endless
  | rounds + 1, frames, name, args, height =>
    match S.declaration? name,
      Machine.refusal? S.limits (S.function name) frames height args.length with
    | some d, none =>
      let x : Activation :=
        { scope := ⟨false, d.parameters.map Parameter.name, S.known⟩
          base := height + (S.function name).localCount
          call := S.call rounds (frames + 1) }
      activate (block x rounds d.body) (bind d.parameters args)
    | some _, some e => .throw e
    | none, _ => .throw (.make .undefinedReference name)

/-- The run of the main program, in at most so many rounds. -/
def run (S : Script) (rounds : Nat) : Eval Value :=
  match Machine.refusal? S.limits S.main 0 0 0 with
  | some e => .throw e
  | none =>
    let x : Activation :=
      { scope := ⟨true, [], S.known⟩
        base := S.main.localCount
        call := S.call rounds 1 }
    activate (block x rounds S.tree) fun _ => .nil

end Script

mutual

def exprVariables : Expr → List Text
  | .identifier name => [name]
  | .unary _ e => exprVariables e
  | .binary _ l r => exprVariables l ++ exprVariables r
  | .logical _ l r => exprVariables l ++ exprVariables r
  | .call _ args => exprsVariables args
  | .list items => exprsVariables items
  | .dict pairs => entriesVariables pairs
  | .index c i => exprVariables c ++ exprVariables i
  | .newError _ e => exprVariables e
  | .errorMessage e => exprVariables e
  | .errorType e => exprVariables e
  | .fileText e => exprVariables e
  | _ => []

def exprsVariables : List Expr → List Text
  | [] => []
  | e :: rest => exprVariables e ++ exprsVariables rest

def entriesVariables : List (Text × Expr) → List Text
  | [] => []
  | (_, e) :: rest => exprVariables e ++ entriesVariables rest

end

mutual

/-- The variables of a statement, parameters and the names of caught errors among them. -/
def actionVariables : Action → List Text
  | .write e => exprVariables e
  | .ask name => [name]
  | .set name e => name :: exprVariables e
  | .setIndex c i e => exprVariables c ++ exprVariables i ++ exprVariables e
  | .branch c yes no => exprVariables c ++ blockVariables yes ++ blockVariables no
  | .whileLoop c b => exprVariables c ++ blockVariables b
  | .repeatLoop n b => exprVariables n ++ blockVariables b
  | .exit _ => []
  | .function _ parameters b => parameters.map Parameter.name ++ blockVariables b
  | .use _ args => exprsVariables args
  | .ret none => []
  | .ret (some e) => exprVariables e
  | .guard b hs c => blockVariables b ++ handlersVariables hs ++ cleanupVariables c
  | .throw e => exprVariables e
  | .writeFile c e => exprVariables c ++ exprVariables e

def handlersVariables : List Handler → List Text
  | [] => []
  | .mk _ binder b :: rest => binder :: blockVariables b ++ handlersVariables rest

def cleanupVariables : Option (List Stmt) → List Text
  | none => []
  | some b => blockVariables b

def blockVariables : List Stmt → List Text
  | [] => []
  | .mk _ a :: rest => actionVariables a ++ blockVariables rest

end

mutual

def actionReturns : Action → Bool
  | .branch _ yes no => blockReturns yes || blockReturns no
  | .whileLoop _ b => blockReturns b
  | .repeatLoop _ b => blockReturns b
  | .ret _ => true
  | .guard b hs c => blockReturns b || handlersReturn hs || cleanupReturns c
  | _ => false

def handlersReturn : List Handler → Bool
  | [] => false
  | .mk _ _ b :: rest => blockReturns b || handlersReturn rest

def cleanupReturns : Option (List Stmt) → Bool
  | none => false
  | some b => blockReturns b

def blockReturns : List Stmt → Bool
  | [] => false
  | .mk _ a :: rest => actionReturns a || blockReturns rest

end

mutual

/-- No finally block in a statement has a return in it. -/
def actionTidy : Action → Bool
  | .branch _ yes no => blockTidy yes && blockTidy no
  | .whileLoop _ b => blockTidy b
  | .repeatLoop _ b => blockTidy b
  | .function _ _ b => blockTidy b
  | .guard b hs c => blockTidy b && handlersTidy hs && cleanupTidy c && !cleanupReturns c
  | _ => true

def handlersTidy : List Handler → Bool
  | [] => true
  | .mk _ _ b :: rest => blockTidy b && handlersTidy rest

def cleanupTidy : Option (List Stmt) → Bool
  | none => true
  | some b => blockTidy b

def blockTidy : List Stmt → Bool
  | [] => true
  | .mk _ a :: rest => actionTidy a && blockTidy rest

end

end Meaning
end ScriptMachine
