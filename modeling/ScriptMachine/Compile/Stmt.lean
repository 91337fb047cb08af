import ScriptMachine.Compile.Expr

namespace ScriptMachine
namespace Compile

/-- A place in the code: an instruction, or the jump of a loop exit whose loop is not complete. -/
inductive Slot where
  | fixed (ins : Instruction)
  | unclosed (way : LoopExit)
deriving DecidableEq

structure Placed where
  slot : Slot
  line : UInt32
deriving DecidableEq

structure Fragment where
  code : List Placed := []
  tables : List TryTable := []
deriving DecidableEq

namespace Fragment

def append (f g : Fragment) : Fragment := ⟨f.code ++ g.code, f.tables ++ g.tables⟩

instance : Append Fragment := ⟨append⟩

def size (f : Fragment) : Nat := f.code.length

def ofCode (line : UInt32) (code : List Instruction) : Fragment :=
  ⟨code.map fun ins => ⟨.fixed ins, line⟩, []⟩

def closeExits (stop skip : BitVec 24) (f : Fragment) : Fragment :=
  let close : Slot → Slot
    | .unclosed .stop => .fixed (.of .jump stop)
    | .unclosed .skip => .fixed (.of .jump skip)
    | slot => slot
  { f with code := f.code.map fun p => { p with slot := close p.slot } }

end Fragment

def emit (cx : Context) (code : List Instruction) : Fragment := .ofCode cx.line code

/-- Leaves `count` try constructs one after the other, each exit going on to the next. -/
def leaveTries : Nat → Nat → Build (List Instruction)
  | _, 0 => return []
  | start, count + 1 => do
    let ins := .of .popTry (← address (start + 1))
    return ins :: (← leaveTries (start + 1) count)

def loopExit (cx : Context) (start : Nat) (way : LoopExit) : Build Fragment := do
  match cx.loop with
  | none => fail (.exitOutsideLoop way)
  | some (tries, cleanups) =>
    if cleanups ≠ cx.cleanups then fail (.exitFromFinally way)
    else
      let leave ← leaveTries start (cx.tries - tries)
      return emit cx leave ++ ⟨[⟨.unclosed way, cx.line⟩], []⟩

/-- The filter of a catch clause; an empty type name filters nothing. -/
def filterIndex (typeName : Text) : Build Int32 := do
  if typeName.isEmpty then return noIndex
  else return Int32.ofNat (← constantIndex (.string typeName)).toNat

def catchStart (cx : Context) (binder : Text) : Build Instruction :=
  if binder.isEmpty then return .of .pop else store cx binder

def Context.inLoop (cx : Context) : Context :=
  { cx with nested := true, loop := some (cx.tries, cx.cleanups) }

def Context.inTry (cx : Context) : Context := { cx with nested := true, tries := cx.tries + 1 }

def Context.inCleanup (cx : Context) : Context :=
  { cx with nested := true, cleanups := cx.cleanups + 1 }

def Context.inBlock (cx : Context) : Context := { cx with nested := true }

def Context.onLine (cx : Context) (line : Nat) : Context :=
  if line = 0 then cx else { cx with line := line.toUInt32 }

/-- The handlers of a try construct, each followed by its way out. -/
def joinHandlers (exit : Fragment) (handlers : List (CatchClause × Fragment)) : Fragment :=
  handlers.foldr (fun handler later => handler.2 ++ exit ++ later) {}

mutual

def action (cx : Context) (start : Nat) : Action → Build Fragment
  | .write e => do
    let value ← expr cx start e
    return emit cx (value ++ [.of .print])
  | .ask name => do
    return emit cx [.of .input, ← store cx name]
  | .set name e => do
    let value ← expr cx start e
    return emit cx (value ++ [← store cx name])
  | .setIndex c i e => do
    let collection ← expr cx start c
    let position ← expr cx (start + collection.length) i
    let value ← expr cx (start + collection.length + position.length) e
    return emit cx (collection ++ position ++ value ++ [.of .indexSet])
  | .branch c yes no => do
    let condition ← expr cx start c
    let afterTest := start + condition.length + 1
    let whenTrue ← block cx.inBlock afterTest yes
    if no.isEmpty then
      let otherwise ← address (afterTest + whenTrue.size)
      return emit cx (condition ++ [.of .jumpIfFalse otherwise]) ++ whenTrue
    else
      let otherwise ← address (afterTest + whenTrue.size + 1)
      let whenFalse ← block cx.inBlock (afterTest + whenTrue.size + 1) no
      let stop ← address (afterTest + whenTrue.size + 1 + whenFalse.size)
      return emit cx (condition ++ [.of .jumpIfFalse otherwise]) ++ whenTrue ++
        emit cx [.of .jump stop] ++ whenFalse
  | .whileLoop c b => do
    let condition ← expr cx start c
    let afterTest := start + condition.length + 1
    let body ← block cx.inLoop afterTest b
    let again ← address start
    let stop ← address (afterTest + body.size + 1)
    return emit cx (condition ++ [.of .jumpIfFalse stop]) ++ body.closeExits stop again ++
      emit cx [.of .jump again]
  | .repeatLoop n b => do
    let counter ← counterSlot cx
    let count ← expr cx start n
    let test := start + count.length + 1
    let zero ← loadConstant (.number .zero)
    let body ← block cx.inLoop (test + 4) b
    let one ← loadConstant (.number .one)
    let again ← address test
    let skip ← address (test + 4 + body.size)
    let stop ← address (test + 4 + body.size + 5)
    return emit cx (count ++ [.of .storeLocal counter, .of .loadLocal counter, zero, .of .greater,
        .of .jumpIfFalse stop]) ++
      body.closeExits stop skip ++
      emit cx [.of .loadLocal counter, one, .of .sub, .of .storeLocal counter, .of .jump again]
  | .exit way => loopExit cx start way
  | .function name _ _ =>
    if !cx.isMain || cx.nested then fail (.nestedFunction name) else return {}
  | .use name args => do
    let index ← callee cx name args.length
    let code ← exprs cx start args
    return emit cx (code ++ [.of .call index (BitVec.ofNat 24 args.length), .of .pop])
  | .ret none => do
    return emit cx [← loadConstant .nil, .of .ret]
  | .ret (some e) => do
    let value ← expr cx start e
    return emit cx (value ++ [.of .ret])
  | .guard b hs c => do
    let index ← tableIndex
    let body ← block cx.inTry (start + 1) b
    let handlersStart := start + 1 + body.size + 1
    let handlers ← catches cx.inTry handlersStart hs
    let cleanupStart := handlersStart + (handlers.map fun handler => handler.2.size + 1).sum
    let cleanup ← cleanupBlock cx cleanupStart c
    let exit := emit cx [.of .popTry (← address (cleanupStart + cleanup.2.size))]
    let table : Fragment := ⟨[], [⟨handlers.map (·.1), cleanup.1⟩]⟩
    return emit cx [.of .pushTry index] ++ table ++ body ++ exit ++ joinHandlers exit handlers ++
      cleanup.2
  | .throw e => do
    let error ← expr cx start e
    return emit cx (error ++ [.of .throw])
  | .writeFile c p => do
    let content ← expr cx start c
    let path ← expr cx (start + content.length) p
    return emit cx (content ++ path ++ [.of .writeFile])

def handler (cx : Context) (start : Nat) : Handler → Build (CatchClause × Fragment)
  | .mk typeName binder b => do
    let filter ← filterIndex typeName
    let entry ← address start
    let first ← catchStart cx binder
    let body ← block cx (start + 1) b
    return (⟨filter, Int32.ofNat entry.toNat⟩, emit cx [first] ++ body)

def catches (cx : Context) (start : Nat) : List Handler → Build (List (CatchClause × Fragment))
  | [] => return []
  | h :: rest => do
    let first ← handler cx start h
    let more ← catches cx (start + first.2.size + 1) rest
    return first :: more

def cleanupBlock (cx : Context) (start : Nat) : Option (List Stmt) → Build (Int32 × Fragment)
  | none => return (noIndex, {})
  | some b => do
    let entry ← address start
    let body ← block cx.inCleanup start b
    return (Int32.ofNat entry.toNat, body ++ emit cx [.of .endFinally])

/-- Code of statements in a row; a line stays in force until the next statement that has one. -/
def block (cx : Context) (start : Nat) : List Stmt → Build Fragment
  | [] => return {}
  | .mk line a :: rest => do
    let first ← action (cx.onLine line) start a
    let more ← block (cx.onLine line) (start + first.size) rest
    return first ++ more

end

end Compile
end ScriptMachine
