import ScriptMachine.Number.Basic

namespace ScriptMachine

inductive UnaryOp where
  | not
  | negate
deriving DecidableEq

/-- Operators that evaluate both operands. -/
inductive BinaryOp where
  | plus
  | minus
  | times
  | dividedBy
  | modulo
  | equal
  | notEqual
  | less
  | lessEqual
  | greater
  | greaterEqual
deriving DecidableEq

/-- Operators that skip the right operand when the left one decides. -/
inductive LogicalOp where
  | and
  | or
deriving DecidableEq

inductive Expr where
  | number (x : Number)
  | string (t : Text)
  | boolean (b : Bool)
  | nil
  | identifier (name : Text)
  | unary (op : UnaryOp) (operand : Expr)
  | binary (op : BinaryOp) (left right : Expr)
  | logical (op : LogicalOp) (left right : Expr)
  | call (name : Text) (args : List Expr)
  | list (items : List Expr)
  | dict (entries : List (Text × Expr))
  | index (collection position : Expr)
  | newError (typeName : Text) (message : Expr)
  | errorMessage (error : Expr)
  | errorType (error : Expr)
  | fileText (path : Expr)

instance : Inhabited Expr := ⟨.nil⟩

/-- A parameter of a function, with the value it takes when the argument is left out. -/
structure Parameter where
  name : Text
  fallback : Option Expr := none

/-- How a statement leaves the loop it stands in: for good or for the next round. -/
inductive LoopExit where
  | stop
  | skip
deriving DecidableEq

mutual

inductive Stmt where
  | mk (line : Nat) (action : Action)

inductive Action where
  | write (value : Expr)
  | ask (name : Text)
  | set (name : Text) (value : Expr)
  | setIndex (collection position value : Expr)
  | branch (condition : Expr) (yes no : List Stmt)
  | whileLoop (condition : Expr) (body : List Stmt)
  | repeatLoop (count : Expr) (body : List Stmt)
  | exit (way : LoopExit)
  | function (name : Text) (parameters : List Parameter) (body : List Stmt)
  | use (name : Text) (args : List Expr)
  | ret (value : Option Expr)
  | guard (body : List Stmt) (handlers : List Handler) (cleanup : Option (List Stmt))
  | throw (error : Expr)
  | writeFile (content path : Expr)

/-- An empty type name catches every error and an empty binder discards it. -/
inductive Handler where
  | mk (typeName binder : Text) (body : List Stmt)

end

instance : Inhabited Stmt := ⟨.mk 0 (.ret none)⟩

/-- A function definition, with the line of its header. -/
structure Declaration where
  line : Nat
  name : Text
  parameters : List Parameter
  body : List Stmt

namespace Stmt

def line : Stmt → Nat
  | .mk line _ => line

def action : Stmt → Action
  | .mk _ action => action

def declaration? : Stmt → Option Declaration
  | .mk line (.function name parameters body) => some ⟨line, name, parameters, body⟩
  | _ => none

def onLine (line : Nat) : Stmt → Stmt
  | .mk _ action => .mk line action

end Stmt

mutual

/-- The names that a statement of the main program assigns, in the order of the text. -/
def Stmt.assigned : Stmt → List Text
  | .mk _ action => action.assigned

def Action.assigned : Action → List Text
  | .set name _ => [name]
  | .ask name => [name]
  | .branch _ yes no => assignedNames yes ++ assignedNames no
  | .whileLoop _ body => assignedNames body
  | .repeatLoop _ body => assignedNames body
  | .guard body handlers cleanup =>
    assignedNames body ++ handlerNames handlers ++
      match cleanup with
      | some block => assignedNames block
      | none => []
  | _ => []

def Handler.assigned : Handler → List Text
  | .mk _ binder body => (if binder.isEmpty then [] else [binder]) ++ assignedNames body

def handlerNames : List Handler → List Text
  | [] => []
  | h :: rest => h.assigned ++ handlerNames rest

def assignedNames : List Stmt → List Text
  | [] => []
  | s :: rest => s.assigned ++ assignedNames rest

end

end ScriptMachine
