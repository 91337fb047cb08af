import ScriptMachine.Machine.Run

namespace ScriptMachine

/-- An error with another account of the calls in which it was raised. -/
def ScriptError.retrace (f : List TraceFrame → List TraceFrame) (e : ScriptError) : ScriptError :=
  { e with trace := f e.trace }

def ScriptError.untraced (e : ScriptError) : ScriptError := { e with trace := [] }

@[simp] theorem ScriptError.untraced_make (kind : ErrorKind) (message : Text) :
    (ScriptError.make kind message).untraced = ScriptError.make kind message := (rfl)

@[simp] theorem ScriptError.untraced_ofTypeName (typeName message : Text) :
    (ScriptError.ofTypeName typeName message).untraced = ScriptError.ofTypeName typeName message :=
  rfl

namespace Heap

/-- A heap in which all errors have another account of their calls. -/
def retrace (f : List TraceFrame → List TraceFrame) (h : Heap) : Heap :=
  { h with errors := h.errors.map (ScriptError.retrace f) }

section retrace

variable (h : Heap) (f : List TraceFrame → List TraceFrame)

@[simp] theorem items_retrace (r : Ref) : (h.retrace f).items r = h.items r := (rfl)

@[simp] theorem entries_retrace (r : Ref) : (h.retrace f).entries r = h.entries r := (rfl)

theorem error_retrace (hf : f [] = []) (r : Ref) :
    (h.retrace f).error r = (h.error r).retrace f := by
  simp only [error, retrace, Array.getD_eq_getD_getElem?, Array.getElem?_map]
  cases h.errors[r]? with
  | some e => rfl
  | none =>
    show default = ScriptError.retrace f default
    rw [ScriptError.retrace, show (default : ScriptError).trace = [] from rfl, hf]
    rfl

theorem truthy_retrace (v : Value) : (h.retrace f).truthy v = h.truthy v := by
  cases v <;> rfl

theorem displayWithin_retrace (hf : f [] = []) (depth : Nat) (path : List Value) (v : Value) :
    (h.retrace f).displayWithin depth path v = h.displayWithin depth path v := by
  have hrender (r : Ref) : ((h.retrace f).error r).render = (h.error r).render := by
    rw [h.error_retrace f hf]
    rfl
  induction depth generalizing path v with
  | zero => cases v <;> simp [displayWithin, hrender]
  | succ depth ih =>
    have hwithin (path) : (h.retrace f).displayWithin depth path = h.displayWithin depth path :=
      funext (ih path)
    cases v <;> simp [displayWithin, hwithin, hrender]

theorem display_retrace (hf : f [] = []) (v : Value) : (h.retrace f).display v = h.display v := by
  cases v <;> simp [display, displayDepth, retrace, ← displayWithin_retrace h f hf]

theorem equalWithin_retrace (depth : Nat) (path : List (Value × Value)) (v w : Value) :
    (h.retrace f).equalWithin depth path v w = h.equalWithin depth path v w := by
  induction depth generalizing path v w with
  | zero => cases v <;> cases w <;> simp [equalWithin]
  | succ depth ih => cases v <;> cases w <;> simp [equalWithin, ih]

theorem equal_retrace (v w : Value) : (h.retrace f).equal v w = h.equal v w :=
  h.equalWithin_retrace f _ _ _ _

theorem position_retrace (hf : f [] = []) (index : Value) (length : Nat) :
    (h.retrace f).position index length = h.position index length := by
  simp only [position, h.display_retrace f hf]

theorem indexGet_retrace (hf : f [] = []) (collection index : Value) :
    (h.retrace f).indexGet collection index = h.indexGet collection index := by
  simp only [indexGet, h.position_retrace f hf]
  rfl

theorem indexSet_retrace (hf : f [] = []) (collection index v : Value) :
    (h.retrace f).indexSet collection index v =
      (h.indexSet collection index v).map (retrace f) := by
  cases collection with
  | list r =>
    simp only [indexSet, h.position_retrace f hf, items_retrace]
    cases h.position index (h.items r).size <;> rfl
  | dict r => cases index <;> rfl
  | _ => rfl

theorem newList_retrace (items : Array Value) :
    (h.retrace f).newList items = ((h.newList items).1, (h.newList items).2.retrace f) := rfl

theorem add_retrace (hf : f [] = []) (v w : Value) :
    (h.retrace f).add v w = (h.add v w).map fun r => (r.1, r.2.retrace f) := by
  cases v <;> cases w <;>
    simp [add, Except.map, newList_retrace, h.display_retrace f hf]

theorem expectError_retrace (hf : f [] = []) (v : Value) :
    (h.retrace f).expectError v = (h.expectError v).map (ScriptError.retrace f) := by
  cases v <;> simp [expectError, Except.map, h.error_retrace f hf]

theorem newError_retrace (e : ScriptError) :
    (h.retrace f).newError (e.retrace f) = ((h.newError e).1, (h.newError e).2.retrace f) := by
  simp [newError, retrace]

end retrace

def untraced (h : Heap) : Heap := { h with errors := h.errors.map ScriptError.untraced }

section

variable (h : Heap)

@[simp] theorem error_untraced (r : Ref) : h.untraced.error r = (h.error r).untraced :=
  h.error_retrace (fun _ => []) rfl r

@[simp] theorem truthy_untraced (v : Value) : h.untraced.truthy v = h.truthy v :=
  h.truthy_retrace (fun _ => []) v

@[simp] theorem display_untraced (v : Value) : h.untraced.display v = h.display v :=
  h.display_retrace (fun _ => []) rfl v

@[simp] theorem equal_untraced (v w : Value) : h.untraced.equal v w = h.equal v w :=
  h.equal_retrace (fun _ => []) v w

@[simp] theorem indexGet_untraced (collection index : Value) :
    h.untraced.indexGet collection index = h.indexGet collection index :=
  h.indexGet_retrace (fun _ => []) rfl collection index

theorem indexSet_untraced (collection index v : Value) :
    h.untraced.indexSet collection index v = (h.indexSet collection index v).map untraced :=
  h.indexSet_retrace (fun _ => []) rfl collection index v

theorem add_untraced (v w : Value) :
    h.untraced.add v w = (h.add v w).map fun r => (r.1, r.2.untraced) :=
  h.add_retrace (fun _ => []) rfl v w

theorem expectError_untraced (v : Value) :
    h.untraced.expectError v = (h.expectError v).map ScriptError.untraced :=
  h.expectError_retrace (fun _ => []) rfl v

theorem newError_untraced (e : ScriptError) :
    h.untraced.newError e.untraced = ((h.newError e).1, (h.newError e).2.untraced) :=
  h.newError_retrace (fun _ => []) e

end

end Heap

/-- An error that an operation has just made has no trace yet. -/
def Fresh (r : Except ScriptError α) : Prop := ∀ e, r = .error e → e.untraced = e

theorem fresh_ok (a : α) : Fresh (.ok a) := nofun

theorem fresh_make (kind : ErrorKind) (message : Text) :
    Fresh (.error (.make kind message) : Except ScriptError α) := by
  rintro e ⟨⟩
  rfl

theorem Fresh.map {r : Except ScriptError α} (h : Fresh r) (f : α → β) : Fresh (r.map f) := by
  cases r with
  | ok a => exact fresh_ok _
  | error e => exact fun e' he => h e' (by simpa [Except.map] using he)

theorem Fresh.bind {r : Except ScriptError α} (h : Fresh r) {f : α → Except ScriptError β}
    (hf : ∀ a, Fresh (f a)) : Fresh (r >>= f) := by
  cases r with
  | ok a => exact hf a
  | error e => exact fun e' he => h e' (by simpa [Bind.bind, Except.bind] using he)

theorem fresh_arithmetic (op : ArithmeticOp) (l r : Value) : Fresh (op.apply l r) := by
  unfold ArithmeticOp.apply
  split
  · cases op with
    | sub | mul => exact fresh_ok _
    | div | mod =>
      dsimp only
      split
      · exact fresh_make _ _
      · exact fresh_ok _
  · exact fresh_make _ _

theorem fresh_order (op : OrderOp) (l r : Value) : Fresh (op.apply l r) := by
  unfold OrderOp.apply
  split
  · exact fresh_ok _
  · exact fresh_ok _
  · exact fresh_make _ _

theorem fresh_negate (v : Value) : Fresh (negate v) := by
  unfold negate
  split
  · exact fresh_ok _
  · exact fresh_make _ _

theorem fresh_pairUp (vs : List Value) : Fresh (pairUp vs) := by
  fun_induction pairUp vs with
  | case1 key value rest ih => exact ih.bind fun _ => fresh_ok _
  | case2 => exact fresh_make _ _
  | case3 => exact fresh_ok _

namespace Heap

variable (h : Heap)

theorem fresh_add (l r : Value) : Fresh (h.add l r) := by
  unfold add
  split
  · exact fresh_ok _
  · exact fresh_ok _
  · exact fresh_ok _
  · exact fresh_ok _
  · exact fresh_make _ _

theorem fresh_position (index : Value) (length : Nat) : Fresh (h.position index length) := by
  unfold position
  dsimp only
  split
  · split
    · exact fresh_make _ _
    · split
      · exact fresh_make _ _
      · split
        · split
          · exact fresh_ok _
          · exact fresh_make _ _
        · split
          · exact fresh_ok _
          · exact fresh_make _ _
  · exact fresh_make _ _

theorem fresh_indexGet (collection index : Value) : Fresh (h.indexGet collection index) := by
  unfold indexGet
  split
  · exact (h.fresh_position _ _).bind fun _ => fresh_ok _
  · exact (h.fresh_position _ _).bind fun _ => fresh_ok _
  · split
    · split
      · exact fresh_ok _
      · exact fresh_make _ _
    · exact fresh_make _ _
  · exact fresh_make _ _

theorem fresh_indexSet (collection index v : Value) : Fresh (h.indexSet collection index v) := by
  unfold indexSet
  split
  · exact (h.fresh_position _ _).bind fun _ => fresh_ok _
  · split
    · exact fresh_ok _
    · exact fresh_make _ _
  · exact fresh_make _ _

theorem fresh_expectError (v : Value) : Fresh (h.expectError v) := by
  unfold expectError
  split
  · exact fresh_ok _
  · exact fresh_make _ _

end Heap

namespace Machine

theorem refusal?_untraced {limits : Machine.Limits} {f : Function} {frames base argc : Nat}
    {e : ScriptError} (h : refusal? limits f frames base argc = some e) : e.untraced = e := by
  unfold refusal? at h
  dsimp only at h
  split at h
  · cases h
    rfl
  · split at h
    · cases h
      rfl
    · split at h
      · cases h
        rfl
      · cases h

end Machine

namespace Meaning

/-- What scripts act on besides their locals. -/
structure Memory where
  heap : Heap
  globals : Text → Option Value
  input : Text
  output : Array UInt8
  files : Storage

def Memory.of (p : Program) (w : Machine.World) : Memory where
  heap := w.heap.untraced
  globals name := (p.globalIndex? name).bind fun i => w.globals.getD i none
  input := w.input
  output := w.output
  files := w.files

end Meaning
end ScriptMachine
