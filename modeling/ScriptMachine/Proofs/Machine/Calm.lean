import ScriptMachine.Proofs.Machine.Effect
import ScriptMachine.Proofs.Meaning.Memory

namespace ScriptMachine
namespace Heap

variable {h h' : Heap}

theorem errors_of_add {l r v : Value} (hadd : h.add l r = .ok (v, h')) : h'.errors = h.errors := by
  unfold add at hadd
  split at hadd
  · cases hadd
    rfl
  · cases hadd
    rfl
  · cases hadd
    rfl
  · cases hadd
    rfl
  · cases hadd

theorem errors_of_indexSet {c i v : Value} (hset : h.indexSet c i v = .ok h') :
    h'.errors = h.errors := by
  unfold indexSet at hset
  split at hset
  · next r =>
    cases hposition : h.position i (h.items r).size with
    | error e => simp [hposition, Bind.bind, Except.bind] at hset
    | ok place =>
      simp only [hposition, Bind.bind, Except.bind, pure, Except.pure] at hset
      cases hset
      rfl
  · split at hset
    · cases hset
      rfl
    · cases hset
  · cases hset

end Heap

namespace Machine

structure Popped (s s' : State) : Prop where
  control : SameControl s s'
  world : s'.world = s.world

theorem Popped.refl (s : State) : Popped s s := ⟨SameControl.refl s, rfl⟩

theorem Popped.trans {s s' s'' : State} (h : Popped s s') (h' : Popped s' s'') : Popped s s'' :=
  ⟨h.control.trans h'.control, h'.world.trans h.world⟩

theorem popped_of_pop? {s s' : State} {v : Value} (h : s.pop? = some (v, s')) : Popped s s' := by
  unfold State.pop? at h
  split at h
  · cases h
    exact ⟨⟨rfl, rfl, rfl, rfl, rfl⟩, rfl⟩
  · cases h

theorem popped_of_pop2? {s s' : State} {l r : Value} (h : pop2? s = some (l, r, s')) :
    Popped s s' := by
  obtain ⟨⟨r', s₁⟩, hr, h⟩ := Option.bind_eq_some_iff.1 h
  obtain ⟨⟨l', s₂⟩, hl, h⟩ := Option.bind_eq_some_iff.1 h
  cases h
  exact (popped_of_pop? hr).trans (popped_of_pop? hl)

/-- What comes of an instruction that stays in its frame and makes no error object. -/
inductive Calm (p : Program) (s : State) : Option Progress → Prop
  | stuck : Calm p s none
  | next {s' : State} : SameControl s s' → s'.world.heap.errors = s.world.heap.errors →
      Calm p s (some (.next s'))
  | raise {s' : State} {e : ScriptError} : Popped s s' → e.untraced = e → Calm p s (raise p s' e)

section calm

variable {p : Program} {s : State}

theorem Calm.bind {x : Option α} {f : α → Option Progress} (h : ∀ a, x = some a → Calm p s (f a)) :
    Calm p s (x >>= f) := by
  cases x with
  | none => exact .stuck
  | some a => exact h a rfl

theorem Calm.map {x : Option α} {f : α → Progress} (h : ∀ a, x = some a → Calm p s (some (f a))) :
    Calm p s (x.map f) := by
  cases x with
  | none => exact .stuck
  | some a => exact h a rfl

theorem Popped.next {s₁ s' : State} (h : Popped s s₁) (hcontrol : SameControl s₁ s')
    (herrors : s'.world.heap.errors = s₁.world.heap.errors) : Calm p s (some (.next s')) :=
  .next (h.control.trans hcontrol) (by rw [herrors, h.world])

theorem calm_settle {s₁ : State} (h : Popped s s₁) {r : Except ScriptError Value} (hr : Fresh r) :
    Calm p s (settle p s₁ r) := by
  cases r with
  | ok v => exact h.next ⟨rfl, rfl, rfl, rfl, rfl⟩ rfl
  | error e => exact .raise h (hr e rfl)

theorem calm_unary {f : Heap → Value → Except ScriptError Value} (hf : ∀ h v, Fresh (f h v)) :
    Calm p s (unary p s f) :=
  Calm.bind fun _ h => calm_settle (popped_of_pop? h) (hf _ _)

theorem calm_binary {f : Heap → Value → Value → Except ScriptError Value}
    (hf : ∀ h l r, Fresh (f h l r)) : Calm p s (binary p s f) :=
  Calm.bind fun _ h => calm_settle (popped_of_pop2? h) (hf _ _ _)

theorem calm_loadGlobal (index : Nat) : Calm p s (loadGlobal p s index) := by
  apply Calm.bind
  intro value? _
  cases value? with
  | some v => exact .next ⟨rfl, rfl, rfl, rfl, rfl⟩ rfl
  | none => exact Calm.bind fun name _ => .raise (Popped.refl s) rfl

theorem calm_storeGlobal (index : Nat) : Calm p s (storeGlobal s index) := by
  apply Calm.bind
  intro ⟨v, s₁⟩ h
  dsimp only
  split
  · exact (popped_of_pop? h).next ⟨rfl, rfl, rfl, rfl, by simp⟩ rfl
  · exact .stuck

theorem calm_storeLocal (slot : Nat) : Calm p s (storeLocal s slot) := by
  apply Calm.bind
  intro ⟨v, s₁⟩ h
  dsimp only
  split
  · exact (popped_of_pop? h).next ⟨rfl, rfl, rfl, rfl, rfl⟩ rfl
  · exact .stuck

theorem calm_add : Calm p s (add p s) := by
  apply Calm.bind
  intro ⟨l, r, s₁⟩ h
  dsimp only
  split
  · next hadd => exact (popped_of_pop2? h).next ⟨rfl, rfl, rfl, rfl, rfl⟩ (Heap.errors_of_add hadd)
  · next e hadd => exact .raise (popped_of_pop2? h) (Heap.fresh_add _ l r e hadd)

theorem calm_makeList (count : Nat) : Calm p s (makeList s count) := by
  unfold makeList
  split
  · exact .next ⟨rfl, rfl, rfl, rfl, rfl⟩ rfl
  · exact .stuck

theorem calm_makeDict (count : Nat) : Calm p s (makeDict p s count) := by
  unfold makeDict
  split
  · dsimp only
    split
    · exact .next ⟨rfl, rfl, rfl, rfl, rfl⟩ rfl
    · next e hpairs => exact .raise ⟨⟨rfl, rfl, rfl, rfl, rfl⟩, rfl⟩ (fresh_pairUp _ e hpairs)
  · exact .stuck

theorem calm_indexSet : Calm p s (indexSet p s) := by
  apply Calm.bind
  intro ⟨v, s₁⟩ h
  apply Calm.bind
  intro ⟨collection, index, s₂⟩ h'
  have hpopped := (popped_of_pop? h).trans (popped_of_pop2? h')
  dsimp only
  split
  · next hset => exact hpopped.next ⟨rfl, rfl, rfl, rfl, rfl⟩ (Heap.errors_of_indexSet hset)
  · next e hset => exact .raise hpopped (Heap.fresh_indexSet _ collection index v e hset)

theorem calm_print : Calm p s (print s) :=
  Calm.bind fun _ h => (popped_of_pop? h).next ⟨rfl, rfl, rfl, rfl, rfl⟩ rfl

theorem calm_readFile : Calm p s (readFile p s) := by
  apply Calm.bind
  intro ⟨path, s₁⟩ h
  dsimp only
  split
  · split
    · exact (popped_of_pop? h).next ⟨rfl, rfl, rfl, rfl, rfl⟩ rfl
    · exact .raise (popped_of_pop? h) rfl
  · exact .raise (popped_of_pop? h) rfl

theorem calm_writeFile : Calm p s (writeFile p s) := by
  apply Calm.bind
  intro ⟨content, path, s₁⟩ h
  dsimp only
  split
  · split
    · exact (popped_of_pop2? h).next ⟨rfl, rfl, rfl, rfl, rfl⟩ rfl
    · exact .raise (popped_of_pop2? h) rfl
  · exact .raise (popped_of_pop2? h) rfl

theorem calm_execute {limits : Limits} {op : Opcode} (ins : Instruction)
    (hop : op.transfers = false) (hthrow : op ≠ .throw) (hmake : op ≠ .makeError) :
    Calm p s (execute p limits s op ins) := by
  cases op with
  | jump | jumpIfFalse | call | ret | pushTry | popTry | endFinally | halt => cases hop
  | throw => exact absurd rfl hthrow
  | makeError => exact absurd rfl hmake
  | loadConst | loadLocal => exact Calm.map fun _ _ => .next ⟨rfl, rfl, rfl, rfl, rfl⟩ rfl
  | storeLocal => exact calm_storeLocal _
  | loadGlobal => exact calm_loadGlobal _
  | storeGlobal => exact calm_storeGlobal _
  | add => exact calm_add
  | sub | mul | div | mod => exact calm_binary fun _ => fresh_arithmetic _
  | less | lessEqual | greater | greaterEqual => exact calm_binary fun _ => fresh_order _
  | equal | notEqual =>
    simp only [execute]
    exact calm_binary fun _ _ _ => fresh_ok _
  | indexGet => exact calm_binary Heap.fresh_indexGet
  | negate => exact calm_unary fun _ => fresh_negate
  | not =>
    simp only [execute]
    exact calm_unary fun _ _ => fresh_ok _
  | errorMessage | errorType => exact calm_unary fun h v => (h.fresh_expectError v).map _
  | pop => exact Calm.map fun _ h => (popped_of_pop? h).next (SameControl.refl _) rfl
  | makeList => exact calm_makeList _
  | makeDict => exact calm_makeDict _
  | indexSet => exact calm_indexSet
  | print => exact calm_print
  | input => exact .next ⟨rfl, rfl, rfl, rfl, rfl⟩ rfl
  | readFile => exact calm_readFile
  | writeFile => exact calm_writeFile

end calm

end Machine
end ScriptMachine
