import ScriptMachine.Proofs.Compile.Placement
import Mathlib.Data.List.Nodup

namespace ScriptMachine

/-- An error of a tree, and not of the code that was made for it. -/
def CompileError.OfTree (e : CompileError) : Prop :=
  e.kind ≠ .unresolvedJump ∧ e.kind ≠ .verification

namespace Compile

/-- A step either fails with an error of the tree or has a result that the relation allows. -/
def Yields (x : Build α) (Q : Draft → α → Draft → Prop) : Prop :=
  ∀ d, match x d with
    | .ok (a, d') => Q d a d'
    | .error e => e.OfTree

theorem Yields.ok {x : Build α} {Q : Draft → α → Draft → Prop} (hx : Yields x Q) {d d' : Draft}
    {a : α} (h : x d = .ok (a, d')) : Q d a d' := by
  have := hx d
  rwa [h] at this

theorem Yields.error {x : Build α} {Q : Draft → α → Draft → Prop} (hx : Yields x Q) {d : Draft}
    {e : CompileError} (h : x d = .error e) : e.OfTree := by
  have := hx d
  rwa [h] at this

theorem Yields.mono {x : Build α} {Q R : Draft → α → Draft → Prop} (hx : Yields x Q)
    (h : ∀ d a d', Q d a d' → R d a d') : Yields x R := by
  intro d
  have hd := hx d
  cases hrun : x d with
  | error e =>
    rw [hrun] at hd
    exact hd
  | ok r =>
    rw [hrun] at hd
    exact h d r.1 r.2 hd

theorem Yields.and {x : Build α} {Q R : Draft → α → Draft → Prop} (hQ : Yields x Q)
    (hR : Yields x R) : Yields x fun d a d' => Q d a d' ∧ R d a d' := by
  intro d
  cases hrun : x d with
  | error e => exact hQ.error hrun
  | ok r => exact ⟨hQ.ok hrun, hR.ok hrun⟩

theorem Yields.pure {a : α} : Yields (pure a) fun d b d' => b = a ∧ d' = d := by
  intro d
  exact ⟨rfl, rfl⟩

theorem Yields.bind_of {x : Build α} {f : α → Build β} {Q : Draft → α → Draft → Prop}
    {R : α → Draft → β → Draft → Prop} (hx : Yields x Q)
    (hf : ∀ a d c, Q d a c → Yields (f a) (R a)) :
    Yields (x >>= f) fun d b d' => ∃ a c, Q d a c ∧ R a c b d' := by
  intro d
  have hd := hx d
  show match (StateT.bind x f) d with
    | .ok (b, d') => ∃ a c, Q d a c ∧ R a c b d'
    | .error e => e.OfTree
  unfold StateT.bind
  cases hrun : x d with
  | error e =>
    rw [hrun] at hd
    exact hd
  | ok r =>
    rw [hrun] at hd
    have hr := hf r.1 d r.2 hd r.2
    show match f r.1 r.2 with
      | .ok (b, d') => ∃ a c, Q d a c ∧ R a c b d'
      | .error e => e.OfTree
    cases hrest : f r.1 r.2 with
    | error e =>
      rw [hrest] at hr
      exact hr
    | ok s =>
      rw [hrest] at hr
      exact ⟨r.1, r.2, hd, hr⟩

theorem Yields.bind {x : Build α} {f : α → Build β} {Q : Draft → α → Draft → Prop}
    {R : α → Draft → β → Draft → Prop} (hx : Yields x Q) (hf : ∀ a, Yields (f a) (R a)) :
    Yields (x >>= f) fun d b d' => ∃ a c, Q d a c ∧ R a c b d' :=
  hx.bind_of fun a _ _ _ => hf a

theorem Yields.foldlM {f : β → α → Build β} {I : List α → β → Draft → Prop}
    (hstep : ∀ done b a, Yields (f b a) fun d b' d' => I done b d → I (done ++ [a]) b' d')
    (l : List α) (done : List α) (b : β) :
    Yields (l.foldlM f b) fun d b' d' => I done b d → I (done ++ l) b' d' := by
  induction l generalizing done b with
  | nil =>
    rw [List.foldlM_nil]
    refine Yields.pure.mono ?_
    rintro d _ _ ⟨rfl, rfl⟩ h
    rwa [List.append_nil]
  | cons a l ih =>
    rw [List.foldlM_cons]
    refine ((hstep done b a).bind fun b' => ih (done ++ [a]) b').mono ?_
    rintro d b'' d' ⟨b', c, hb, hl⟩ h
    rw [List.append_cons]
    exact hl (hb h)

theorem Yields.fail {e : CompileError} {Q : Draft → α → Draft → Prop} (he : e.OfTree) :
    Yields (fail e) Q := fun _ => he

theorem Yields.ite {c : Prop} [Decidable c] {x y : Build α} {Q R : Draft → α → Draft → Prop}
    (hx : Yields x Q) (hy : Yields y R) :
    Yields (if c then x else y) fun d a d' => if c then Q d a d' else R d a d' := by
  split
  · exact hx.mono fun d a d' h => h
  · exact hy.mono fun d a d' h => h

theorem Yields.of_start {x : Build α} {Q : Draft → α → Draft → Prop}
    (h : ∀ c, Yields x fun d a d' => d = c → Q c a d') : Yields x Q := by
  intro d
  cases hrun : x d with
  | error e => exact (h d).error hrun
  | ok r => exact (h d).ok hrun rfl

theorem Yields.get {f : Draft → Build α} {Q : Draft → α → Draft → Prop}
    (h : ∀ draft, Yields (f draft) fun d a d' => d = draft → Q draft a d') :
    Yields (get >>= f) Q := by
  intro d
  show match f d d with
    | .ok (a, d') => Q d a d'
    | .error e => e.OfTree
  cases hrun : f d d with
  | error e => exact (h d).error hrun
  | ok r => exact (h d).ok hrun rfl

theorem yields_modify (g : Draft → Draft) :
    Yields (modify g : Build PUnit) fun d _ d' => d' = g d := by
  intro d
  exact rfl

theorem yields_set (draft : Draft) : Yields (set draft : Build PUnit) fun _ _ d' => d' = draft := by
  intro d
  exact rfl

/-- The sizes that indices into a draft have to fit. Every constant and every global has one
index. -/
structure Draft.Bounded (d : Draft) : Prop where
  constants : d.constants.size ≤ maxOperand + 1
  globals : d.globals.size ≤ maxOperand + 1
  locals : d.locals.length ≤ maxLocals
  tables : d.tables ≤ maxOperand + 1
  distinctConstants : d.constants.toList.Nodup
  distinct : d.globals.toList.Nodup

theorem bounded_empty : Draft.Bounded {} :=
  ⟨Nat.zero_le _, Nat.zero_le _, Nat.zero_le _, Nat.zero_le _, List.nodup_nil, List.nodup_nil⟩

/-- One draft goes on from another. A name only becomes a local where it is not a known global. -/
structure Grows (N : Names) (d d' : Draft) : Prop where
  constants {i : Nat} {c : Constant} : d.constants[i]? = some c → d'.constants[i]? = some c
  globals {i : Nat} {name : Text} : d.globals[i]? = some name → d'.globals[i]? = some name
  locals {i : Nat} {name : Text} : d.locals[i]? = some name → d'.locals[i]? = some name
  nodup : d.locals.Nodup → d'.locals.Nodup
  fresh {name : Text} : name ∈ d'.locals → name ∈ d.locals ∨ (∃ n, name = counterName n) ∨
    (N.isMain = false ∧ name ∉ N.known)
  bounded : d.Bounded → d'.Bounded

theorem Grows.refl (N : Names) (d : Draft) : Grows N d d := ⟨id, id, id, id, .inl, id⟩

theorem Grows.trans {N : Names} {d d' d'' : Draft} (h : Grows N d d') (h' : Grows N d' d'') :
    Grows N d d'' where
  constants hi := h'.constants (h.constants hi)
  globals hi := h'.globals (h.globals hi)
  locals hi := h'.locals (h.locals hi)
  nodup hd := h'.nodup (h.nodup hd)
  fresh hname := (h'.fresh hname).elim h.fresh .inr
  bounded hd := h'.bounded (h.bounded hd)

theorem Grows.mem_locals {N : Names} {d d' : Draft} (h : Grows N d d') {name : Text}
    (hname : name ∈ d.locals) : name ∈ d'.locals := by
  obtain ⟨i, hi⟩ := List.mem_iff_getElem?.1 hname
  exact List.mem_of_getElem? (h.locals hi)

/-- A step that makes neither a try table nor a loop counter. -/
structure Quiet (N : Names) (d d' : Draft) : Prop extends Grows N d d' where
  tables : d'.tables = d.tables
  counters : d'.counters = d.counters

theorem Quiet.refl (N : Names) (d : Draft) : Quiet N d d := ⟨Grows.refl N d, rfl, rfl⟩

theorem Quiet.trans {N : Names} {d d' d'' : Draft} (h : Quiet N d d') (h' : Quiet N d' d'') :
    Quiet N d d'' :=
  ⟨h.toGrows.trans h'.toGrows, h'.tables.trans h.tables, h'.counters.trans h.counters⟩

theorem yields_operand {n : Nat} {what : Text} :
    Yields (operand n what) fun d i d' => d' = d ∧ i = BitVec.ofNat 24 n ∧ n ≤ maxOperand := by
  unfold operand
  split
  · next hle => exact Yields.pure.mono fun d i d' h => ⟨h.2, h.1, hle⟩
  · exact .fail ⟨nofun, nofun⟩

theorem getElem?_push_of_some {l : Array α} {a b : α} {i : Nat} (h : l[i]? = some a) :
    (l.push b)[i]? = some a := by
  obtain ⟨hlt, -⟩ := Array.getElem?_eq_some_iff.1 h
  rw [Array.getElem?_push_lt hlt, ← h, Array.getElem?_eq_getElem hlt]

theorem nodup_push_of_findIdx? [BEq α] [LawfulBEq α] {xs : Array α} {a : α} (h : xs.toList.Nodup)
    (hfind : xs.findIdx? (· == a) = none) : (xs.push a).toList.Nodup := by
  rw [Array.toList_push, ← List.concat_eq_append]
  refine h.concat fun hmem => ?_
  simpa using Array.findIdx?_eq_none_iff.1 hfind a (Array.mem_toList_iff.1 hmem)

theorem yields_constantIndex (N : Names) (c : Constant) :
    Yields (constantIndex c) fun d i d' =>
      Quiet N d d' ∧ ∃ n, i = BitVec.ofNat 24 n ∧ d'.constants[n]? = some c := by
  refine Yields.get fun draft => ?_
  split
  · next i hfind =>
    refine Yields.pure.mono ?_
    rintro _ _ _ ⟨rfl, rfl⟩ rfl
    obtain ⟨hlt, heq, -⟩ := Array.findIdx?_eq_some_iff_getElem.1 hfind
    exact ⟨Quiet.refl N _, i, rfl, by rw [Array.getElem?_eq_getElem hlt, eq_of_beq heq]⟩
  · next hfind =>
    refine (yields_operand.bind fun index => (yields_set _).bind fun _ => Yields.pure).mono ?_
    rintro _ _ _ ⟨_, d, ⟨rfl, rfl, hle⟩, _, _, rfl, rfl, rfl⟩ rfl
    refine ⟨⟨⟨getElem?_push_of_some, id, id, id, .inl, fun hd => ?_⟩, rfl, rfl⟩,
      d.constants.size, rfl, by simp⟩
    exact { hd with
      constants := by simpa using hle
      distinctConstants := nodup_push_of_findIdx? hd.distinctConstants hfind }

theorem yields_globalIndex (N : Names) (name : Text) :
    Yields (globalIndex name) fun d i d' =>
      Quiet N d d' ∧ d'.locals = d.locals ∧ ∃ n, i = BitVec.ofNat 24 n ∧
        d'.globals[n]? = some name := by
  refine Yields.get fun draft => ?_
  split
  · next i hfind =>
    refine Yields.pure.mono ?_
    rintro _ _ _ ⟨rfl, rfl⟩ rfl
    obtain ⟨hlt, heq, -⟩ := Array.findIdx?_eq_some_iff_getElem.1 hfind
    exact ⟨Quiet.refl N _, rfl, i, rfl, by rw [Array.getElem?_eq_getElem hlt, eq_of_beq heq]⟩
  · next hfind =>
    refine (yields_operand.bind fun index => (yields_set _).bind fun _ => Yields.pure).mono ?_
    rintro _ _ _ ⟨_, d, ⟨rfl, rfl, hle⟩, _, _, rfl, rfl, rfl⟩ rfl
    refine ⟨⟨⟨id, getElem?_push_of_some, id, id, .inl, fun hd => ?_⟩, rfl, rfl⟩, rfl,
      d.globals.size, rfl, by simp⟩
    exact { hd with
      globals := by simpa using hle
      distinct := nodup_push_of_findIdx? hd.distinct hfind }

theorem yields_localSlot_cases (cx : Context) (name : Text) :
    Yields (localSlot cx name) fun d i d' =>
      (∃ n, i = BitVec.ofNat 24 n ∧ d'.locals[n]? = some name) ∧
        ((name ∈ d.locals ∧ d' = d) ∨ (name ∉ d.locals ∧ d.locals.length < maxLocals ∧
          d' = { d with locals := d.locals ++ [name] })) := by
  refine Yields.get fun draft => ?_
  split
  · next i hfind =>
    refine Yields.pure.mono ?_
    rintro _ _ _ ⟨rfl, rfl⟩ rfl
    obtain ⟨hlt, heq, -⟩ := List.findIdx?_eq_some_iff_getElem.1 hfind
    have hi := List.getElem?_eq_getElem hlt
    rw [eq_of_beq heq] at hi
    exact ⟨⟨i, rfl, hi⟩, .inl ⟨List.mem_of_getElem? hi, rfl⟩⟩
  · next hfind =>
    split
    · next hlt =>
      refine ((yields_set _).bind fun _ => Yields.pure).mono ?_
      rintro d _ _ ⟨_, _, rfl, rfl, rfl⟩ rfl
      refine ⟨⟨d.locals.length, rfl, by simp⟩, .inr ⟨fun hmem => ?_, hlt, rfl⟩⟩
      simpa using List.findIdx?_eq_none_iff.1 hfind name hmem
    · exact .fail ⟨nofun, nofun⟩

theorem yields_localSlot (N : Names) (cx : Context) (name : Text) :
    Yields (localSlot cx name) fun d i d' =>
      (name ∈ d.locals ∨ (∃ n, name = counterName n) ∨ (N.isMain = false ∧ name ∉ N.known)) →
      Quiet N d d' ∧ ∃ n, i = BitVec.ofNat 24 n ∧ d'.locals[n]? = some name := by
  refine (yields_localSlot_cases cx name).mono ?_
  rintro d i d' ⟨hslot, hcases⟩ hnew
  refine ⟨?_, hslot⟩
  obtain ⟨-, rfl⟩ | ⟨habsent, hlt, rfl⟩ := hcases
  · exact Quiet.refl N _
  · refine ⟨⟨id, id, ?_, fun hd => List.concat_eq_append ▸ hd.concat habsent, ?_, fun hd => ?_⟩, rfl, rfl⟩
    · intro i name' hi
      obtain ⟨hi', -⟩ := List.getElem?_eq_some_iff.1 hi
      rw [List.getElem?_append_left hi', hi]
    · intro name' hname
      rcases List.mem_append.1 hname with h | h
      · exact .inl h
      · exact .inr (List.mem_singleton.1 h ▸ hnew.resolve_left habsent)
    · exact { hd with locals := by simpa using Nat.succ_le_of_lt hlt }

/-- What a list becomes stands in a table, from a place on. -/
def Stands (l : Nat → Option β) (R : α → β → Prop) (place : Nat) (xs : List α) : Prop :=
  ∀ i x, xs[i]? = some x → ∃ y, l (place + i) = some y ∧ R x y

theorem stands_append {l : Nat → Option β} {R : α → β → Prop} {place : Nat} {xs ys : List α} :
    Stands l R place (xs ++ ys) ↔ Stands l R place xs ∧ Stands l R (place + xs.length) ys := by
  constructor
  · intro h
    refine ⟨fun i x hx => ?_, fun i y hy => ?_⟩
    · obtain ⟨hlt, -⟩ := List.getElem?_eq_some_iff.1 hx
      exact h i x (by rw [List.getElem?_append_left hlt, hx])
    · have := h (xs.length + i) y (by rw [List.getElem?_append_right (by omega)]; simpa using hy)
      rwa [← Nat.add_assoc] at this
  · rintro ⟨hxs, hys⟩ i x hx
    by_cases hlt : i < xs.length
    · exact hxs i x (by rwa [List.getElem?_append_left hlt] at hx)
    · rw [List.getElem?_append_right (by omega)] at hx
      obtain ⟨y, hy, hR⟩ := hys (i - xs.length) x hx
      exact ⟨y, by rw [← hy]; congr 1; omega, hR⟩

theorem stands_map {l : Nat → Option β} {R : α → β → Prop} {place : Nat} {g : γ → α} {xs : List γ} :
    Stands l R place (xs.map g) ↔ Stands l (fun x => R (g x)) place xs := by
  simp [Stands]

theorem Stands.mono {l : Nat → Option β} {R S : α → β → Prop} {place : Nat} {xs : List α}
    (h : Stands l R place xs) (hRS : ∀ x ∈ xs, ∀ y, R x y → S x y) : Stands l S place xs := by
  intro i x hx
  obtain ⟨y, hy, hR⟩ := h i x hx
  exact ⟨y, hy, hRS x (List.mem_of_getElem? hx) y hR⟩

theorem stands_singleton {l : Nat → Option β} {R : α → β → Prop} {place : Nat} {x : α} :
    Stands l R place [x] ↔ ∃ y, l place = some y ∧ R x y := by
  constructor
  · intro h
    exact h 0 x rfl
  · rintro h i x' hx
    cases i with
    | zero =>
      cases hx
      exact h
    | succ i => simp at hx

/-- An instruction before and after its function gets its place. -/
def Moved (entry : Nat) (ins ins' : Instruction) : Prop :=
  if ins.op?.map Opcode.kindA = some .target then
    entry + ins.a.toNat ≤ maxOperand ∧
      ins' = { ins with a := BitVec.ofNat 24 (entry + ins.a.toNat) }
  else ins' = ins

theorem toNat_ofNat {n : Nat} (h : n ≤ maxOperand) : (BitVec.ofNat 24 n).toNat = n := by
  unfold maxOperand at h
  simp
  omega

theorem moved_target {entry a : Nat} {op : Opcode} {ins : Instruction} (hkind : op.kindA = .target)
    (ha : a ≤ maxOperand) (h : Moved entry (.of op (BitVec.ofNat 24 a)) ins) :
    ins = .of op (BitVec.ofNat 24 (entry + a)) ∧ entry + a ≤ maxOperand := by
  rw [Moved, if_pos (by simp [hkind])] at h
  simp only [Instruction.of, toNat_ofNat ha] at h
  exact ⟨h.2, h.1⟩

/-- The sizes that indices into a layout fit. -/
structure Layout.Sized (L : Layout) : Prop where
  constants : L.program.constants.size ≤ maxOperand + 1
  globals : L.program.globals.size ≤ maxOperand + 1
  locals : L.locals.length ≤ maxLocals
  functions : L.names.functions.size ≤ maxOperand
  arity {f : Function} : f ∈ L.names.functions → f.arity ≤ maxArguments

/-- A layout holds what compilation has collected from one draft to another. -/
structure Fits (L : Layout) (N : Names) (d d' : Draft) : Prop where
  names : L.names = N
  sized : L.Sized
  parameters {name : Text} : name ∈ L.parameters → name ∈ d.locals
  constants {i : Nat} {c : Constant} :
    d'.constants[i]? = some c → L.program.constants[i]? = some c
  globals {i : Nat} {name : Text} : d'.globals[i]? = some name → L.program.globals[i]? = some name
  locals {i : Nat} {name : Text} : d'.locals[i]? = some name → L.locals[i]? = some name

theorem Fits.before {L : Layout} {N : Names} {d d' d'' : Draft} (h : Fits L N d d'')
    (hgrow : Grows N d' d'') : Fits L N d d' :=
  ⟨h.names, h.sized, h.parameters, fun hi => h.constants (hgrow.constants hi),
    fun hi => h.globals (hgrow.globals hi), fun hi => h.locals (hgrow.locals hi)⟩

theorem Fits.after {L : Layout} {N : Names} {d d' d'' : Draft} (h : Fits L N d d'')
    (hgrow : Grows N d d') : Fits L N d' d'' :=
  ⟨h.names, h.sized, fun hname => hgrow.mem_locals (h.parameters hname), h.constants, h.globals,
    h.locals⟩

/-- Code that was generated from one draft to another, with its arrangement in every layout that
holds it. -/
structure Codes (N : Names) (start : Nat) (d : Draft) (code : List Instruction) (d' : Draft)
    (A : Layout → Nat → Nat → Prop) : Prop where
  quiet : Quiet N d d'
  placed {L : Layout} : Fits L N d d' →
    Stands (L.program.code[·]?) (Moved L.entry) (L.entry + start) code →
    A L (L.entry + start) (L.entry + start + code.length)

namespace Codes

variable {N : Names} {start : Nat} {d d' d'' : Draft} {code more : List Instruction}
variable {A B : Layout → Nat → Nat → Prop}

theorem mono (h : Codes N start d code d' A)
    (hAB : ∀ L, Fits L N d d' → A L (L.entry + start) (L.entry + start + code.length) →
      B L (L.entry + start) (L.entry + start + code.length)) : Codes N start d code d' B :=
  ⟨h.quiet, fun hL hcode => hAB _ hL (h.placed hL hcode)⟩

theorem append (h : Codes N start d code d' A) (h' : Codes N (start + code.length) d' more d'' B) :
    Codes N start d (code ++ more) d'' fun L pc pc' =>
      ∃ q, q = pc + code.length ∧ A L pc q ∧ B L q pc' := by
  refine ⟨h.quiet.trans h'.quiet, fun {L} hL hcode => ?_⟩
  obtain ⟨hfirst, hsecond⟩ := stands_append.1 hcode
  have hB := h'.placed (hL.after h.quiet.toGrows) (by rwa [← Nat.add_assoc])
  refine ⟨_, rfl, h.placed (hL.before h'.quiet.toGrows) hfirst, ?_⟩
  rwa [List.length_append, ← Nat.add_assoc, Nat.add_assoc L.entry]

theorem congr {start' : Nat} (h : Codes N start d code d' A) (hstart : start = start') :
    Codes N start' d code d' A := hstart ▸ h

theorem nil (h : Quiet N d d') : Codes N start d [] d' fun _ pc pc' => pc' = pc :=
  ⟨h, fun _ _ => rfl⟩

theorem indexed (start : Nat) (op : Opcode) (a b : Nat) (h : Quiet N d d')
    (hkind : op.kindA ≠ .target) (hab : ∀ {L}, Fits L N d d' → a ≤ maxOperand ∧ b ≤ maxOperand) :
    Codes N start d [.of op (BitVec.ofNat 24 a) (BitVec.ofNat 24 b)] d'
      fun L pc pc' => L.At pc op a b ∧ pc' = pc + 1 := by
  refine ⟨h, fun {L} hL hcode => ?_⟩
  obtain ⟨ins, hins, hmoved⟩ := stands_singleton.1 hcode
  have hsame : ins = .of op (BitVec.ofNat 24 a) (BitVec.ofNat 24 b) := by
    simpa [Moved, hkind] using hmoved
  exact ⟨⟨hsame ▸ hins, hab hL⟩, rfl⟩

theorem plain (op : Opcode) (hkind : op.kindA ≠ .target) :
    Codes N start d [.of op] d fun L pc pc' => L.At pc op ∧ pc' = pc + 1 :=
  indexed start op 0 0 (Quiet.refl N d) hkind fun _ => ⟨Nat.zero_le _, Nat.zero_le _⟩

theorem target (op : Opcode) {a : Nat} (hkind : op.kindA = .target) (ha : a ≤ maxOperand) :
    Codes N start d [.of op (BitVec.ofNat 24 a)] d
      fun L pc pc' => L.At pc op (L.entry + a) ∧ pc' = pc + 1 := by
  refine ⟨Quiet.refl N d, fun {L} _ hcode => ?_⟩
  obtain ⟨ins, hins, hmoved⟩ := stands_singleton.1 hcode
  obtain ⟨rfl, hle⟩ := moved_target hkind ha hmoved
  exact ⟨⟨hins, hle, Nat.zero_le _⟩, rfl⟩

end Codes

theorem Fits.le_maxOperand {L : Layout} {N : Names} {d d' : Draft} (hL : Fits L N d d') {i : Nat} :
    (∀ {c}, d'.constants[i]? = some c → i ≤ maxOperand) ∧
      (∀ {name}, d'.globals[i]? = some name → i ≤ maxOperand) ∧
      ∀ {name}, d'.locals[i]? = some name → i ≤ maxOperand := by
  obtain ⟨hconstants, hglobals, hlocals, -, -⟩ := hL.sized
  refine ⟨fun hi => ?_, fun hi => ?_, fun hi => ?_⟩
  · obtain ⟨hlt, -⟩ := Array.getElem?_eq_some_iff.1 (hL.constants hi)
    omega
  · obtain ⟨hlt, -⟩ := Array.getElem?_eq_some_iff.1 (hL.globals hi)
    omega
  · obtain ⟨hlt, -⟩ := List.getElem?_eq_some_iff.1 (hL.locals hi)
    unfold maxLocals at hlocals
    unfold maxOperand
    omega

theorem codes_of_constant {N : Names} {start n : Nat} {d d' : Draft} {op : Opcode} {c : Constant}
    (h : Quiet N d d') (hkind : op.kindA ≠ .target) (hn : d'.constants[n]? = some c) :
    Codes N start d [.of op (BitVec.ofNat 24 n)] d' fun L pc pc' =>
      ∃ i, L.At pc op i ∧ L.program.constants[i]? = some c ∧ pc' = pc + 1 := by
  have hcode := Codes.indexed start op n 0 h hkind fun hL =>
    ⟨hL.le_maxOperand.1 hn, Nat.zero_le _⟩
  exact hcode.mono fun L hL hat => ⟨n, hat.1, hL.constants hn, hat.2⟩

theorem yields_loadConstant (N : Names) (c : Constant) :
    Yields (loadConstant c) fun d ins d' => ∀ start, Codes N start d [ins] d'
      fun L pc pc' => L.Loads pc c ∧ pc' = pc + 1 := by
  refine ((yields_constantIndex N c).bind fun _ => Yields.pure).mono ?_
  rintro d _ _ ⟨_, d', ⟨hquiet, n, rfl, hn⟩, rfl, rfl⟩ start
  refine (codes_of_constant hquiet (by decide) hn).mono ?_
  rintro L - ⟨i, hat, hi, hend⟩
  exact ⟨⟨i, hat, hi⟩, hend⟩

theorem yields_load (cx : Context) (name : Text) :
    Yields (load cx name) fun d ins d' => ∀ start, Codes cx.names start d [ins] d'
      fun L pc pc' => L.Reads pc name ∧ pc' = pc + 1 := by
  refine Yields.get fun draft => ?_
  split
  · next slot hfind =>
    refine Yields.pure.mono ?_
    rintro _ _ d ⟨rfl, rfl⟩ rfl start
    obtain ⟨hlt, heq, -⟩ := List.findIdx?_eq_some_iff_getElem.1 hfind
    have hslot : d.locals[slot]? = some name := by
      rw [List.getElem?_eq_getElem hlt, eq_of_beq heq]
    have hcode := Codes.indexed start .loadLocal slot 0 (Quiet.refl cx.names d)
      (by decide) fun hL => ⟨hL.le_maxOperand.2.2 hslot, Nat.zero_le _⟩
    exact hcode.mono fun L hL hat => ⟨.inl ⟨slot, hat.1, hL.locals hslot⟩, hat.2⟩
  · next hfind =>
    split
    · next hknown =>
      refine ((yields_globalIndex cx.names name).bind fun _ => Yields.pure).mono ?_
      rintro d _ _ ⟨_, d', ⟨hquiet, -, n, rfl, hn⟩, rfl, rfl⟩ rfl start
      have hcode := Codes.indexed start .loadGlobal n 0 hquiet (by decide)
        fun hL => ⟨hL.le_maxOperand.2.1 hn, Nat.zero_le _⟩
      refine hcode.mono fun L hL hat => ⟨.inr ⟨n, hat.1, hL.globals hn, .inr ⟨?_, ?_⟩⟩, hat.2⟩
      · rw [hL.names]
        simpa [Context.names] using hknown
      · intro hparam
        simpa using List.findIdx?_eq_none_iff.1 hfind name (hL.parameters hparam)
    · exact .fail ⟨nofun, nofun⟩

theorem yields_store (cx : Context) (name : Text) :
    Yields (store cx name) fun d ins d' => ∀ start, Codes cx.names start d [ins] d'
      fun L pc pc' => L.Writes pc name ∧ pc' = pc + 1 := by
  refine Yields.get fun draft => ?_
  dsimp only
  split
  · next hshared =>
    refine ((yields_globalIndex cx.names name).bind fun _ => Yields.pure).mono ?_
    rintro d _ _ ⟨_, d', ⟨hquiet, -, n, rfl, hn⟩, rfl, rfl⟩ rfl start
    have hcode := Codes.indexed start .storeGlobal n 0 hquiet (by decide)
      fun hL => ⟨hL.le_maxOperand.2.1 hn, Nat.zero_le _⟩
    refine hcode.mono fun L hL hat => ⟨.inr ⟨n, hat.1, hL.globals hn, ?_⟩, hat.2⟩
    simp only [Bool.or_eq_true, Bool.and_eq_true, Bool.not_eq_true', List.contains_eq_mem,
      decide_eq_false_iff_not, decide_eq_true_eq] at hshared
    unfold Layout.Shared
    rw [hL.names]
    exact hshared.imp id fun h => ⟨h.2, fun hparam => h.1 (hL.parameters hparam)⟩
  · next hlocal =>
    simp only [Bool.or_eq_true, Bool.and_eq_true, Bool.not_eq_true', List.contains_eq_mem,
      decide_eq_false_iff_not, decide_eq_true_eq, not_or, not_and, Bool.not_eq_true] at hlocal
    refine ((yields_localSlot cx.names cx name).bind fun _ => Yields.pure).mono ?_
    rintro d _ _ ⟨_, d', hslot, rfl, rfl⟩ rfl start
    obtain ⟨hquiet, n, rfl, hn⟩ := hslot (by
      by_cases hmem : name ∈ d.locals
      · exact .inl hmem
      · exact .inr (.inr ⟨hlocal.1, hlocal.2 hmem⟩))
    have hcode := Codes.indexed start .storeLocal n 0 hquiet (by decide)
      fun hL => ⟨hL.le_maxOperand.2.2 hn, Nat.zero_le _⟩
    refine hcode.mono fun L hL hat => ⟨.inl ⟨n, hat.1, hL.locals hn, ?_⟩, hat.2⟩
    rw [hL.names]
    simpa [Context.names] using hlocal.1

theorem yields_callee (cx : Context) (name : Text) (given : Nat) :
    Yields (callee cx name given) fun d i d' => d' = d ∧ ∀ start c, Codes cx.names start c
      [.of .call i (BitVec.ofNat 24 given)] c fun L pc pc' =>
        L.Calls pc name given ∧ pc' = pc + 1 := by
  unfold callee
  split
  · exact .fail ⟨nofun, nofun⟩
  · next i hfind =>
    obtain ⟨hlt, -⟩ := Array.findIdx?_eq_some_iff_getElem.1 hfind
    have hget : cx.functions[i]? = some cx.functions[i] := Array.getElem?_eq_getElem hlt
    dsimp only
    rw [Array.getD_eq_getD_getElem?, hget, Option.getD_some]
    split
    · exact .fail ⟨nofun, nofun⟩
    · next hmost =>
      split
      · exact .fail ⟨nofun, nofun⟩
      · next hleast =>
        refine Yields.pure.mono ?_
        rintro _ _ _ ⟨rfl, rfl⟩
        refine ⟨rfl, fun start d => ?_⟩
        have hcode := Codes.indexed start .call (i + 1) given (Quiet.refl cx.names d)
          (by decide) fun {L} hL => by
            have hsize := hL.sized.functions
            have harity := hL.sized.arity (f := cx.functions[i]) (by
              rw [hL.names]
              exact Array.getElem_mem hlt)
            rw [hL.names] at hsize
            simp only [Context.names, maxArguments, maxOperand] at hsize harity ⊢
            omega
        refine hcode.mono fun L hL hat => ⟨⟨i, cx.functions[i], hat.1, ?_⟩, hat.2⟩
        rw [hL.names]
        exact ⟨hfind, hget, by omega, by omega⟩

end Compile
end ScriptMachine
