import ScriptMachine.Proofs.Compile.Generated
import ScriptMachine.Proofs.Compile.Occurrence

namespace ScriptMachine
namespace Compile

/-- The counter of a loop, and the addresses of the instructions that are generated for it. -/
structure Counter where
  number : Nat
  /-- Where the counter is set to the number of rounds. -/
  start : Nat
  test : Nat
  /-- Where the next round takes the counter to count down from it, and where it stores what is
  left. -/
  again : Nat
  rest : Nat
deriving DecidableEq

def Counter.name (c : Counter) : Text := counterName c.number

def Counter.touches (c : Counter) : List (Nat × Opcode × Text) :=
  [(c.start, .storeLocal, c.name), (c.test, .loadLocal, c.name), (c.again, .loadLocal, c.name),
   (c.rest, .storeLocal, c.name)]

mutual

/-- The loop counters of a statement whose code starts at an address, numbered from `n` on. -/
def actionCounters (leave n pc : Nat) : Action → List Counter
  | .branch c yes no =>
    let first := blockCounters leave n (pc + exprSize c + 1) yes
    first ++ blockCounters leave (n + first.length)
      (pc + exprSize c + 1 + blockSize leave yes + 1) no
  | .whileLoop c b => blockCounters 0 n (pc + exprSize c + 1) b
  | .repeatLoop e b =>
    let next := pc + exprSize e + 5 + blockSize 0 b
    ⟨n, pc + exprSize e, pc + exprSize e + 1, next, next + 3⟩ ::
      blockCounters 0 (n + 1) (pc + exprSize e + 5) b
  | .guard b hs c =>
    let body := blockCounters (leave + 1) n (pc + 1) b
    let handlers := handlersCounters (leave + 1) (n + body.length)
      (pc + 1 + blockSize (leave + 1) b + 1) hs
    body ++ handlers ++ cleanupCounters (n + body.length + handlers.length)
      (pc + 1 + blockSize (leave + 1) b + 1 + handlersSize (leave + 1) hs) c
  | _ => []

def handlersCounters (leave n pc : Nat) : List Handler → List Counter
  | [] => []
  | .mk _ _ b :: rest =>
    let first := blockCounters leave n (pc + 1) b
    first ++ handlersCounters leave (n + first.length) (pc + 1 + blockSize leave b + 1) rest

def cleanupCounters (n pc : Nat) : Option (List Stmt) → List Counter
  | none => []
  | some b => blockCounters 0 n pc b

def blockCounters (leave n pc : Nat) : List Stmt → List Counter
  | [] => []
  | .mk _ a :: rest =>
    let first := actionCounters leave n pc a
    first ++ blockCounters leave (n + first.length) (pc + actionSize leave a) rest

end

/-- What a text has instructions on slots for: the identifiers among its expressions, the names it
assigns, and its loop counters. -/
structure Mentions where
  sites : List (Nat × Expr) := []
  stores : List (Nat × Text) := []
  touches : List (Nat × Opcode × Text) := []

namespace Mentions

def append (M M' : Mentions) : Mentions :=
  ⟨M.sites ++ M'.sites, M.stores ++ M'.stores, M.touches ++ M'.touches⟩

instance : Append Mentions := ⟨append⟩

@[simp] theorem sites_append (M M' : Mentions) : (M ++ M').sites = M.sites ++ M'.sites := (rfl)

@[simp] theorem stores_append (M M' : Mentions) : (M ++ M').stores = M.stores ++ M'.stores :=
  (rfl)

@[simp] theorem touches_append (M M' : Mentions) : (M ++ M').touches = M.touches ++ M'.touches :=
  (rfl)

/-- An instruction on the slot of a name is one that the text has. -/
def Allows (M : Mentions) (pc : Nat) (op : Opcode) (name : Text) : Prop :=
  (op = .loadLocal ∧ (pc, .identifier name) ∈ M.sites) ∨
    (op = .storeLocal ∧ (pc, name) ∈ M.stores) ∨ (pc, op, name) ∈ M.touches

/-- The same counters, and nothing that the other text does not have. -/
structure Within (M M' : Mentions) : Prop where
  sites : M.sites ⊆ M'.sites
  stores : M.stores ⊆ M'.stores
  touches {x : Nat × Opcode × Text} : x ∈ M.touches ↔ x ∈ M'.touches

theorem Within.allows {M M' : Mentions} (h : M.Within M') {pc : Nat} {op : Opcode} {name : Text}
    (hallows : M.Allows pc op name) : M'.Allows pc op name := by
  rcases hallows with ⟨hop, hsite⟩ | ⟨hop, hstore⟩ | htouch
  · exact .inl ⟨hop, h.sites hsite⟩
  · exact .inr (.inl ⟨hop, h.stores hstore⟩)
  · exact .inr (.inr (h.touches.1 htouch))

theorem allows_left {M : Mentions} (M' : Mentions) {pc : Nat} {op : Opcode} {name : Text}
    (h : M.Allows pc op name) : (M ++ M').Allows pc op name := by
  rcases h with ⟨hop, hsite⟩ | ⟨hop, hstore⟩ | htouch
  · exact .inl ⟨hop, List.mem_append_left _ hsite⟩
  · exact .inr (.inl ⟨hop, List.mem_append_left _ hstore⟩)
  · exact .inr (.inr (List.mem_append_left _ htouch))

theorem allows_right (M : Mentions) {M' : Mentions} {pc : Nat} {op : Opcode} {name : Text}
    (h : M'.Allows pc op name) : (M ++ M').Allows pc op name := by
  rcases h with ⟨hop, hsite⟩ | ⟨hop, hstore⟩ | htouch
  · exact .inl ⟨hop, List.mem_append_right _ hsite⟩
  · exact .inr (.inl ⟨hop, List.mem_append_right _ hstore⟩)
  · exact .inr (.inr (List.mem_append_right _ htouch))

end Mentions

/-- An instruction on a slot is there for a name that has the slot, and allowed for it. -/
def Owns (slots : List Text) (M : Mentions) (slot : Slot) (pc : Nat) : Prop :=
  ∀ ins op, slot = .fixed ins → ins.op? = some op → op.kindA = .slot →
    ∃ n name, ins.a = BitVec.ofNat 24 n ∧ slots[n]? = some name ∧ M.Allows pc op name

theorem owns_other (slots : List Text) (M : Mentions) (pc : Nat) {op : Opcode}
    (hkind : op.kindA ≠ .slot) (a b : BitVec 24) : Owns slots M (.fixed (.of op a b)) pc := by
  rintro _ op' ⟨⟩ hop hkind'
  rw [Instruction.op?_of] at hop
  cases hop
  exact absurd hkind' hkind

/-- A step that makes no loop counter. -/
structure Still (d d' : Draft) : Prop where
  counters : d'.counters = d.counters
  locals {i : Nat} {name : Text} : d.locals[i]? = some name → d'.locals[i]? = some name

theorem Still.refl (d : Draft) : Still d d := ⟨rfl, id⟩

theorem Quiet.still {N : Names} {d d' : Draft} (h : Quiet N d d') : Still d d' :=
  ⟨h.counters, h.locals⟩

/-- Slots of code that starts at an address, generated from one draft to another with some number of
loop counters. -/
structure Uses (d : Draft) (pc : Nat) (code : List Slot) (d' : Draft) (size counters : Nat)
    (M : Mentions) : Prop where
  size : code.length = size
  counters : d'.counters = d.counters + counters
  locals {i : Nat} {name : Text} : d.locals[i]? = some name → d'.locals[i]? = some name
  owned : Stands some (Owns d'.locals M) pc code
  touched {q : Nat} {op : Opcode} {name : Text} : (q, op, name) ∈ M.touches →
    ∃ i n, q = pc + i ∧ d'.locals[n]? = some name ∧
      code[i]? = some (.fixed (.of op (BitVec.ofNat 24 n)))

namespace Uses

variable {d c d' : Draft} {pc n n' k k' : Nat} {code more : List Slot} {M M' : Mentions}

theorem mono (h : Uses d pc code d' n k M) (hn : n = n') (hk : k = k') (hM : M.Within M') :
    Uses d pc code d' n' k' M' := by
  refine ⟨hn ▸ h.size, hk ▸ h.counters, h.locals, h.owned.mono ?_,
    fun htouch => h.touched (hM.touches.2 htouch)⟩
  intro slot _ q howns ins op hslot hop hkind
  obtain ⟨n, name, ha, hn, hallows⟩ := howns ins op hslot hop hkind
  exact ⟨n, name, ha, hn, hM.allows hallows⟩

theorem append (h : Uses d pc code c n k M) (h' : Uses c (pc + n) more d' n' k' M') :
    Uses d pc (code ++ more) d' (n + n') (k + k') (M ++ M') := by
  refine ⟨?_, ?_, fun hi => h'.locals (h.locals hi), stands_append.2 ⟨h.owned.mono ?_, ?_⟩, ?_⟩
  · rw [List.length_append, h.size, h'.size]
  · rw [h'.counters, h.counters, Nat.add_assoc]
  · intro slot _ q howns ins op hslot hop hkind
    obtain ⟨n, name, ha, hn, hallows⟩ := howns ins op hslot hop hkind
    exact ⟨n, name, ha, h'.locals hn, Mentions.allows_left M' hallows⟩
  · rw [h.size]
    refine h'.owned.mono ?_
    intro slot _ q howns ins op hslot hop hkind
    obtain ⟨n, name, ha, hn, hallows⟩ := howns ins op hslot hop hkind
    exact ⟨n, name, ha, hn, Mentions.allows_right M hallows⟩
  · intro q op name htouch
    rcases List.mem_append.1 htouch with htouch | htouch
    · obtain ⟨i, m, hq, hm, hi⟩ := h.touched htouch
      have hlt := (List.getElem?_eq_some_iff.1 hi).1
      exact ⟨i, m, hq, h'.locals hm, by rw [List.getElem?_append_left hlt, hi]⟩
    · obtain ⟨i, m, hq, hm, hi⟩ := h'.touched htouch
      refine ⟨n + i, m, by rw [hq, Nat.add_assoc], hm, ?_⟩
      rw [List.getElem?_append_right (by rw [h.size]; omega), h.size, Nat.add_sub_cancel_left, hi]

theorem nil (h : Still d d') : Uses d pc [] d' 0 0 {} :=
  ⟨rfl, h.counters, h.locals, by simp [Stands], nofun⟩

theorem before (hstill : Still d c) (h : Uses c pc code d' n k M) : Uses d pc code d' n k M :=
  ⟨h.size, by rw [h.counters, hstill.counters], fun hi =>
    h.locals (hstill.locals hi), h.owned, h.touched⟩

theorem other (h : Still d d') {op : Opcode} (hkind : op.kindA ≠ .slot)
    (a b : BitVec 24) : Uses d pc [.fixed (.of op a b)] d' 1 0 {} :=
  ⟨rfl, h.counters, h.locals, stands_singleton.2 ⟨pc, rfl, owns_other _ _ _ hkind a b⟩, nofun⟩

theorem slot (h : Still d d') {op : Opcode} {m : Nat} {name : Text}
    (hm : d'.locals[m]? = some name) (hallows : M.Allows pc op name) (hnone : M.touches = []) :
    Uses d pc [.fixed (.of op (BitVec.ofNat 24 m))] d' 1 0 M := by
  refine ⟨rfl, h.counters, h.locals, stands_singleton.2 ⟨pc, rfl, ?_⟩, ?_⟩
  · rintro _ op' ⟨⟩ hop -
    rw [Instruction.op?_of] at hop
    cases hop
    exact ⟨m, name, rfl, hm, hallows⟩
  · intro q op name htouch
    rw [hnone] at htouch
    cases htouch

theorem touch (h : Still d d') (op : Opcode) {m : Nat} {name : Text}
    (hm : d'.locals[m]? = some name) :
    Uses d pc [.fixed (.of op (BitVec.ofNat 24 m))] d' 1 0 ⟨[], [], [(pc, op, name)]⟩ := by
  refine ⟨rfl, h.counters, h.locals, stands_singleton.2 ⟨pc, rfl, ?_⟩, ?_⟩
  · rintro _ op' ⟨⟩ hop -
    rw [Instruction.op?_of] at hop
    cases hop
    exact ⟨m, name, rfl, hm, .inr (.inr (List.mem_singleton_self _))⟩
  · intro q op' name' htouch
    cases List.mem_singleton.1 htouch
    exact ⟨0, m, rfl, hm, rfl⟩

theorem after_counter (hcounters : c.counters = d.counters + 1)
    (hlocals : ∀ {i : Nat} {name : Text}, d.locals[i]? = some name → c.locals[i]? = some name)
    (h : Uses c pc code d' n k M) : Uses d pc code d' n (1 + k) M :=
  ⟨h.size, by rw [h.counters, hcounters, Nat.add_assoc], fun hi => h.locals (hlocals hi), h.owned,
    h.touched⟩

end Uses

theorem uses_loadConstant (c : Constant) :
    Yields (loadConstant c) fun d ins d' => ∀ pc, Uses d pc [.fixed ins] d' 1 0 {} := by
  refine ((yields_constantIndex ⟨true, [], #[]⟩ c).bind fun _ => Yields.pure).mono ?_
  rintro d _ _ ⟨i, d', ⟨hquiet, -⟩, rfl, rfl⟩ pc
  exact .other hquiet.still (by decide) _ _

theorem uses_load (cx : Context) (name : Text) :
    Yields (load cx name) fun d ins d' => ∀ pc,
      Uses d pc [.fixed ins] d' 1 0 ⟨[(pc, .identifier name)], [], []⟩ := by
  refine Yields.get fun draft => ?_
  split
  · next slot hfind =>
    refine Yields.pure.mono ?_
    rintro _ _ d ⟨rfl, rfl⟩ rfl pc
    obtain ⟨hlt, heq, -⟩ := List.findIdx?_eq_some_iff_getElem.1 hfind
    have hslot : d.locals[slot]? = some name := by
      rw [List.getElem?_eq_getElem hlt, eq_of_beq heq]
    exact .slot (Still.refl d) hslot (.inl ⟨rfl, List.mem_singleton_self _⟩) rfl
  · split
    · refine ((yields_globalIndex cx.names name).bind fun _ => Yields.pure).mono ?_
      rintro d _ _ ⟨i, d', ⟨hquiet, -⟩, rfl, rfl⟩ rfl pc
      exact (Uses.other hquiet.still (by decide) _ _).mono rfl rfl ⟨by simp, by simp, by simp⟩
    · exact .fail ⟨nofun, nofun⟩

theorem uses_store (cx : Context) (name : Text) :
    Yields (store cx name) fun d ins d' => ∀ pc,
      Uses d pc [.fixed ins] d' 1 0 ⟨[], [(pc, name)], []⟩ := by
  refine Yields.get fun draft => ?_
  dsimp only
  split
  · refine ((yields_globalIndex cx.names name).bind fun _ => Yields.pure).mono ?_
    rintro d _ _ ⟨i, d', ⟨hquiet, -⟩, rfl, rfl⟩ rfl pc
    exact (Uses.other hquiet.still (by decide) _ _).mono rfl rfl ⟨by simp, by simp, by simp⟩
  · refine ((yields_localSlot_cases cx name).bind fun _ => Yields.pure).mono ?_
    rintro d _ d' ⟨_, _, ⟨⟨n, rfl, hn⟩, hcases⟩, rfl, rfl⟩ rfl pc
    have hstill : Still d d' := by
      obtain ⟨-, rfl⟩ | ⟨-, -, rfl⟩ := hcases
      · exact Still.refl d'
      · refine ⟨rfl, fun {i name'} hi => ?_⟩
        rw [List.getElem?_append_left (List.getElem?_eq_some_iff.1 hi).1, hi]
    exact .slot hstill hn (.inr (.inl ⟨rfl, List.mem_singleton_self _⟩)) rfl

theorem uses_callee (cx : Context) (name : Text) (given : Nat) :
    Yields (callee cx name given) fun d _ d' => d' = d :=
  (yields_callee cx name given).mono fun _ _ _ h => h.1

theorem uses_logicalTest (d : Draft) (pc : Nat) (op : LogicalOp) :
    Uses d pc ((logicalTest op).map .fixed) d (testSize op) 0 {} := by
  cases op with
  | and => exact .nil (Still.refl d)
  | or => exact .other (Still.refl d) (by decide) _ _

/-- Code whose expressions are those at some places and which makes no counter. -/
abbrev UsesSites (d : Draft) (pc : Nat) (code : List Instruction) (d' : Draft) (size : Nat)
    (sites : List (Nat × Expr)) : Prop :=
  Uses d pc (code.map .fixed) d' size 0 ⟨sites, [], []⟩

theorem UsesSites.snoc {d d' c : Draft} {pc n : Nat} {code : List Instruction}
    {sites : List (Nat × Expr)} (h : UsesSites d pc code c n sites) (hstill : Still c d')
    {op : Opcode} (hkind : op.kindA ≠ .slot) (a b : BitVec 24) {e : Expr} :
    UsesSites d pc (code ++ [.of op a b]) d' (n + 1) ((pc, e) :: sites) := by
  rw [UsesSites, List.map_append]
  exact (h.append (.other hstill hkind a b)).mono rfl rfl
    ⟨by simp, by simp, by simp⟩

theorem UsesSites.append {d d' c : Draft} {pc n n' : Nat} {code more : List Instruction}
    {sites sites' : List (Nat × Expr)} (h : UsesSites d pc code c n sites)
    (h' : UsesSites c (pc + n) more d' n' sites') :
    UsesSites d pc (code ++ more) d' (n + n') (sites ++ sites') := by
  rw [UsesSites, List.map_append]
  exact Uses.append h h'

theorem UsesSites.snoc_plain {d d' c : Draft} {pc n n' : Nat} {code more : List Instruction}
    {sites : List (Nat × Expr)} (h : UsesSites d pc code c n sites)
    (h' : UsesSites c (pc + n) more d' n' []) :
    UsesSites d pc (code ++ more) d' (n + n') sites := by
  have happend := h.append h'
  rwa [List.append_nil] at happend

theorem UsesSites.other {d d' : Draft} (pc : Nat) (h : Still d d') {op : Opcode}
    (hkind : op.kindA ≠ .slot) (a b : BitVec 24) : UsesSites d pc [.of op a b] d' 1 [] :=
  Uses.other h hkind a b

theorem Uses.codes {d d' : Draft} {pc n : Nat} {ins : Instruction}
    (h : Uses d pc [.fixed ins] d' n 0 {}) : UsesSites d pc [ins] d' n [] := h

theorem uses_literal (c : Constant) (e : Expr) :
    Yields (do return [← loadConstant c]) fun d code d' => ∀ pc,
      UsesSites d pc code d' 1 [(pc, e)] := by
  refine ((uses_loadConstant c).bind fun _ => Yields.pure).mono ?_
  rintro d _ _ ⟨ins, d', h, rfl, rfl⟩ pc
  exact (h pc).mono rfl rfl ⟨by simp, by simp, by simp⟩

theorem Yields.uses_plain {x : Build (List Instruction)} {n : Nat} {sites : Nat → List (Nat × Expr)}
    (op : Opcode) (hkind : op.kindA ≠ .slot) (e : Expr)
    (hx : Yields x fun d code d' => ∀ pc, UsesSites d pc code d' n (sites pc)) :
    Yields (do return (← x) ++ [.of op]) fun d code d' => ∀ pc,
      UsesSites d pc code d' (n + 1) ((pc, e) :: sites pc) := by
  refine (hx.bind fun _ => Yields.pure).mono ?_
  rintro d _ _ ⟨code, d', h, rfl, rfl⟩ pc
  exact (h pc).snoc (Still.refl _) hkind _ _

mutual

theorem uses_expr (cx : Context) (start : Nat) : (e : Expr) →
    Yields (expr cx start e) fun d code d' => ∀ pc,
      UsesSites d pc code d' (exprSize e) (exprSites pc e)
  | .number x => uses_literal (.number x) (.number x)
  | .string t => uses_literal (.string t) (.string t)
  | .boolean b => uses_literal (.boolean b) (.boolean b)
  | .nil => uses_literal .nil .nil
  | .identifier name => by
    refine ((uses_load cx name).bind fun _ => Yields.pure).mono ?_
    rintro d _ _ ⟨ins, d', h, rfl, rfl⟩ pc
    exact h pc
  | .unary op e => (uses_expr cx start e).uses_plain op.opcode
      (by cases op <;> decide) (.unary op e)
  | .binary op l r => by
    refine ((uses_expr cx start l).bind fun left =>
      (uses_expr cx (start + left.length) r).bind fun _ => Yields.pure).mono ?_
    rintro d _ _ ⟨left, c, hl, right, d', hr, rfl, rfl⟩ pc
    exact ((hl pc).append (hr _)).snoc (Still.refl _) (by cases op <;> decide) _ _
  | .logical op l r => by
    refine ((uses_expr cx start l).bind fun left =>
      (uses_expr cx (start + (left ++ logicalTest op).length + 1) r).bind fun right =>
      (uses_loadConstant _).bind fun _ => yields_operand.bind fun _ =>
      (uses_loadConstant _).bind fun _ => yields_operand.bind fun _ => Yields.pure).mono ?_
    rintro d _ _ ⟨left, d₁, hl, right, d₂, hr, otherwise, d₃, hother, short, _, ⟨rfl, -⟩,
      decided, d₄, hdecided, stop, _, ⟨rfl, -⟩, rfl, rfl⟩ pc
    have hjump (c : Draft) (q : Nat) : UsesSites c q [.of .jumpIfFalse short] c 1 [] :=
      .other q (Still.refl c) (by decide) short 0
    have htail (q : Nat) := (hjump d₂ q).append (((hother _).codes).append
      ((UsesSites.other _ (Still.refl _) (by decide : Opcode.jump.kindA ≠ .slot) stop 0).append
        (hdecided _).codes))
    have hcode := ((((hl pc).snoc_plain (uses_logicalTest d₁ _ op)).snoc_plain (hjump d₁ _)).append
      ((hr _).snoc_plain (uses_logicalTest d₂ _ op))).snoc_plain (htail _)
    refine hcode.mono ?_ rfl ⟨fun x hx => List.mem_cons_of_mem _ ?_, by simp, by simp⟩
    · rw [exprSize]
      omega
    · rwa [← Nat.add_assoc, ← Nat.add_assoc] at hx
  | .call name args => by
    refine ((uses_callee cx name args.length).bind fun _ =>
      (uses_exprs cx start args).bind fun _ => Yields.pure).mono ?_
    rintro d _ d' ⟨i, _, rfl, code, _, h, rfl, rfl⟩ pc
    exact (h pc).snoc (Still.refl _) (by decide) _ _
  | .list items => by
    refine ((uses_exprs cx start items).bind fun _ =>
      yields_operand.bind fun _ => Yields.pure).mono ?_
    rintro d _ d' ⟨code, _, h, _, _, ⟨rfl, -⟩, rfl, rfl⟩ pc
    exact (h pc).snoc (Still.refl _) (by decide) _ _
  | .dict entries => by
    refine ((uses_entries cx start entries).bind fun _ =>
      yields_operand.bind fun _ => Yields.pure).mono ?_
    rintro d _ d' ⟨code, _, h, _, _, ⟨rfl, -⟩, rfl, rfl⟩ pc
    exact (h pc).snoc (Still.refl _) (by decide) _ _
  | .index c i => by
    refine ((uses_expr cx start c).bind fun collection =>
      (uses_expr cx (start + collection.length) i).bind fun _ => Yields.pure).mono ?_
    rintro d _ _ ⟨collection, c, hc, position, d', hi, rfl, rfl⟩ pc
    exact ((hc pc).append (hi _)).snoc (Still.refl _) (by decide) _ _
  | .newError typeName e => by
    refine ((uses_expr cx start e).bind fun _ =>
      (yields_constantIndex cx.names (.string typeName)).bind fun _ => Yields.pure).mono ?_
    rintro d _ _ ⟨code, c, h, _, d', ⟨hquiet, -⟩, rfl, rfl⟩ pc
    exact (h pc).snoc hquiet.still (by decide) _ _
  | .errorMessage e => (uses_expr cx start e).uses_plain .errorMessage (by decide) (.errorMessage e)
  | .errorType e => (uses_expr cx start e).uses_plain .errorType (by decide) (.errorType e)
  | .fileText e => (uses_expr cx start e).uses_plain .readFile (by decide) (.fileText e)

theorem uses_exprs (cx : Context) (start : Nat) : (es : List Expr) →
    Yields (exprs cx start es) fun d code d' => ∀ pc,
      UsesSites d pc code d' (exprsSize es) (exprsSites pc es)
  | [] => by
    refine Yields.pure.mono ?_
    rintro _ _ d ⟨rfl, rfl⟩ pc
    exact .nil (Still.refl d)
  | e :: rest => by
    refine ((uses_expr cx start e).bind fun first =>
      (uses_exprs cx (start + first.length) rest).bind fun _ => Yields.pure).mono ?_
    rintro d _ _ ⟨first, c, he, more, d', hrest, rfl, rfl⟩ pc
    exact (he pc).append (hrest _)

theorem uses_entries (cx : Context) (start : Nat) : (entries : List (Text × Expr)) →
    Yields (dictEntries cx start entries) fun d code d' => ∀ pc,
      UsesSites d pc code d' (entriesSize entries) (entriesSites pc entries)
  | [] => by
    refine Yields.pure.mono ?_
    rintro _ _ d ⟨rfl, rfl⟩ pc
    exact .nil (Still.refl d)
  | (key, e) :: rest => by
    refine ((uses_loadConstant (.string key)).bind fun _ =>
      (uses_expr cx (start + 1) e).bind fun value =>
      (uses_entries cx (start + 1 + value.length) rest).bind fun _ => Yields.pure).mono ?_
    rintro d _ _ ⟨ins, c, hkey, value, c', he, more, d', hrest, rfl, rfl⟩ pc
    rw [entriesSize, entriesSites, Nat.add_assoc pc]
    exact ((hkey pc).codes.append (he _)).append (hrest _)

end

def Fragment.slots (g : Fragment) : List Slot := g.code.map Placed.slot

@[simp] theorem Fragment.slots_append (g h : Fragment) : (g ++ h).slots = g.slots ++ h.slots :=
  List.map_append

@[simp] theorem slots_emit (cx : Context) (code : List Instruction) :
    (emit cx code).slots = code.map .fixed := by
  simp [Fragment.slots, emit, Fragment.ofCode]

/-- A fragment for a part of a text: its size, its counters, its expressions and the names it
assigns. -/
def UsesText (d : Draft) (pc : Nat) (g : Fragment) (d' : Draft) (size : Nat)
    (counters : List Counter) (sites : List (Nat × Expr)) (stores : List (Nat × Text)) : Prop :=
  Uses d pc g.slots d' size counters.length ⟨sites, stores, counters.flatMap Counter.touches⟩

namespace UsesText

variable {d c d' : Draft} {pc n n' : Nat} {g h : Fragment} {counters counters' : List Counter}
variable {sites sites' : List (Nat × Expr)} {stores stores' : List (Nat × Text)}

theorem mono (hg : UsesText d pc g d' n counters sites stores) (hn : n = n')
    (hcounters : counters = counters') (hsites : sites ⊆ sites') (hstores : stores ⊆ stores') :
    UsesText d pc g d' n' counters' sites' stores' := by
  subst hcounters
  exact Uses.mono hg hn rfl ⟨hsites, hstores, Iff.rfl⟩

theorem append (hg : UsesText d pc g c n counters sites stores)
    (hh : UsesText c (pc + n) h d' n' counters' sites' stores') :
    UsesText d pc (g ++ h) d' (n + n') (counters ++ counters') (sites ++ sites')
    (stores ++ stores') := by
  rw [UsesText, Fragment.slots_append]
  refine (Uses.append hg hh).mono rfl ?_ ⟨fun x hx => hx, fun x hx => hx, ?_⟩
  · rw [List.length_append]
  · simp

theorem ofCode (cx : Context) {code : List Instruction} (h : UsesSites d pc code d' n sites) :
    UsesText d pc (emit cx code) d' n [] sites [] := by
  rw [UsesText, slots_emit]
  exact h

theorem nil (h : Still d d') : UsesText d pc {} d' 0 [] [] [] := Uses.nil h

theorem snoc_plain (hg : UsesText d pc g c n counters sites stores) (cx : Context)
    {code : List Instruction} (hcode : UsesSites c (pc + n) code d' n' []) :
    UsesText d pc (g ++ emit cx code) d' (n + n') counters sites stores := by
  have happend := hg.append (ofCode cx hcode)
  rwa [List.append_nil, List.append_nil, List.append_nil] at happend

theorem snoc_other (hg : UsesText d pc g c n counters sites stores) (cx : Context) {op : Opcode}
    (hkind : op.kindA ≠ .slot) (a b : BitVec 24) :
    UsesText d pc (g ++ emit cx [.of op a b]) c (n + 1) counters sites stores :=
  hg.snoc_plain cx (.other _ (Still.refl c) hkind a b)

theorem next (hg : UsesText d pc g d' n counters sites stores) {k : Nat} (hk : d.counters = k) :
    d'.counters = k + counters.length := hk ▸ hg.counters

theorem closeExits (hg : UsesText d pc g d' n counters sites stores) (stop skip : BitVec 24) :
    UsesText d pc (g.closeExits stop skip) d' n counters sites stores := by
  obtain ⟨hsize, hcounters, hlocals, howned, htouched⟩ := hg
  rw [Fragment.slots, stands_map] at howned
  refine ⟨?_, hcounters, hlocals, stands_map.2 (stands_map.2 (howned.mono ?_)), ?_⟩
  · rw [← hsize]
    simp [Fragment.slots, Fragment.closeExits]
  · rintro ⟨slot, line⟩ - q howns
    rcases slot with ins | (_ | _)
    · exact howns
    · exact owns_other _ _ q (by decide : Opcode.jump.kindA ≠ .slot) stop 0
    · exact owns_other _ _ q (by decide : Opcode.jump.kindA ≠ .slot) skip 0
  · intro q op name htouch
    obtain ⟨i, m, hq, hm, hi⟩ := htouched htouch
    refine ⟨i, m, hq, hm, ?_⟩
    rw [Fragment.slots, List.getElem?_map, Option.map_eq_some_iff] at hi
    obtain ⟨⟨_, line⟩, hplaced, rfl⟩ := hi
    simp [Fragment.slots, Fragment.closeExits, hplaced]

end UsesText

theorem uses_leaveTries (start count : Nat) : Yields (leaveTries start count) fun d code d' => ∀ pc,
    UsesSites d pc code d' count [] := by
  induction count generalizing start with
  | zero =>
    refine Yields.pure.mono ?_
    rintro _ _ d ⟨rfl, rfl⟩ pc
    exact .nil (Still.refl d)
  | succ count ih =>
    refine (yields_operand.bind fun _ => (ih (start + 1)).bind fun _ => Yields.pure).mono ?_
    rintro d _ _ ⟨target, _, ⟨rfl, -⟩, code, _, hrest, rfl, rfl⟩ pc
    rw [Nat.add_comm]
    exact (UsesSites.other pc (Still.refl _) (by decide) target 0).append (hrest _)

theorem uses_catchStart (cx : Context) (binder : Text) :
    Yields (catchStart cx binder) fun d ins d' => ∀ pc, Uses d pc [.fixed ins] d' 1 0
      ⟨[], if binder.isEmpty then [] else [(pc, binder)], []⟩ := by
  unfold catchStart
  split
  · refine Yields.pure.mono ?_
    rintro _ _ d ⟨rfl, rfl⟩ pc
    exact Uses.other (Still.refl d) (by decide : Opcode.pop.kindA ≠ .slot) 0 0
  · exact uses_store cx binder

def Context.LeavesBy (cx : Context) (leave : Nat) : Prop := ∀ n, cx.leave? = some n → n = leave

theorem Context.leavesBy_inLoop (cx : Context) : cx.inLoop.LeavesBy 0 := by
  intro n hn
  rw [leave?_inLoop] at hn
  exact (Option.some.inj hn).symm

theorem Context.LeavesBy.inTry {cx : Context} {leave : Nat} (h : cx.LeavesBy leave)
    (hcx : cx.Nests) : cx.inTry.LeavesBy (leave + 1) := by
  intro n hn
  rw [hcx.leave?_inTry] at hn
  obtain ⟨m, hm, rfl⟩ := Option.map_eq_some_iff.1 hn
  rw [h m hm]

theorem Context.Nests.leavesBy_inCleanup {cx : Context} (hcx : cx.Nests) (leave : Nat) :
    cx.inCleanup.LeavesBy leave := by
  intro n hn
  rw [hcx.leave?_inCleanup] at hn
  cases hn

theorem Context.LeavesBy.onLine {cx : Context} {leave : Nat} (h : cx.LeavesBy leave) (line : Nat) :
    (cx.onLine line).LeavesBy leave := by
  intro n hn
  rw [leave?_onLine] at hn
  exact h n hn

theorem uses_loopExit (cx : Context) {leave : Nat} (hleave : cx.LeavesBy leave) (start : Nat)
    (way : LoopExit) : Yields (loopExit cx start way) fun d g d' => ∀ pc,
      UsesText d pc g d' (leave + 1) [] [] [] := by
  unfold loopExit
  split
  · exact .fail ⟨nofun, nofun⟩
  · next tries cleanups hloop =>
    split
    · exact .fail ⟨nofun, nofun⟩
    · next hsame =>
      refine ((uses_leaveTries start (cx.tries - tries)).bind fun _ => Yields.pure).mono ?_
      rintro d _ d' ⟨code, _, hcode, rfl, rfl⟩ pc
      rw [← hleave _ (Context.leave?_of_same hloop hsame)]
      have hopen (q : Nat) : UsesText d' q ⟨[⟨.unclosed way, cx.line⟩], []⟩ d' 1 [] [] [] :=
        ⟨rfl, rfl, id, stands_singleton.2 ⟨q, rfl, by rintro _ _ ⟨⟩⟩, by rintro _ _ _ ⟨⟩⟩
      exact (UsesText.ofCode cx (hcode pc)).append (hopen _)

theorem Yields.usesText_plain {x : Build (List Instruction)} {n : Nat}
    {sites : Nat → List (Nat × Expr)} (cx : Context) (op : Opcode) (hkind : op.kindA ≠ .slot)
    (hx : Yields x fun d code d' => ∀ pc, UsesSites d pc code d' n (sites pc)) :
    Yields (do return emit cx ((← x) ++ [.of op])) fun d g d' => ∀ pc k, d.counters = k →
      UsesText d pc g d' (n + 1) [] (sites pc) [] := by
  refine (hx.bind fun _ => Yields.pure).mono ?_
  rintro d _ d' ⟨code, _, h, rfl, rfl⟩ pc k hk
  exact .ofCode cx ((h pc).snoc_plain (.other _ (Still.refl d') hkind 0 0))

/-- The slots of a block are those of its text, wherever it starts and with whatever counter. -/
def Context.UsesBlock (cx : Context) (leave : Nat) (b : List Stmt) : Prop :=
  ∀ start, Yields (block cx start b) fun d g d' => ∀ pc k, d.counters = k →
    UsesText d pc g d' (blockSize leave b) (blockCounters leave k pc b)
      (blockSites leave pc b) (blockStores leave pc b)

def Context.UsesCatches (cx : Context) (leave : Nat) (hs : List Handler) : Prop :=
  ∀ start, Yields (catches cx start hs) fun d rs d' => ∀ cx' out pc k, d.counters = k →
    UsesText d pc (joinHandlers (emit cx' [.of .popTry out]) rs) d' (handlersSize leave hs)
      (handlersCounters leave k pc hs) (handlersSites leave pc hs) (handlersStores leave pc hs)

def Context.UsesCleanup (cx : Context) (c : Option (List Stmt)) : Prop :=
  ∀ start, Yields (cleanupBlock cx start c) fun d r d' => ∀ pc k, d.counters = k →
    UsesText d pc r.2 d' (cleanupSize c) (cleanupCounters k pc c) (cleanupSites pc c)
      (cleanupStores pc c)

def Context.UsesAction (cx : Context) (leave : Nat) (a : Action) : Prop :=
  ∀ start, Yields (action cx start a) fun d g d' => ∀ pc k, d.counters = k →
    UsesText d pc g d' (actionSize leave a) (actionCounters leave k pc a)
      (actionSites leave pc a) (actionStores leave pc a)

section

variable {cx : Context} {leave : Nat} {b yes no : List Stmt} {hs : List Handler}
variable {c : Option (List Stmt)}

theorem uses_branch (hyes : cx.inBlock.UsesBlock leave yes) (hno : cx.inBlock.UsesBlock leave no)
    (c : Expr) : cx.UsesAction leave (.branch c yes no) := by
  intro start
  refine ((uses_expr cx start c).bind fun condition => (hyes _).bind fun whenTrue =>
    (yields_operand.bind fun _ => Yields.pure).ite (yields_operand.bind fun _ =>
      (hno _).bind fun _ => yields_operand.bind fun _ => Yields.pure)).mono ?_
  rintro d _ d' ⟨condition, d₁, hc, whenTrue, d₂, hyes, hrest⟩ pc k hk
  have htest (target : BitVec 24) := UsesText.ofCode cx ((hc pc).snoc_plain
    (.other _ (Still.refl d₁) (by decide : Opcode.jumpIfFalse.kindA ≠ .slot) target 0))
  have hfirst (target : BitVec 24) := (htest target).append (hyes _ k ((htest target).next hk))
  split at hrest
  · next hempty =>
    obtain ⟨target, _, ⟨rfl, -⟩, rfl, rfl⟩ := hrest
    obtain rfl := List.isEmpty_iff.1 hempty
    refine (hfirst target).mono ?_ ?_ ?_ ?_
    · simp [actionSize]
    · simp [actionCounters, blockCounters, Nat.add_assoc]
    · simp [actionSites, blockSites, Nat.add_assoc]
    · simp [actionStores, blockStores, Nat.add_assoc]
  · next hfull =>
    obtain ⟨target, _, ⟨rfl, -⟩, whenFalse, d₃, hno, out, _, ⟨rfl, -⟩, rfl, rfl⟩ := hrest
    have hjump := (hfirst target).snoc_other cx (by decide : Opcode.jump.kindA ≠ .slot) out 0
    refine (hjump.append (hno _ _ (hjump.next hk))).mono ?_ ?_ ?_ ?_
    · rw [actionSize, if_neg hfull]
      omega
    · simp [actionCounters, Nat.add_assoc]
    · simp [actionSites, Nat.add_assoc]
    · simp [actionStores, Nat.add_assoc]

theorem uses_whileLoop (hb : cx.inLoop.UsesBlock 0 b) (c : Expr) :
    cx.UsesAction leave (.whileLoop c b) := by
  intro start
  refine ((uses_expr cx start c).bind fun condition =>
    (hb (start + condition.length + 1)).bind fun _ => yields_operand.bind fun _ =>
    yields_operand.bind fun _ => Yields.pure).mono ?_
  rintro d _ d' ⟨condition, d₁, hc, body, d₂, hb, again, _, ⟨rfl, -⟩, stop, _, ⟨rfl, -⟩, rfl, rfl⟩
    pc k hk
  have htest := UsesText.ofCode cx ((hc pc).snoc_plain
    (.other _ (Still.refl d₁) (by decide : Opcode.jumpIfFalse.kindA ≠ .slot) stop 0))
  have hbody := (hb (pc + (exprSize c + 1)) k (htest.next hk)).closeExits stop again
  exact (htest.append hbody).snoc_other cx (by decide : Opcode.jump.kindA ≠ .slot) again 0

theorem uses_repeatLoop (hb : cx.inLoop.UsesBlock 0 b) (n : Expr) :
    cx.UsesAction leave (.repeatLoop n b) := by
  intro start
  refine ((yields_counterSlot cx.names cx).bind fun _ =>
    (uses_expr cx start n).bind fun count => (uses_loadConstant _).bind fun _ =>
    (hb (start + count.length + 1 + 4)).bind fun _ => (uses_loadConstant _).bind fun _ =>
    yields_operand.bind fun _ =>
    yields_operand.bind fun _ => yields_operand.bind fun _ => Yields.pure).mono ?_
  rintro d _ d' ⟨_, d₀, ⟨hgrow, -, hcounters, slot, rfl, hslot⟩, count, d₁, hn, zero, d₂, hzero,
    body, d₃, hb, one, _, hone, again, _, ⟨rfl, -⟩, skip, _, ⟨rfl, -⟩, stop, _, ⟨rfl, -⟩, rfl, rfl⟩
    pc k hk
  have htouch (op : Opcode) (q : Nat) {c : Draft}
      (hc : c.locals[slot]? = some (counterName d.counters)) :
      Uses c q [.fixed (.of op (BitVec.ofNat 24 slot))] c 1 0
        ⟨[], [], [(q, op, counterName d.counters)]⟩ := .touch (Still.refl c) op hc
  have hother {op : Opcode} (hkind : op.kindA ≠ .slot) (a : BitVec 24) (q : Nat) (c : Draft) :
      Uses c q [.fixed (.of op a)] c 1 0 {} := .other (Still.refl c) hkind a 0
  -- the counter keeps its slot while the rest of the statement is compiled
  have h₁ := (hn pc).locals hslot
  have hk₂ : d₂.counters = k + 1 := by
    rw [(hzero 0).counters, (hn pc).counters, hcounters, hk]
  have hbody := (hb (pc + exprSize n + 5) (k + 1) hk₂).closeExits stop skip
  have h₃ := hbody.locals ((hzero 0).locals h₁)
  have htest := (htouch .storeLocal (pc + exprSize n) h₁).append ((htouch .loadLocal _ h₁).append
    ((hzero _).append ((hother (by decide : Opcode.greater.kindA ≠ .slot) 0 _ d₂).append
      (hother (by decide : Opcode.jumpIfFalse.kindA ≠ .slot) stop _ d₂))))
  have hstep (q : Nat) := (htouch .loadLocal q h₃).append ((hone _).append
    ((hother (by decide : Opcode.sub.kindA ≠ .slot) 0 _ d').append
      ((htouch .storeLocal _ ((hone 0).locals h₃)).append
        (hother (by decide : Opcode.jump.kindA ≠ .slot) again _ d'))))
  have hcode := Uses.append (Uses.append (Uses.append (hn pc) htest) hbody) (hstep _)
  rw [UsesText]
  simp only [Fragment.slots_append, slots_emit, List.map_append]
  refine (Uses.after_counter hcounters hgrow.locals hcode).mono ?_ ?_ ⟨?_, ?_, ?_⟩
  · rw [actionSize]
  · simp only [actionCounters, List.length_cons]
    omega
  · simp [actionSites]
  · simp [actionStores]
  · intro x
    simp [actionCounters, Counter.touches, Counter.name, hk, Nat.add_assoc]
    exact or_congr_right (or_congr_right (or_comm.trans or_assoc))

theorem uses_guard (hb : cx.inTry.UsesBlock (leave + 1) b)
    (hhs : cx.inTry.UsesCatches (leave + 1) hs) (hc : cx.UsesCleanup c) :
    cx.UsesAction leave (.guard b hs c) := by
  intro start
  refine (yields_tableIndex.bind fun _ =>
    (hb (start + 1)).bind fun body => (hhs (start + 1 + body.size + 1)).bind fun handlers =>
    (hc (start + 1 + body.size + 1 +
      (handlers.map fun handler => handler.2.size + 1).sum)).bind fun _ =>
    yields_operand.bind fun _ => Yields.pure).mono ?_
  rintro d _ d' ⟨index, _, ⟨-, -, rfl⟩, body, d₂, hb, handlers, d₃, hhs, cleanup, _, hc, out, _,
    ⟨rfl, -⟩, rfl, rfl⟩ pc k hk
  have hstill : Still d { d with tables := d.tables + 1 } := ⟨rfl, id⟩
  let tables : List TryTable := [⟨handlers.map (·.1), cleanup.1⟩]
  have hpush : UsesText d pc (emit cx [.of .pushTry index] ++ ⟨[], tables⟩) _ 1 [] [] [] :=
    Uses.other hstill (by decide : Opcode.pushTry.kindA ≠ .slot) index 0
  have hbody := (hpush.append (hb _ k hk)).snoc_other cx
    (by decide : Opcode.popTry.kindA ≠ .slot) out 0
  have hcatches := hbody.append (hhs cx out _ _ (hbody.next hk))
  refine (hcatches.append (hc _ _ (hcatches.next hk))).mono ?_ ?_ ?_ ?_
  · rw [actionSize]
  · simp [actionCounters, Nat.add_assoc]
  · simp [actionSites, Nat.add_assoc]
  · simp [actionStores, Nat.add_assoc]

end

mutual

theorem uses_action (cx : Context) (hcx : cx.Nests) {leave : Nat} (hleave : cx.LeavesBy leave) :
    (a : Action) → cx.UsesAction leave a
  | .write e => fun start => (uses_expr cx start e).usesText_plain cx .print (by decide)
  | .ask name => by
    intro start
    refine ((uses_store cx name).bind fun _ => Yields.pure).mono ?_
    rintro d _ d' ⟨ins, _, hstore, rfl, rfl⟩ pc k hk
    rw [UsesText, slots_emit]
    exact (Uses.other (Still.refl d) (by decide : Opcode.input.kindA ≠ .slot) 0 0).append (hstore _)
  | .set name e => by
    intro start
    refine ((uses_expr cx start e).bind fun _ =>
      (uses_store cx name).bind fun _ => Yields.pure).mono ?_
    rintro d _ d' ⟨code, c, he, ins, _, hstore, rfl, rfl⟩ pc k hk
    rw [UsesText, slots_emit, List.map_append]
    exact (Uses.append (he pc) (hstore _)).mono rfl rfl
      ⟨by simp [actionSites], fun x hx => hx, by simp [actionCounters]⟩
  | .setIndex c i e => by
    intro start
    refine ((uses_expr cx start c).bind fun collection =>
      (uses_expr cx (start + collection.length) i).bind fun position =>
      (uses_expr cx (start + collection.length + position.length) e).bind fun _ =>
        Yields.pure).mono ?_
    rintro d _ d' ⟨collection, d₁, hc, position, d₂, hi, value, _, he, rfl, rfl⟩ pc k hk
    have hcode := (((hc pc).append (hi _)).append (he _)).snoc_plain
      (.other _ (Still.refl d') (by decide : Opcode.indexSet.kindA ≠ .slot) 0 0)
    rw [← Nat.add_assoc] at hcode
    exact .ofCode cx hcode
  | .branch c yes no =>
    uses_branch (uses_block cx.inBlock hcx hleave yes) (uses_block cx.inBlock hcx hleave no) c
  | .whileLoop c b => uses_whileLoop (uses_block cx.inLoop cx.nests_inLoop cx.leavesBy_inLoop b) c
  | .repeatLoop n b =>
    uses_repeatLoop (uses_block cx.inLoop cx.nests_inLoop cx.leavesBy_inLoop b) n
  | .exit way => fun start => (uses_loopExit cx hleave start way).mono fun _ _ _ h pc _ _ => h pc
  | .function name parameters body => by
    intro start
    unfold action
    split
    · exact .fail ⟨nofun, nofun⟩
    · refine Yields.pure.mono ?_
      rintro _ _ d ⟨rfl, rfl⟩ pc k hk
      exact .nil (Still.refl d)
  | .use name args => by
    intro start
    refine ((uses_callee cx name args.length).bind fun _ =>
      (uses_exprs cx start args).bind fun _ => Yields.pure).mono ?_
    rintro d _ d' ⟨i, _, rfl, code, _, h, rfl, rfl⟩ pc k hk
    have hcall := (h pc).snoc (e := .call name args) (Still.refl d')
      (by decide : Opcode.call.kindA ≠ .slot) i (BitVec.ofNat 24 args.length)
    have hcode := hcall.snoc_plain (.other _ (Still.refl d')
      (by decide : Opcode.pop.kindA ≠ .slot) 0 0)
    rw [List.append_assoc] at hcode
    exact .ofCode cx hcode
  | .ret none => by
    intro start
    refine ((uses_loadConstant .nil).bind fun _ => Yields.pure).mono ?_
    rintro d _ d' ⟨ins, _, hload, rfl, rfl⟩ pc k hk
    exact .ofCode cx ((hload pc).codes.append
      (.other _ (Still.refl d') (by decide : Opcode.ret.kindA ≠ .slot) 0 0))
  | .ret (some e) => fun start => (uses_expr cx start e).usesText_plain cx .ret (by decide)
  | .guard b hs c =>
    uses_guard (uses_block cx.inTry hcx.inTry (hleave.inTry hcx) b)
      (uses_catches cx.inTry hcx.inTry (hleave.inTry hcx) hs) (uses_cleanupBlock cx hcx c)
  | .throw e => fun start => (uses_expr cx start e).usesText_plain cx .throw (by decide)
  | .writeFile c e => by
    intro start
    refine ((uses_expr cx start c).bind fun content =>
      (uses_expr cx (start + content.length) e).bind fun _ => Yields.pure).mono ?_
    rintro d _ d' ⟨content, d₁, hc, path, _, he, rfl, rfl⟩ pc k hk
    exact .ofCode cx (((hc pc).append (he _)).snoc_plain (.other _ (Still.refl d') (by decide) 0 0))

theorem uses_handler (cx : Context) (hcx : cx.Nests) {leave : Nat} (hleave : cx.LeavesBy leave)
    (start : Nat) : (h : Handler) → Yields (handler cx start h) fun d r d' =>
      ∀ pc k, d.counters = k →
      match h with
      | .mk _ binder b =>
        UsesText d pc r.2 d' (1 + blockSize leave b) (blockCounters leave k (pc + 1) b)
          (blockSites leave (pc + 1) b)
          ((if binder.isEmpty then [] else [(pc, binder)]) ++ blockStores leave (pc + 1) b)
  | .mk typeName binder b => by
    refine ((yields_filterIndex cx.names typeName).bind fun _ => yields_operand.bind fun _ =>
      (uses_catchStart cx binder).bind fun _ =>
      (uses_block cx hcx hleave b (start + 1)).bind fun _ => Yields.pure).mono ?_
    rintro d _ d' ⟨filter, d₁, ⟨hquiet, -⟩, _, _, ⟨rfl, -⟩, ins, d₂, hstart, body, _, hb, rfl, rfl⟩
      pc k hk
    have hfirst : UsesText d pc (emit cx [ins]) d₂ 1 [] []
        (if binder.isEmpty then [] else [(pc, binder)]) := by
      rw [UsesText, slots_emit]
      exact (hstart pc).before hquiet.still
    exact hfirst.append (hb _ k (hfirst.next hk))

theorem uses_catches (cx : Context) (hcx : cx.Nests) {leave : Nat} (hleave : cx.LeavesBy leave) :
    (hs : List Handler) → cx.UsesCatches leave hs
  | [] => by
    refine fun start => Yields.pure.mono ?_
    rintro _ _ d ⟨rfl, rfl⟩ cx' out pc k hk
    exact .nil (Still.refl d)
  | .mk typeName binder b :: rest => by
    intro start
    refine ((uses_handler cx hcx hleave start (.mk typeName binder b)).bind fun first =>
      (uses_catches cx hcx hleave rest (start + first.2.size + 1)).bind fun _ =>
        Yields.pure).mono ?_
    rintro d _ d' ⟨first, d₁, hh, more, _, hrest, rfl, rfl⟩ cx' out pc k hk
    have hfirst := (hh pc k hk).snoc_other cx' (by decide : Opcode.popTry.kindA ≠ .slot) out 0
    have haddress : pc + 1 + blockSize leave b + 1 = pc + (1 + blockSize leave b + 1) := by omega
    rw [handlersCounters, handlersSites, handlersStores, haddress]
    exact hfirst.append (hrest cx' out _ _ (hfirst.next hk))

theorem uses_cleanupBlock (cx : Context) (hcx : cx.Nests) : (c : Option (List Stmt)) →
    cx.UsesCleanup c
  | none => by
    refine fun start => Yields.pure.mono ?_
    rintro _ _ d ⟨rfl, rfl⟩ pc k hk
    exact .nil (Still.refl d)
  | some b => by
    intro start
    refine (yields_operand.bind fun _ =>
      (uses_block cx.inCleanup hcx.inCleanup (hcx.leavesBy_inCleanup 0) b start).bind fun _ =>
        Yields.pure).mono ?_
    rintro d _ d' ⟨_, _, ⟨rfl, -⟩, body, _, hb, rfl, rfl⟩ pc k hk
    exact (hb pc k hk).snoc_other cx (by decide : Opcode.endFinally.kindA ≠ .slot) 0 0

theorem uses_block (cx : Context) (hcx : cx.Nests) {leave : Nat} (hleave : cx.LeavesBy leave) :
    (b : List Stmt) → cx.UsesBlock leave b
  | [] => by
    refine fun start => Yields.pure.mono ?_
    rintro _ _ d ⟨rfl, rfl⟩ pc k hk
    exact .nil (Still.refl d)
  | .mk line a :: rest => by
    intro start
    refine ((uses_action (cx.onLine line) (hcx.onLine line) (hleave.onLine line) a start).bind
      fun first => (uses_block (cx.onLine line) (hcx.onLine line) (hleave.onLine line) rest
        (start + first.size)).bind fun _ => Yields.pure).mono ?_
    rintro d _ _ ⟨first, c, ha, more, d', hrest, rfl, rfl⟩ pc k hk
    exact (ha pc k hk).append (hrest _ _ ((ha pc k hk).next hk))

end

end Compile
end ScriptMachine
