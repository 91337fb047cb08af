import ScriptMachine.Proofs.Compile.Building

namespace ScriptMachine
namespace Compile

theorem UnaryOp.kindA_opcode (op : UnaryOp) : op.opcode.kindA ≠ .target := by
  cases op <;> decide

theorem BinaryOp.kindA_opcode (op : BinaryOp) : op.opcode.kindA ≠ .target := by
  cases op <;> decide

theorem codes_logicalTest (N : Names) (start : Nat) (d : Draft) (op : LogicalOp) :
    Codes N start d (logicalTest op) d fun L => L.Tests op := by
  cases op with
  | and => exact Codes.nil (Quiet.refl N d)
  | or => exact Codes.plain .not (by decide)

theorem yields_literal (cx : Context) (start : Nat) (c : Constant) :
    Yields (do return [← loadConstant c]) fun d code d' => Codes cx.names start d code d'
      fun L pc pc' => L.Loads pc c ∧ pc' = pc + 1 := by
  refine ((yields_loadConstant cx.names c).bind fun _ => Yields.pure).mono ?_
  rintro d _ _ ⟨ins, d', h, rfl, rfl⟩
  exact h start

theorem Yields.then_plain {x : Build (List Instruction)} {N : Names} {start : Nat}
    {A : Layout → Nat → Nat → Prop} (op : Opcode) (hkind : op.kindA ≠ .target)
    (hx : Yields x fun d code d' => Codes N start d code d' A) :
    Yields (do return (← x) ++ [.of op]) fun d code d' => Codes N start d code d'
      fun L pc pc' => ∃ q, A L pc q ∧ L.At q op ∧ pc' = q + 1 := by
  refine (hx.bind fun _ => Yields.pure).mono ?_
  rintro d _ _ ⟨code, d', h, rfl, rfl⟩
  refine (h.append (Codes.plain op hkind)).mono ?_
  rintro L - ⟨q, -, hat⟩
  exact ⟨q, hat⟩

mutual

theorem yields_expr (cx : Context) (start : Nat) : (e : Expr) →
    Yields (expr cx start e) fun d code d' => Codes cx.names start d code d' fun L => ExprAt L e
  | .number x => yields_literal cx start (.number x)
  | .string t => yields_literal cx start (.string t)
  | .boolean b => yields_literal cx start (.boolean b)
  | .nil => yields_literal cx start .nil
  | .identifier name => by
    refine ((yields_load cx name).bind fun _ => Yields.pure).mono ?_
    rintro d _ _ ⟨ins, d', h, rfl, rfl⟩
    exact h start
  | .unary op e => (yields_expr cx start e).then_plain op.opcode (UnaryOp.kindA_opcode op)
  | .binary op l r => by
    refine ((yields_expr cx start l).bind fun left =>
      (yields_expr cx (start + left.length) r).bind fun _ => Yields.pure).mono ?_
    rintro d _ _ ⟨left, c, hl, right, d', hr, rfl, rfl⟩
    refine ((hl.append hr).append (Codes.plain op.opcode (BinaryOp.kindA_opcode op))).mono ?_
    rintro L - ⟨s, -, ⟨q, -, hl, hr⟩, hop, hend⟩
    exact ⟨q, s, hl, hr, hop, hend⟩
  | .logical op l r => by
    refine ((yields_expr cx start l).bind fun left =>
      (yields_expr cx (start + (left ++ logicalTest op).length + 1) r).bind fun right =>
      (yields_loadConstant cx.names _).bind fun _ => yields_operand.bind fun _ =>
      (yields_loadConstant cx.names _).bind fun _ => yields_operand.bind fun _ =>
        Yields.pure).mono ?_
    rintro d _ _ ⟨left, d₁, hl, right, d₂, hr, otherwise, d₃, hother, short, _, ⟨rfl, rfl, hshort⟩,
      decided, d₄, hdecided, stop, _, ⟨rfl, rfl, hstop⟩, rfl, rfl⟩
    have hleft := hl.append (codes_logicalTest cx.names _ d₁ op)
    have hright := hr.append (codes_logicalTest cx.names _ d₂ op)
    have hcode := ((hleft.append (Codes.target .jumpIfFalse rfl hshort)).append
      (hright.congr (by simp [Nat.add_assoc]))).append
      ((Codes.target .jumpIfFalse rfl hshort).append ((hother _).append
        ((Codes.target .jump rfl hstop).append (hdecided _))))
    refine hcode.mono ?_
    rintro L - ⟨u, hu, ⟨_, -, ⟨t, ht, ⟨q, hq, hl, htest⟩, hjump, rfl⟩, s, hs, hr, htest'⟩,
      _, -, ⟨hjump', rfl⟩, _, -, ⟨hother, rfl⟩, _, -, ⟨hend, rfl⟩, hdecided, hstop⟩
    have hat : L.entry + (start + (left ++ logicalTest op).length +
        (right ++ logicalTest op).length + 4) = u + 3 := by
      simp only [List.length_append, List.length_singleton] at hu ht hs ⊢
      omega
    rw [hat] at hjump hjump'
    rw [← Nat.add_assoc, hat] at hend
    exact ⟨q, t, s, u, hl, htest, hjump, hr, htest', hjump', hother, hend, hdecided, hstop⟩
  | .call name args => by
    refine ((yields_callee cx name args.length).bind fun _ =>
      (yields_exprs cx start args).bind fun _ => Yields.pure).mono ?_
    rintro d _ d' ⟨i, _, ⟨rfl, hcall⟩, code, _, h, rfl, rfl⟩
    exact (h.append (hcall _ d')).mono fun L _ ⟨q, _, hat⟩ => ⟨q, hat⟩
  | .list items => by
    refine ((yields_exprs cx start items).bind fun _ =>
      yields_operand.bind fun _ => Yields.pure).mono ?_
    rintro d _ d' ⟨code, _, h, _, _, ⟨rfl, rfl, hle⟩, rfl, rfl⟩
    have hop := Codes.indexed (start + code.length) .makeList items.length 0
      (Quiet.refl cx.names d') (by decide) fun _ => ⟨hle, Nat.zero_le _⟩
    exact (h.append hop).mono fun L _ ⟨q, _, hat⟩ => ⟨q, hat⟩
  | .dict entries => by
    refine ((yields_entries cx start entries).bind fun _ =>
      yields_operand.bind fun _ => Yields.pure).mono ?_
    rintro d _ d' ⟨code, _, h, _, _, ⟨rfl, rfl, hle⟩, rfl, rfl⟩
    have hop := Codes.indexed (start + code.length) .makeDict entries.length 0
      (Quiet.refl cx.names d') (by decide) fun _ => ⟨hle, Nat.zero_le _⟩
    exact (h.append hop).mono fun L _ ⟨q, _, hat⟩ => ⟨q, hat⟩
  | .index c i => by
    refine ((yields_expr cx start c).bind fun collection =>
      (yields_expr cx (start + collection.length) i).bind fun _ => Yields.pure).mono ?_
    rintro d _ _ ⟨collection, c, hc, position, d', hi, rfl, rfl⟩
    refine ((hc.append hi).append (Codes.plain .indexGet (by decide))).mono ?_
    rintro L - ⟨s, -, ⟨q, -, hc, hi⟩, hop, hend⟩
    exact ⟨q, s, hc, hi, hop, hend⟩
  | .newError typeName e => by
    refine ((yields_expr cx start e).bind fun _ =>
      (yields_constantIndex cx.names (.string typeName)).bind fun _ => Yields.pure).mono ?_
    rintro d _ _ ⟨code, c, h, _, d', ⟨hquiet, n, rfl, hn⟩, rfl, rfl⟩
    refine (h.append (codes_of_constant hquiet (by decide) hn)).mono ?_
    rintro L - ⟨q, -, he, i, hop, hi, hend⟩
    exact ⟨q, i, he, hop, hi, hend⟩
  | .errorMessage e => (yields_expr cx start e).then_plain .errorMessage (by decide)
  | .errorType e => (yields_expr cx start e).then_plain .errorType (by decide)
  | .fileText e => (yields_expr cx start e).then_plain .readFile (by decide)

theorem yields_exprs (cx : Context) (start : Nat) : (es : List Expr) →
    Yields (exprs cx start es) fun d code d' => Codes cx.names start d code d' fun L => ExprsAt L es
  | [] => Yields.pure.mono (by
    rintro d _ _ ⟨rfl, rfl⟩
    exact Codes.nil (Quiet.refl _ _))
  | e :: rest => by
    refine ((yields_expr cx start e).bind fun first =>
      (yields_exprs cx (start + first.length) rest).bind fun _ => Yields.pure).mono ?_
    rintro d _ _ ⟨first, c, he, more, d', hrest, rfl, rfl⟩
    exact (he.append hrest).mono fun L _ ⟨q, _, hat⟩ => ⟨q, hat⟩

theorem yields_entries (cx : Context) (start : Nat) : (entries : List (Text × Expr)) →
    Yields (dictEntries cx start entries) fun d code d' => Codes cx.names start d code d'
      fun L => EntriesAt L entries
  | [] => Yields.pure.mono (by
    rintro d _ _ ⟨rfl, rfl⟩
    exact Codes.nil (Quiet.refl _ _))
  | (key, e) :: rest => by
    refine ((yields_loadConstant cx.names (.string key)).bind fun _ =>
      (yields_expr cx (start + 1) e).bind fun value =>
      (yields_entries cx (start + 1 + value.length) rest).bind fun _ => Yields.pure).mono ?_
    rintro d _ _ ⟨ins, c, hkey, value, c', he, more, d', hrest, rfl, rfl⟩
    refine ((hkey start).append (he.append hrest)).mono ?_
    rintro L - ⟨_, -, ⟨hkey, rfl⟩, q, -, he, hrest⟩
    exact ⟨q, hkey, he, hrest⟩

end

/-- A slot of a fragment before and after its function gets its place. -/
def Slot.Becomes (entry : Nat) (x : Option Exits) : Slot → Instruction → Prop
  | .fixed ins, ins' => Moved entry ins ins'
  | .unclosed way, ins' =>
    ∃ e, x = some e ∧ ins' = .of .jump (BitVec.ofNat 24 (e.target way)) ∧ e.target way ≤ maxOperand

/-- An address in a try table before and after its function gets its place. -/
def MovedWord (entry : Nat) (w w' : Int32) : Prop :=
  entry + w.toInt.toNat ≤ maxOperand ∧ w' = Int32.ofNat (entry + w.toInt.toNat)

def MovedClauses (entry : Nat) : List CatchClause → List CatchClause → Prop
  | [], cs => cs = []
  | c :: rest, cs =>
    ∃ w later, cs = ⟨c.filter, w⟩ :: later ∧ MovedWord entry c.handler w ∧
      MovedClauses entry rest later

structure MovedTable (entry : Nat) (t t' : TryTable) : Prop where
  clauses : MovedClauses entry t.clauses t'.clauses
  cleanup : if t.cleanup = noIndex then t'.cleanup = noIndex
    else MovedWord entry t.cleanup t'.cleanup

/-- A fragment stands in a program, with its tables among those of the program. -/
structure Layout.Holds (L : Layout) (x : Option Exits) (pc table : Nat) (g : Fragment) : Prop where
  code : Stands (L.program.code[·]?) (fun q ins => q.slot.Becomes L.entry x ins) pc g.code
  tables : Stands (L.program.tries[·]?) (MovedTable L.entry) table g.tables

theorem Layout.holds_append {L : Layout} {x : Option Exits} {pc table : Nat} {g h : Fragment} :
    L.Holds x pc table (g ++ h) ↔
      L.Holds x pc table g ∧ L.Holds x (pc + g.size) (table + g.tables.length) h := by
  constructor
  · rintro ⟨hcode, htables⟩
    obtain ⟨hg, hh⟩ := stands_append.1 hcode
    obtain ⟨hg', hh'⟩ := stands_append.1 htables
    exact ⟨⟨hg, hg'⟩, hh, hh'⟩
  · rintro ⟨⟨hg, hg'⟩, hh, hh'⟩
    exact ⟨stands_append.2 ⟨hg, hh⟩, stands_append.2 ⟨hg', hh'⟩⟩

@[simp] theorem Fragment.size_append (g h : Fragment) : (g ++ h).size = g.size + h.size :=
  List.length_append

@[simp] theorem size_emit (cx : Context) (code : List Instruction) :
    (emit cx code).size = code.length := List.length_map _

@[simp] theorem Fragment.size_tables (tables : List TryTable) :
    (⟨[], tables⟩ : Fragment).size = 0 := (rfl)

@[simp] theorem Fragment.size_closeExits (stop skip : BitVec 24) (g : Fragment) :
    (g.closeExits stop skip).size = g.size := List.length_map _

def Draft.mark (d : Draft) (pc : Nat) : Mark := ⟨pc, d.tables, d.counters⟩

@[simp] theorem Draft.mark_pc (d : Draft) (pc : Nat) : (d.mark pc).pc = pc := rfl

/-- A fragment that was generated from one draft to another, `leave` try constructs inside of the
loop that can be left, with its arrangement in every layout that holds it. -/
structure Emits (N : Names) (leave : Option Nat) (start : Nat) (d : Draft) (g : Fragment)
    (d' : Draft) (A : Layout → Option Exits → Mark → Mark → Prop) : Prop where
  grows : Grows N d d'
  tables : d'.tables = d.tables + g.tables.length
  closed : leave = none → ∀ q ∈ g.code, ∃ ins, q.slot = .fixed ins
  placed {L : Layout} {x : Option Exits} : Fits L N d d' → x.map Exits.leave = leave →
    L.Holds x (L.entry + start) d.tables g →
    A L x (d.mark (L.entry + start)) (d'.mark (L.entry + start + g.size))

namespace Emits

variable {N : Names} {leave : Option Nat} {start : Nat} {d d' d'' : Draft} {g h : Fragment}
variable {A B : Layout → Option Exits → Mark → Mark → Prop}

theorem mono (hg : Emits N leave start d g d' A)
    (hAB : ∀ L x, Fits L N d d' → x.map Exits.leave = leave →
      A L x (d.mark (L.entry + start)) (d'.mark (L.entry + start + g.size)) →
      B L x (d.mark (L.entry + start)) (d'.mark (L.entry + start + g.size))) :
    Emits N leave start d g d' B :=
  ⟨hg.grows, hg.tables, hg.closed, fun hL hx hcode => hAB _ _ hL hx (hg.placed hL hx hcode)⟩

theorem append (hg : Emits N leave start d g d' A)
    (hh : Emits N leave (start + g.size) d' h d'' B) :
    Emits N leave start d (g ++ h) d'' fun L x m m' =>
      ∃ q : Mark, q.pc = m.pc + g.size ∧ A L x m q ∧ B L x q m' := by
  have hsize : (g ++ h).size = g.size + h.size := List.length_append
  refine ⟨hg.grows.trans hh.grows, ?_, ?_, ?_⟩
  · have hlength : (g ++ h).tables.length = g.tables.length + h.tables.length :=
      List.length_append
    rw [hh.tables, hg.tables, hlength, Nat.add_assoc]
  · intro hleave q hq
    exact (List.mem_append.1 hq).elim (hg.closed hleave q) (hh.closed hleave q)
  · intro L x hL hx hcode
    obtain ⟨hfirst, hsecond⟩ := Layout.holds_append.1 hcode
    rw [← hg.tables, Nat.add_assoc] at hsecond
    refine ⟨_, rfl, hg.placed (hL.before hh.grows) hx hfirst, ?_⟩
    have hB := hh.placed (hL.after hg.grows) hx hsecond
    rwa [← Nat.add_assoc, Nat.add_assoc _ g.size, ← hsize] at hB

theorem congr {start' : Nat} (hg : Emits N leave start d g d' A) (hstart : start = start') :
    Emits N leave start' d g d' A := hstart ▸ hg

theorem ofCodes {code : List Instruction} {C : Layout → Nat → Nat → Prop} (cx : Context)
    (hcode : Codes N start d code d' C) :
    Emits N leave start d (emit cx code) d' fun L _ m m' =>
      ∃ pc, pc = m.pc + code.length ∧ C L m.pc pc ∧ m' = m.to pc := by
  have hlength : (emit cx code).size = code.length := List.length_map _
  refine ⟨hcode.quiet.toGrows, by rw [hcode.quiet.tables]; rfl, ?_, ?_⟩
  · intro _ q hq
    obtain ⟨ins, -, rfl⟩ := List.mem_map.1 hq
    exact ⟨ins, rfl⟩
  · intro L x hL hx hstands
    have hmoved := hstands.code
    simp only [emit, Fragment.ofCode, stands_map] at hmoved
    refine ⟨_, rfl, hcode.placed hL hmoved, ?_⟩
    rw [hlength, Draft.mark, hcode.quiet.tables, hcode.quiet.counters]
    rfl

theorem unclosed (N : Names) (start : Nat) (d : Draft) (count : Nat) (way : LoopExit)
    (line : UInt32) :
    Emits N (some count) start d ⟨[⟨.unclosed way, line⟩], []⟩ d fun L x m m' =>
      ∃ e, x = some e ∧ e.leave = count ∧ L.At m.pc .jump (e.target way) ∧
      m' = m.to (m.pc + 1) := by
  refine ⟨Grows.refl N d, rfl, nofun, ?_⟩
  intro L x _ hx hstands
  obtain ⟨_, hins, e, rfl, rfl, hle⟩ := stands_singleton.1 hstands.code
  exact ⟨e, rfl, by simpa using hx, ⟨hins, hle, Nat.zero_le _⟩, rfl⟩

theorem closeExits {stop skip : Nat} (hg : Emits N (some 0) start d g d' A)
    (hstop : stop ≤ maxOperand) (hskip : skip ≤ maxOperand) :
    Emits N leave start d (g.closeExits (BitVec.ofNat 24 stop) (BitVec.ofNat 24 skip)) d'
      fun L _ m m' => A L (some ⟨0, L.entry + stop, L.entry + skip⟩) m m' := by
  have hsize : (g.closeExits (BitVec.ofNat 24 stop) (BitVec.ofNat 24 skip)).size = g.size :=
    List.length_map _
  refine ⟨hg.grows, hg.tables, ?_, ?_⟩
  · intro _ q hq
    obtain ⟨⟨slot, line⟩, -, rfl⟩ := List.mem_map.1 hq
    rcases slot with ins | (_ | _)
    · exact ⟨ins, rfl⟩
    · exact ⟨_, rfl⟩
    · exact ⟨_, rfl⟩
  · intro L x hL _ hstands
    rw [hsize]
    refine hg.placed hL rfl ⟨?_, hstands.tables⟩
    refine (stands_map.1 hstands.code).mono ?_
    rintro ⟨slot, line⟩ - ins hins
    rcases slot with fixed | (_ | _)
    · exact hins
    · obtain ⟨rfl, hle⟩ := moved_target rfl hstop hins
      exact ⟨_, rfl, rfl, hle⟩
    · obtain ⟨rfl, hle⟩ := moved_target rfl hskip hins
      exact ⟨_, rfl, rfl, hle⟩

theorem inTry (hg : Emits N (leave.map (· + 1)) start d g d' A) :
    Emits N leave start d g d' fun L x m m' => A L (x.map Exits.inTry) m m' := by
  refine ⟨hg.grows, hg.tables, fun hleave => hg.closed (by rw [hleave]; rfl), ?_⟩
  intro L x hL hx hstands
  refine hg.placed hL (by rw [← hx]; cases x <;> rfl) ⟨hstands.code.mono ?_, hstands.tables⟩
  rintro ⟨slot, line⟩ - ins hins
  cases slot with
  | fixed => exact hins
  | unclosed way =>
    obtain ⟨e, rfl, hins⟩ := hins
    exact ⟨e.inTry, rfl, by cases way <;> exact hins⟩

theorem inCleanup (hg : Emits N none start d g d' A) :
    Emits N leave start d g d' fun L _ m m' => A L none m m' := by
  refine ⟨hg.grows, hg.tables, fun _ => hg.closed rfl, ?_⟩
  intro L x hL _ hstands
  refine hg.placed hL rfl ⟨hstands.code.mono ?_, hstands.tables⟩
  rintro q hq ins hins
  obtain ⟨fixed, hfixed⟩ := hg.closed rfl q hq
  rw [hfixed] at hins ⊢
  exact hins

end Emits

/-- The try constructs between a statement and the loop it can leave. -/
def Context.leave? (cx : Context) : Option Nat :=
  match cx.loop with
  | some (tries, cleanups) => if cleanups = cx.cleanups then some (cx.tries - tries) else none
  | none => none

/-- A loop with as many finally blocks around it as the statement is left through the try constructs
that are open inside of it. -/
theorem Context.leave?_of_same {cx : Context} {tries cleanups : Nat}
    (hloop : cx.loop = some (tries, cleanups)) (hsame : ¬cleanups ≠ cx.cleanups) :
    cx.leave? = some (cx.tries - tries) := by
  simp [Context.leave?, hloop, Decidable.not_not.1 hsame]

theorem Context.leave?_of_loop {cx : Context} (h : cx.loop = none) : cx.leave? = none := by
  simp [Context.leave?, h]

/-- No more constructs are open around a loop than inside of it. -/
def Context.Nests (cx : Context) : Prop :=
  ∀ tries cleanups, cx.loop = some (tries, cleanups) → tries ≤ cx.tries ∧ cleanups ≤ cx.cleanups

theorem Context.nests_of_loop {cx : Context} (h : cx.loop = none) : cx.Nests := by
  intro tries cleanups hloop
  rw [h] at hloop
  cases hloop

@[simp] theorem Context.names_onLine (cx : Context) (line : Nat) :
    (cx.onLine line).names = cx.names := by
  unfold onLine
  split <;> rfl

@[simp] theorem Context.leave?_onLine (cx : Context) (line : Nat) :
    (cx.onLine line).leave? = cx.leave? := by
  unfold onLine
  split <;> rfl

@[simp] theorem Context.leave?_inLoop (cx : Context) : cx.inLoop.leave? = some 0 := by
  simp [leave?, inLoop]

namespace Context.Nests

variable {cx : Context} (h : cx.Nests)

include h

theorem inTry : cx.inTry.Nests := fun t c hloop =>
  ⟨Nat.le_succ_of_le (h t c hloop).1, (h t c hloop).2⟩

theorem inCleanup : cx.inCleanup.Nests := fun t c hloop =>
  ⟨(h t c hloop).1, Nat.le_succ_of_le (h t c hloop).2⟩

theorem onLine (line : Nat) : (cx.onLine line).Nests := by
  unfold Context.onLine
  split
  · exact h
  · exact h

theorem leave?_inTry : cx.inTry.leave? = cx.leave?.map (· + 1) := by
  unfold leave?
  cases hloop : cx.loop with
  | none => simp [Context.inTry, hloop]
  | some loop =>
    have := (h loop.1 loop.2 hloop).1
    simp only [Context.inTry, hloop]
    split
    · rw [Option.map_some, Nat.sub_add_comm this]
    · rfl

theorem leave?_inCleanup : cx.inCleanup.leave? = none := by
  unfold leave?
  cases hloop : cx.loop with
  | none => simp [Context.inCleanup, hloop]
  | some loop =>
    have := (h loop.1 loop.2 hloop).2
    simp only [Context.inCleanup, hloop]
    rw [if_neg (by omega)]

end Context.Nests

theorem Context.nests_inLoop (cx : Context) : cx.inLoop.Nests := by
  rintro t c ⟨⟩
  exact ⟨Nat.le_refl _, Nat.le_refl _⟩

theorem yields_leaveTries (start count : Nat) :
    Yields (leaveTries start count) fun d code d' => d' = d ∧ code.length = count ∧
      ∀ N, Codes N start d code d fun L pc pc' => L.Leaves count pc ∧ pc' = pc + count := by
  induction count generalizing start with
  | zero =>
    refine Yields.pure.mono ?_
    rintro _ _ d ⟨rfl, rfl⟩
    refine ⟨rfl, rfl, fun N => (Codes.nil (Quiet.refl N _)).mono ?_⟩
    exact fun L _ hend => ⟨by simp [Layout.Leaves], hend⟩
  | succ count ih =>
    refine (yields_operand.bind fun _ => (ih (start + 1)).bind fun _ => Yields.pure).mono ?_
    rintro d _ _ ⟨_, _, ⟨rfl, rfl, hle⟩, code, _, ⟨rfl, hlength, hcode⟩, rfl, rfl⟩
    refine ⟨rfl, by rw [List.length_cons, hlength], fun N => ?_⟩
    refine ((Codes.target .popTry rfl hle).append (hcode N)).mono ?_
    rintro L - ⟨_, -, ⟨hat, rfl⟩, hleaves, hend⟩
    refine ⟨fun i hi => ?_, by rw [hend]; omega⟩
    cases i with
    | zero => exact hat
    | succ i =>
      have := hleaves i (by omega)
      rwa [Nat.add_right_comm _ 1 i] at this

theorem yields_loopExit (cx : Context) (start : Nat) (way : LoopExit) :
    Yields (loopExit cx start way) fun d g d' => Emits cx.names cx.leave? start d g d'
      fun L => ActionAt L (.exit way) := by
  unfold loopExit
  split
  · exact .fail ⟨nofun, nofun⟩
  · next tries cleanups hloop =>
    split
    · exact .fail ⟨nofun, nofun⟩
    · next hsame =>
      refine ((yields_leaveTries start (cx.tries - tries)).bind fun _ => Yields.pure).mono ?_
      rintro d _ _ ⟨code, _, ⟨rfl, hlength, hcode⟩, rfl, rfl⟩
      rw [Context.leave?_of_same hloop hsame]
      refine ((Emits.ofCodes cx (hcode cx.names)).append
        (Emits.unclosed cx.names _ _ _ way cx.line)).mono ?_
      rintro L x - - ⟨_, -, ⟨pc, -, ⟨hleaves, rfl⟩, rfl⟩, e, rfl, he, hjump, hend⟩
      exact ⟨e, rfl, he ▸ hleaves, he ▸ hjump, he ▸ hend⟩

theorem toInt_ofNat {n : Nat} (h : n ≤ maxOperand) : (Int32.ofNat n).toInt = n := by
  unfold maxOperand at h
  exact Int32.toInt_ofNat_of_lt (by omega)

theorem ofNat_ne_noIndex {n : Nat} (h : n ≤ maxOperand) : Int32.ofNat n ≠ noIndex := by
  intro heq
  have := congrArg Int32.toInt heq
  rw [toInt_ofNat h, show noIndex.toInt = -1 from rfl] at this
  omega

theorem MovedWord.toInt {entry n : Nat} {w : Int32} (hn : n ≤ maxOperand)
    (h : MovedWord entry (Int32.ofNat n) w) : w.toInt = (entry + n : Nat) := by
  obtain ⟨hle, rfl⟩ := h
  rw [toInt_ofNat hn, Int.toNat_natCast] at hle ⊢
  exact toInt_ofNat hle

theorem yields_filterIndex (N : Names) (typeName : Text) :
    Yields (filterIndex typeName) fun d w d' =>
      Quiet N d d' ∧ ∀ {L c}, Fits L N c d' → L.Filters typeName w := by
  unfold filterIndex Layout.Filters
  split
  · refine Yields.pure.mono ?_
    rintro d _ _ ⟨rfl, rfl⟩
    exact ⟨Quiet.refl N _, fun _ => rfl⟩
  · refine ((yields_constantIndex N _).bind fun _ => Yields.pure).mono ?_
    rintro d _ _ ⟨_, d', ⟨hquiet, n, rfl, hn⟩, rfl, rfl⟩
    refine ⟨hquiet, fun hL => ⟨n, ?_, hL.constants hn⟩⟩
    have hle := hL.le_maxOperand.1 hn
    rw [toNat_ofNat hle, toInt_ofNat hle]

theorem yields_catchStart (cx : Context) (binder : Text) :
    Yields (catchStart cx binder) fun d ins d' => ∀ start, Codes cx.names start d [ins] d'
      fun L pc pc' => L.Takes pc binder ∧ pc' = pc + 1 := by
  unfold catchStart Layout.Takes
  split
  · refine Yields.pure.mono ?_
    rintro d _ _ ⟨rfl, rfl⟩ start
    exact Codes.plain .pop (by decide)
  · exact yields_store cx binder

theorem yields_tableIndex : Yields tableIndex fun d i d' =>
    i = BitVec.ofNat 24 d.tables ∧ d.tables ≤ maxOperand ∧
    d' = { d with tables := d.tables + 1 } := by
  refine Yields.get fun draft => ?_
  refine (yields_operand.bind fun _ => (yields_modify _).bind fun _ => Yields.pure).mono ?_
  rintro _ _ _ ⟨_, d, ⟨rfl, rfl, hle⟩, _, _, rfl, rfl, rfl⟩ rfl
  exact ⟨rfl, hle, rfl⟩

theorem yields_counterSlot (N : Names) (cx : Context) : Yields (counterSlot cx) fun d i d' =>
    Grows N d d' ∧ d'.tables = d.tables ∧ d'.counters = d.counters + 1 ∧
      ∃ n, i = BitVec.ofNat 24 n ∧ d'.locals[n]? = some (counterName d.counters) := by
  refine Yields.get fun draft => ?_
  refine ((yields_modify _).bind fun _ => yields_localSlot N cx _).mono ?_
  rintro d i d' ⟨_, c, rfl, hslot⟩ rfl
  obtain ⟨hquiet, n, rfl, hn⟩ := hslot (.inr (.inl ⟨_, rfl⟩))
  have hcount : Grows N d { d with counters := d.counters + 1 } :=
    ⟨id, id, id, id, .inl, fun hd => { hd with }⟩
  exact ⟨hcount.trans hquiet.toGrows, hquiet.tables, hquiet.counters, n, rfl, hn⟩

theorem Emits.after_counter {N : Names} {leave : Option Nat} {start : Nat} {d c d' : Draft}
    {g : Fragment} {A : Layout → Option Exits → Mark → Mark → Prop} (hgrow : Grows N d c)
    (htables : c.tables = d.tables) (hcounters : c.counters = d.counters + 1)
    (hg : Emits N leave start c g d' A) :
    Emits N leave start d g d' fun L x m m' => A L x ⟨m.pc, m.table, m.counter + 1⟩ m' := by
  refine ⟨hgrow.trans hg.grows, by rw [hg.tables, htables], hg.closed, ?_⟩
  intro L x hL hx hstands
  have hA := hg.placed (hL.after hgrow) hx (by rwa [htables])
  rwa [Draft.mark, htables, hcounters] at hA

theorem emits_pushTry (cx : Context) (N : Names) (leave : Option Nat) (start : Nat) {d : Draft}
    (hle : d.tables ≤ maxOperand) (t : TryTable) :
    Emits N leave start d (emit cx [.of .pushTry (BitVec.ofNat 24 d.tables)] ++ ⟨[], [t]⟩)
      { d with tables := d.tables + 1 } fun L _ m m' =>
        L.At m.pc .pushTry m.table ∧
          (∃ t', L.program.tries[m.table]? = some t' ∧ MovedTable L.entry t t') ∧
          m' = ⟨m.pc + 1, m.table + 1, m.counter⟩ := by
  refine ⟨⟨id, id, id, id, .inl, fun hd => ?_⟩, rfl, ?_, ?_⟩
  · exact { hd with tables := Nat.succ_le_succ hle }
  · intro _ q hq
    obtain rfl := List.mem_singleton.1 hq
    exact ⟨_, rfl⟩
  · intro L x hL hx hstands
    obtain ⟨ins, hins, hmoved⟩ := stands_singleton.1 hstands.code
    exact ⟨⟨hmoved ▸ hins, hle, Nat.zero_le _⟩, stands_singleton.1 hstands.tables, rfl⟩

@[simp] theorem size_joinHandlers (cx : Context) (ins : Instruction)
    (rs : List (CatchClause × Fragment)) :
    (joinHandlers (emit cx [ins]) rs).size = (rs.map fun r => r.2.size + 1).sum := by
  induction rs with
  | nil => rfl
  | cons r rs ih =>
    show (r.2 ++ emit cx [ins] ++ joinHandlers (emit cx [ins]) rs).size = _
    simp [ih]

theorem Yields.emits_plain {x : Build (List Instruction)} {cx : Context} {start : Nat}
    {A : Layout → Nat → Nat → Prop} (op : Opcode) (hkind : op.kindA ≠ .target)
    (hx : Yields x fun d code d' => Codes cx.names start d code d' A) :
    Yields (do return emit cx ((← x) ++ [.of op])) fun d g d' =>
      Emits cx.names cx.leave? start d g d' fun L _ m m' =>
        ∃ q, A L m.pc q ∧ L.At q op ∧ m' = m.to (q + 1) := by
  refine (hx.bind fun _ => Yields.pure).mono ?_
  rintro d _ _ ⟨code, d', h, rfl, rfl⟩
  refine (Emits.ofCodes cx (h.append (Codes.plain op hkind))).mono ?_
  rintro L x - - ⟨_, -, ⟨q, -, h, hat, rfl⟩, hend⟩
  exact ⟨q, h, hat, hend⟩

/-- The code of a block has the arrangement of its tree, wherever it starts. -/
def Context.YieldsBlock (cx : Context) (b : List Stmt) : Prop :=
  ∀ start, Yields (block cx start b) fun d g d' => Emits cx.names cx.leave? start d g d'
    fun L => BlockAt L b

def Context.YieldsCatches (cx : Context) (hs : List Handler) : Prop :=
  ∀ start, Yields (catches cx start hs) fun d rs d' => ∀ cx' out, out ≤ maxOperand →
    Emits cx.names cx.leave? start d
      (joinHandlers (emit cx' [.of .popTry (BitVec.ofNat 24 out)]) rs) d' fun L x m m' =>
        ∀ cs, MovedClauses L.entry (rs.map (·.1)) cs → CatchesAt L hs x (L.entry + out) cs m m'

def Context.YieldsCleanup (cx : Context) (c : Option (List Stmt)) : Prop :=
  ∀ start, Yields (cleanupBlock cx start c) fun d r d' => Emits cx.names cx.leave? start d r.2 d'
    fun L _ m m' => ∀ w, (if r.1 = noIndex then w = noIndex else MovedWord L.entry r.1 w) →
      CleanupAt L c w m m'

def Context.YieldsAction (cx : Context) (a : Action) : Prop :=
  ∀ start, Yields (action cx start a) fun d g d' => Emits cx.names cx.leave? start d g d'
    fun L => ActionAt L a

section

variable {cx : Context} {b yes no : List Stmt} {hs : List Handler} {c : Option (List Stmt)}

theorem yields_branch (hyes : cx.inBlock.YieldsBlock yes) (hno : cx.inBlock.YieldsBlock no)
    (c : Expr) : cx.YieldsAction (.branch c yes no) := by
  intro start
  refine ((yields_expr cx start c).bind fun condition => (hyes _).bind fun whenTrue =>
    (yields_operand.bind fun _ => Yields.pure).ite (yields_operand.bind fun _ =>
      (hno _).bind fun _ => yields_operand.bind fun _ => Yields.pure)).mono ?_
  rintro d _ d' ⟨condition, d₁, hc, whenTrue, d₂, hyes, hrest⟩
  split at hrest
  · next hempty =>
    obtain ⟨_, _, ⟨rfl, rfl, hle⟩, rfl, rfl⟩ := hrest
    refine ((Emits.ofCodes cx (hc.append (Codes.target .jumpIfFalse rfl hle))).append
      (hyes.congr (by simp [Nat.add_assoc]))).mono ?_
    rintro L x - - ⟨_, -, ⟨_, -, ⟨q, -, hc, hat, rfl⟩, rfl⟩, hyes⟩
    refine ⟨q, hc, ?_⟩
    rw [if_pos hempty]
    exact ⟨hat.congr (by simp; omega), hyes⟩
  · next hfull =>
    obtain ⟨_, _, ⟨rfl, rfl, hle⟩, whenFalse, d₃, hno, _, _, ⟨rfl, rfl, hle'⟩, rfl, rfl⟩ := hrest
    refine ((((Emits.ofCodes cx (hc.append (Codes.target .jumpIfFalse rfl hle))).append
      (hyes.congr (by simp [Nat.add_assoc]))).append
      (Emits.ofCodes cx (Codes.target .jump rfl hle'))).append (hno.congr (by simp; omega))).mono ?_
    rintro L x - - ⟨_, -, ⟨y, hy, ⟨_, -, ⟨_, -, ⟨q, hq, hc, hat, rfl⟩, rfl⟩, hyes⟩,
      _, -, ⟨hjump, rfl⟩, rfl⟩, hno⟩
    refine ⟨q, hc, ?_⟩
    rw [if_neg hfull]
    refine ⟨y, hat.congr ?_, hyes, hjump.congr ?_, hno⟩
    · simp only [Fragment.size_append, size_emit, List.length_append, List.length_singleton,
        Draft.mark_pc] at hy
      omega
    · simp
      omega

theorem yields_whileLoop (hb : cx.inLoop.YieldsBlock b) (c : Expr) :
    cx.YieldsAction (.whileLoop c b) := by
  intro start
  refine ((yields_expr cx start c).bind fun condition =>
    (hb (start + condition.length + 1)).bind fun _ => yields_operand.bind fun _ =>
    yields_operand.bind fun _ => Yields.pure).mono ?_
  rintro d _ d' ⟨condition, d₁, hc, body, d₂, hb, _, _, ⟨rfl, rfl, hagain⟩, _, _,
    ⟨rfl, rfl, hstop⟩, rfl, rfl⟩
  rw [Context.leave?_inLoop] at hb
  refine (((Emits.ofCodes cx (hc.append (Codes.target .jumpIfFalse rfl hstop))).append
    ((hb.closeExits hstop hagain).congr (by simp [Nat.add_assoc]))).append
    (Emits.ofCodes cx (Codes.target .jump rfl hagain))).mono ?_
  rintro L x - - ⟨y, hy, ⟨_, -, ⟨_, -, ⟨q, -, hc, hat, rfl⟩, rfl⟩, hb⟩, _, -, ⟨hjump, rfl⟩, hend⟩
  have hout : L.entry + (start + condition.length + 1 + body.size + 1) = y.pc + 1 := by
    simp only [Fragment.size_append, size_emit, Fragment.size_closeExits, List.length_append,
      List.length_singleton, Draft.mark_pc] at hy
    omega
  rw [hout] at hat hb
  exact ⟨q, y, hc, hat, hb, hjump, hend⟩

theorem yields_repeatLoop (hb : cx.inLoop.YieldsBlock b) (n : Expr) :
    cx.YieldsAction (.repeatLoop n b) := by
  intro start
  refine ((yields_counterSlot cx.names cx).bind fun _ =>
    (yields_expr cx start n).bind fun count => (yields_loadConstant cx.names _).bind fun _ =>
    (hb (start + count.length + 1 + 4)).bind fun _ =>
    (yields_loadConstant cx.names _).bind fun _ => yields_operand.bind fun _ =>
    yields_operand.bind fun _ => yields_operand.bind fun _ => Yields.pure).mono ?_
  rintro d _ d' ⟨_, d₀, ⟨hgrow, htables, hcounters, slot, rfl, hslot⟩, count, d₁, hn, zero, d₂,
    hzero, body, d₃, hb, one, d₄, hone, _, _, ⟨rfl, rfl, hagain⟩, _, _, ⟨rfl, rfl, hskip⟩, _, _,
    ⟨rfl, rfl, hstop⟩, rfl, rfl⟩
  rw [Context.leave?_inLoop] at hb
  have hcounter (op : Opcode) (hkind : op.kindA ≠ .target) (s : Nat) {c : Draft}
      (hc : Grows cx.names d₀ c) := Codes.indexed s op slot 0 (Quiet.refl cx.names c) hkind
        fun hL => ⟨hL.le_maxOperand.2.2 (hc.locals hslot), Nat.zero_le _⟩
  have h₁ := hn.quiet.toGrows
  have h₂ := h₁.trans (hzero 0).quiet.toGrows
  have h₃ := h₂.trans hb.grows
  have h₄ := h₃.trans (hone 0).quiet.toGrows
  have htest := hn.append ((hcounter .storeLocal (by decide) _ h₁).append
    ((hcounter .loadLocal (by decide) _ h₁).append ((hzero _).append
      ((Codes.plain .greater (by decide)).append (Codes.target .jumpIfFalse rfl hstop)))))
  refine (Emits.after_counter hgrow htables hcounters (((Emits.ofCodes cx htest).append
    ((hb.closeExits hstop hskip).congr (by simp [Nat.add_assoc]))).append
    (Emits.ofCodes cx ((hcounter .loadLocal (by decide) _ h₃).append ((hone _).append
      ((Codes.plain .sub (by decide)).append ((hcounter .storeLocal (by decide) _ h₄).append
        (Codes.target .jump rfl hagain)))))))).mono ?_
  rintro L x hL - ⟨y, hy, ⟨_, -, ⟨_, -, ⟨q, hq, hn, _, -, ⟨hstore, rfl⟩, _, -, ⟨hload, rfl⟩, _, -,
    ⟨hzero, rfl⟩, _, -, ⟨hgreater, rfl⟩, hjump, rfl⟩, rfl⟩, hb⟩, _, -, ⟨_, -, ⟨hload', rfl⟩, _, -,
    ⟨hone, rfl⟩, _, -, ⟨hsub, rfl⟩, _, -, ⟨hstore', rfl⟩, hagain, rfl⟩, hend⟩
  simp only [Fragment.size_append, size_emit, Fragment.size_closeExits, List.length_append,
    List.length_singleton, Draft.mark_pc] at hy hq
  -- the jumps go where the body stands, not where it was counted to stand
  rw [show L.entry + (start + count.length + 1) = q + 1 by omega] at hagain
  rw [show L.entry + (start + count.length + 1 + 4 + body.size + 5) = y.pc + 5 by omega]
    at hjump hb
  rw [show L.entry + (start + count.length + 1 + 4 + body.size) = y.pc by omega] at hb
  exact ⟨slot, q, y, hL.locals (h₄.locals hslot), hn, hstore, hload, hzero, hgreater, hjump, hb,
    hload', hone, hsub, hstore', hagain, hend⟩

theorem yields_guard (hcx : cx.Nests) (hb : cx.inTry.YieldsBlock b)
    (hhs : cx.inTry.YieldsCatches hs) (hc : cx.YieldsCleanup c) :
    cx.YieldsAction (.guard b hs c) := by
  intro start
  refine (yields_tableIndex.bind fun _ =>
    (hb (start + 1)).bind fun body => (hhs (start + 1 + body.size + 1)).bind fun handlers =>
    (hc (start + 1 + body.size + 1 +
      (handlers.map fun handler => handler.2.size + 1).sum)).bind fun _ =>
    yields_operand.bind fun _ => Yields.pure).mono ?_
  rintro d _ d' ⟨_, _, ⟨rfl, hle, rfl⟩, body, d₂, hb, handlers, d₃, hhs, cleanup, d₄, hc, _, _,
    ⟨rfl, rfl, hout⟩, rfl, rfl⟩
  have hhs := hhs cx _ hout
  rw [hcx.leave?_inTry] at hb hhs
  refine (((((emits_pushTry cx cx.names _ start hle ⟨_, _⟩).append (hb.inTry.congr rfl)).append
    (Emits.ofCodes cx (Codes.target .popTry rfl hout))).append
    (hhs.inTry.congr (by simp [Nat.add_assoc]))).append (hc.congr (by simp; omega))).mono ?_
  rintro L x - - ⟨z, -, ⟨_, -, ⟨y, hy, ⟨_, -, ⟨hpush, ⟨t, ht, hmoved⟩, rfl⟩, hb⟩, _, -,
    ⟨hpop, rfl⟩, rfl⟩, hhs⟩, hc⟩
  have hcatches := hhs _ hmoved.clauses
  refine ⟨t, y, z, hpush, ht, hb, hpop.congr ?_, ?_, hc _ hmoved.cleanup⟩
  · simp
    omega
  · refine (congrArg (CatchesAt L hs _ · _ _ _) ?_).mp hcatches
    simp
    omega

end

mutual

theorem yields_action (cx : Context) (hcx : cx.Nests) : (a : Action) → cx.YieldsAction a
  | .write e => fun start => (yields_expr cx start e).emits_plain .print (by decide)
  | .ask name => by
    intro start
    refine ((yields_store cx name).bind fun _ => Yields.pure).mono ?_
    rintro d _ _ ⟨ins, d', hstore, rfl, rfl⟩
    refine (Emits.ofCodes cx ((Codes.plain .input (by decide)).append (hstore _))).mono ?_
    rintro L x - - ⟨_, -, ⟨_, -, ⟨hat, rfl⟩, hstore, rfl⟩, hend⟩
    exact ⟨hat, hstore, hend⟩
  | .set name e => by
    intro start
    refine ((yields_expr cx start e).bind fun _ =>
      (yields_store cx name).bind fun _ => Yields.pure).mono ?_
    rintro d _ _ ⟨code, c, he, ins, d', hstore, rfl, rfl⟩
    refine (Emits.ofCodes cx (he.append (hstore _))).mono ?_
    rintro L x - - ⟨_, -, ⟨q, -, he, hstore, rfl⟩, hend⟩
    exact ⟨q, he, hstore, hend⟩
  | .setIndex c i e => by
    intro start
    refine ((yields_expr cx start c).bind fun collection =>
      (yields_expr cx (start + collection.length) i).bind fun position =>
      (yields_expr cx (start + collection.length + position.length) e).bind fun _ =>
        Yields.pure).mono ?_
    rintro d _ _ ⟨collection, d₁, hc, position, d₂, hi, value, d', he, rfl, rfl⟩
    have hcode := ((hc.append hi).append (he.congr (by simp [Nat.add_assoc]))).append
      (Codes.plain .indexSet (by decide))
    refine (Emits.ofCodes cx hcode).mono ?_
    rintro L x - - ⟨_, -, ⟨t, -, ⟨s, -, ⟨q, -, hc, hi⟩, he⟩, hat, rfl⟩, hend⟩
    exact ⟨q, s, t, hc, hi, he, hat, hend⟩
  | .branch c yes no =>
    yields_branch (yields_block cx.inBlock hcx yes) (yields_block cx.inBlock hcx no) c
  | .whileLoop c b =>
    yields_whileLoop (yields_block cx.inLoop cx.nests_inLoop b) c
  | .repeatLoop n b =>
    yields_repeatLoop (yields_block cx.inLoop cx.nests_inLoop b) n
  | .exit way => fun start => yields_loopExit cx start way
  | .function name parameters body => by
    intro start
    unfold action
    split
    · exact .fail ⟨nofun, nofun⟩
    · refine Yields.pure.mono ?_
      rintro _ _ d ⟨rfl, rfl⟩
      exact ⟨Grows.refl _ _, rfl, nofun, fun _ _ _ => rfl⟩
  | .use name args => by
    intro start
    refine ((yields_callee cx name args.length).bind fun _ =>
      (yields_exprs cx start args).bind fun _ => Yields.pure).mono ?_
    rintro d _ d' ⟨i, _, ⟨rfl, hcall⟩, code, _, h, rfl, rfl⟩
    have hcode := h.append ((hcall _ d').append (Codes.plain .pop (by decide)))
    refine (Emits.ofCodes cx hcode).mono ?_
    rintro L x - - ⟨_, -, ⟨q, -, hargs, _, -, ⟨hcall, rfl⟩, hat, rfl⟩, hend⟩
    exact ⟨q, hargs, hcall, hat, hend⟩
  | .ret none => by
    intro start
    refine ((yields_loadConstant cx.names .nil).bind fun _ => Yields.pure).mono ?_
    rintro d _ _ ⟨ins, d', hload, rfl, rfl⟩
    refine (Emits.ofCodes cx ((hload _).append (Codes.plain .ret (by decide)))).mono ?_
    rintro L x - - ⟨_, -, ⟨_, -, ⟨hload, rfl⟩, hat, rfl⟩, hend⟩
    exact ⟨hload, hat, hend⟩
  | .ret (some e) => fun start => (yields_expr cx start e).emits_plain .ret (by decide)
  | .guard b hs c =>
    yields_guard hcx (yields_block cx.inTry hcx.inTry b) (yields_catches cx.inTry hcx.inTry hs)
      (yields_cleanupBlock cx hcx c)
  | .throw e => fun start => (yields_expr cx start e).emits_plain .throw (by decide)
  | .writeFile content path => by
    intro start
    refine ((yields_expr cx start content).bind fun text =>
      (yields_expr cx (start + text.length) path).bind fun _ => Yields.pure).mono ?_
    rintro d _ _ ⟨text, c, hc, file, d', hp, rfl, rfl⟩
    refine (Emits.ofCodes cx ((hc.append hp).append (Codes.plain .writeFile (by decide)))).mono ?_
    rintro L x - - ⟨_, -, ⟨s, -, ⟨q, -, hc, hp⟩, hat, rfl⟩, hend⟩
    exact ⟨q, s, hc, hp, hat, hend⟩

theorem yields_handler (cx : Context) (hcx : cx.Nests) (start : Nat) : (h : Handler) →
    Yields (handler cx start h) fun d r d' => Emits cx.names cx.leave? start d r.2 d'
      fun L x m m' => ∀ w, MovedWord L.entry r.1.handler w → HandlerAt L h x ⟨r.1.filter, w⟩ m m'
  | .mk typeName binder b => by
    refine ((yields_filterIndex cx.names typeName).bind fun _ => yields_operand.bind fun _ =>
      (yields_catchStart cx binder).bind fun _ =>
      (yields_block cx hcx b (start + 1)).bind fun _ => Yields.pure).mono ?_
    rintro d _ d' ⟨filter, d₁, ⟨hquiet, hfilter⟩, _, _, ⟨rfl, rfl, hle⟩, ins, d₂, hstart, body, _,
      hb, rfl, rfl⟩
    have hgrow := (hstart 0).quiet.toGrows.trans hb.grows
    refine ((Emits.ofCodes cx ((Codes.nil hquiet).append (hstart _))).append hb).mono ?_
    rintro L x hL - ⟨_, -, ⟨_, -, ⟨_, -, rfl, htakes, rfl⟩, rfl⟩, hb⟩ w hw
    dsimp only at hw
    rw [toNat_ofNat hle] at hw
    exact ⟨hfilter (hL.before hgrow), hw.toInt hle, htakes, hb⟩

theorem yields_catches (cx : Context) (hcx : cx.Nests) : (hs : List Handler) → cx.YieldsCatches hs
  | [] => by
    refine fun start => Yields.pure.mono ?_
    rintro _ _ d ⟨rfl, rfl⟩ cx' out -
    exact ⟨Grows.refl _ _, rfl, nofun, fun _ _ _ cs hcs => ⟨hcs, rfl⟩⟩
  | h :: rest => by
    intro start
    refine ((yields_handler cx hcx start h).bind fun first =>
      (yields_catches cx hcx rest (start + first.2.size + 1)).bind fun _ => Yields.pure).mono ?_
    rintro d _ d' ⟨first, d₁, hh, more, _, hrest, rfl, rfl⟩ cx' out hout
    refine ((hh.append (Emits.ofCodes cx' (Codes.target .popTry rfl hout))).append
      ((hrest cx' out hout).congr (by simp [Nat.add_assoc]))).mono ?_
    rintro L x - - ⟨_, -, ⟨y, -, hh, _, -, ⟨hat, rfl⟩, rfl⟩, hrest⟩ cs ⟨w, later, rfl, hw, hlater⟩
    exact ⟨_, later, y, rfl, hh w hw, hat, hrest later hlater⟩

theorem yields_cleanupBlock (cx : Context) (hcx : cx.Nests) : (c : Option (List Stmt)) →
    cx.YieldsCleanup c
  | none => by
    refine fun start => Yields.pure.mono ?_
    rintro _ _ d ⟨rfl, rfl⟩
    exact ⟨Grows.refl _ _, rfl, nofun, fun _ _ _ w hw => ⟨by simpa using hw, rfl⟩⟩
  | some b => by
    intro start
    refine (yields_operand.bind fun _ =>
      (yields_block cx.inCleanup hcx.inCleanup b start).bind fun _ => Yields.pure).mono ?_
    rintro d _ d' ⟨_, _, ⟨rfl, rfl, hle⟩, body, _, hb, rfl, rfl⟩
    rw [hcx.leave?_inCleanup] at hb
    refine (hb.inCleanup.append (Emits.ofCodes cx (Codes.plain .endFinally (by decide)))).mono ?_
    rintro L x - - ⟨y, -, hb, _, -, ⟨hat, rfl⟩, hend⟩ w hw
    dsimp only at hw
    rw [toNat_ofNat hle, if_neg (ofNat_ne_noIndex hle)] at hw
    exact ⟨hw.toInt hle, y, hb, hat, hend⟩

theorem yields_block (cx : Context) (hcx : cx.Nests) : (b : List Stmt) → cx.YieldsBlock b
  | [] => by
    refine fun start => Yields.pure.mono ?_
    rintro _ _ d ⟨rfl, rfl⟩
    exact ⟨Grows.refl _ _, rfl, nofun, fun _ _ _ => rfl⟩
  | .mk line a :: rest => by
    intro start
    refine ((yields_action (cx.onLine line) (hcx.onLine line) a start).bind fun first =>
      (yields_block (cx.onLine line) (hcx.onLine line) rest (start + first.size)).bind fun _ =>
        Yields.pure).mono ?_
    rintro d _ _ ⟨first, c, ha, more, d', hrest, rfl, rfl⟩
    rw [Context.names_onLine, Context.leave?_onLine] at ha hrest
    exact (ha.append hrest).mono fun L x _ _ ⟨q, _, hat⟩ => ⟨q, hat⟩

end

end Compile
end ScriptMachine
