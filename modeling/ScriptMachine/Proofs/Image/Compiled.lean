import ScriptMachine.Compile.Basic
import ScriptMachine.Proofs.Image.Loading
import ScriptMachine.Proofs.Verify.Rules

namespace ScriptMachine

theorem plain_of {op : Opcode} {a b : BitVec 24} (ha : op.operandCount < 1 → a = 0)
    (hb : op.operandCount < 2 → b = 0) : (Instruction.of op a b).Plain :=
  ⟨op, Instruction.op?_of op a b, ha, hb⟩

theorem plain_alone (op : Opcode) : (Instruction.of op).Plain :=
  plain_of (fun _ => rfl) (fun _ => rfl)

theorem plain_with {op : Opcode} (h : 1 ≤ op.operandCount) (a : BitVec 24) :
    (Instruction.of op a).Plain := plain_of (by omega) (fun _ => rfl)

namespace Compile

def Gives (x : Build α) (P : α → Prop) : Prop := ∀ d a d', x d = .ok (a, d') → P a

theorem gives_any (x : Build α) : Gives x fun _ => True := fun _ _ _ _ => trivial

theorem Gives.pure {a : α} {P : α → Prop} (h : P a) : Gives (pure a) P := by
  rintro d _ _ ⟨⟩
  exact h

theorem gives_fail (e : CompileError) (P : α → Prop) : Gives (fail e) P := nofun

theorem Gives.bind {x : Build α} {f : α → Build β} {P : α → Prop} {Q : β → Prop} (hx : Gives x P)
    (hf : ∀ a, P a → Gives (f a) Q) : Gives (x >>= f) Q := by
  intro d b d' h
  change StateT.bind x f d = .ok (b, d') at h
  unfold StateT.bind at h
  obtain ⟨⟨a, c⟩, ha, hb⟩ := Verify.bind_eq_ok.1 h
  exact hf a (hx d a c ha) c b d' hb

theorem Gives.after {f : α → Build β} {Q : β → Prop} (x : Build α) (hf : ∀ a, Gives (f a) Q) :
    Gives (x >>= f) Q := (gives_any x).bind fun a _ => hf a

theorem Gives.ite {c : Prop} [Decidable c] {x y : Build α} {P : α → Prop} (hx : Gives x P)
    (hy : Gives y P) : Gives (if c then x else y) P := by
  split
  · exact hx
  · exact hy

abbrev AllPlain (code : List Instruction) : Prop := ∀ ins ∈ code, ins.Plain

theorem allPlain_append {xs ys : List Instruction} (hx : AllPlain xs) (hy : AllPlain ys) :
    AllPlain (xs ++ ys) := List.forall_mem_append.2 ⟨hx, hy⟩

theorem allPlain_cons {ins : Instruction} {code : List Instruction} (h : ins.Plain)
    (hcode : AllPlain code) : AllPlain (ins :: code) := List.forall_mem_cons.2 ⟨h, hcode⟩

theorem allPlain_nil : AllPlain [] := fun _ h => nomatch h

theorem allPlain_single {ins : Instruction} (h : ins.Plain) : AllPlain [ins] :=
  allPlain_cons h allPlain_nil

theorem gives_loadConstant (c : Constant) : Gives (loadConstant c) Instruction.Plain :=
  .after _ fun i => .pure (plain_with (by decide) i)

theorem gives_load (cx : Context) (name : Text) : Gives (load cx name) Instruction.Plain := by
  refine .after get fun draft => ?_
  split
  · exact .pure (plain_with (by decide) _)
  · refine Gives.ite (.after _ fun i => .pure (plain_with (by decide) i)) (gives_fail _ _)

theorem gives_store (cx : Context) (name : Text) : Gives (store cx name) Instruction.Plain := by
  refine .after get fun draft => Gives.ite ?_ ?_
  · exact .after _ fun i => .pure (plain_with (by decide) i)
  · exact .after _ fun i => .pure (plain_with (by decide) i)

theorem allPlain_logicalTest (op : LogicalOp) : AllPlain (logicalTest op) := by
  cases op with
  | and => simp [AllPlain, logicalTest]
  | or => exact allPlain_single (plain_alone .not)

theorem plain_call (i b : BitVec 24) : (Instruction.of .call i b).Plain :=
  plain_of (fun h => absurd h (by decide)) (fun h => absurd h (by decide))

mutual

theorem gives_expr (cx : Context) (start : Nat) : (e : Expr) → Gives (expr cx start e) AllPlain
  | .number _ | .string _ | .boolean _ | .nil =>
    (gives_loadConstant _).bind fun _ h => .pure (allPlain_single h)
  | .identifier name => (gives_load cx name).bind fun _ h => .pure (allPlain_single h)
  | .unary op e => (gives_expr cx start e).bind fun _ h =>
    .pure (allPlain_append h (allPlain_single (plain_alone _)))
  | .binary op l r => (gives_expr cx start l).bind fun left hl =>
    (gives_expr cx (start + left.length) r).bind fun right hr =>
    .pure (allPlain_append (allPlain_append hl hr) (allPlain_single (plain_alone _)))
  | .logical op l r => by
    refine (gives_expr cx start l).bind fun left hl => (gives_expr cx _ r).bind fun right hr => ?_
    refine (gives_loadConstant _).bind fun otherwise ho => .after _ fun short => ?_
    refine (gives_loadConstant _).bind fun decided hd => .after _ fun stop => .pure ?_
    have htest : (Instruction.of .jumpIfFalse short).Plain := plain_with (by decide) short
    have hjump : (Instruction.of .jump stop).Plain := plain_with (by decide) stop
    have hleft := allPlain_append hl (allPlain_logicalTest op)
    have hright := allPlain_append hr (allPlain_logicalTest op)
    have htail := allPlain_cons htest (allPlain_cons ho (allPlain_cons hjump (allPlain_single hd)))
    exact allPlain_append
      (allPlain_append (allPlain_append hleft (allPlain_single htest)) hright) htail
  | .call name args => .after _ fun index => (gives_exprs cx start args).bind fun _ h =>
    .pure (allPlain_append h (allPlain_single (plain_call index _)))
  | .list items => (gives_exprs cx start items).bind fun _ h => .after _ fun n =>
    .pure (allPlain_append h (allPlain_single (plain_with (by decide) n)))
  | .dict entries => (gives_dictEntries cx start entries).bind fun _ h => .after _ fun n =>
    .pure (allPlain_append h (allPlain_single (plain_with (by decide) n)))
  | .index c i => (gives_expr cx start c).bind fun collection hc =>
    (gives_expr cx (start + collection.length) i).bind fun _ hi =>
    .pure (allPlain_append (allPlain_append hc hi) (allPlain_single (plain_alone _)))
  | .newError typeName m => (gives_expr cx start m).bind fun _ h => .after _ fun i =>
    .pure (allPlain_append h (allPlain_single (plain_with (by decide) i)))
  | .errorMessage e | .errorType e | .fileText e => (gives_expr cx start e).bind fun _ h =>
    .pure (allPlain_append h (allPlain_single (plain_alone _)))

theorem gives_exprs (cx : Context) (start : Nat) : (es : List Expr) →
    Gives (exprs cx start es) AllPlain
  | [] => .pure allPlain_nil
  | e :: rest => (gives_expr cx start e).bind fun first h =>
    (gives_exprs cx (start + first.length) rest).bind fun _ h' => .pure (allPlain_append h h')

theorem gives_dictEntries (cx : Context) (start : Nat) : (es : List (Text × Expr)) →
    Gives (dictEntries cx start es) AllPlain
  | [] => .pure allPlain_nil
  | (_, e) :: rest => (gives_loadConstant _).bind fun _ hk =>
    (gives_expr cx (start + 1) e).bind fun value h =>
    (gives_dictEntries cx (start + 1 + value.length) rest).bind fun _ h' =>
    .pure (allPlain_append (allPlain_cons hk h) h')

end

/-- The instructions that are in place are plain; loop exits that are still open become jumps. -/
def Fragment.Plain (f : Fragment) : Prop := ∀ q ∈ f.code, ∀ ins, q.slot = .fixed ins → ins.Plain

theorem Fragment.plain_empty : Fragment.Plain {} := fun _ h => nomatch h

theorem Fragment.Plain.append {f g : Fragment} (hf : f.Plain) (hg : g.Plain) : (f ++ g).Plain :=
  List.forall_mem_append.2 ⟨hf, hg⟩

theorem plain_emit {code : List Instruction} (cx : Context) (h : AllPlain code) :
    (emit cx code).Plain := by
  intro q hq ins hins
  obtain ⟨ins', hmem, rfl⟩ := List.mem_map.1 hq
  cases hins
  exact h _ hmem

theorem Fragment.Plain.closeExits {f : Fragment} (hf : f.Plain) (stop skip : BitVec 24) :
    (f.closeExits stop skip).Plain := by
  intro q hq ins hins
  obtain ⟨⟨slot, line⟩, hmem, rfl⟩ := List.mem_map.1 hq
  cases slot with
  | fixed ins' => exact hf _ hmem ins hins
  | unclosed way =>
    cases way <;> cases hins <;> exact plain_with (by decide) _

theorem plain_joinHandlers {exit : Fragment} {handlers : List (CatchClause × Fragment)}
    (hexit : exit.Plain) (h : ∀ r ∈ handlers, r.2.Plain) : (joinHandlers exit handlers).Plain := by
  induction handlers with
  | nil => exact Fragment.plain_empty
  | cons r handlers ih =>
    obtain ⟨hr, hrest⟩ := List.forall_mem_cons.1 h
    exact (hr.append hexit).append (ih hrest)

theorem gives_leaveTries (start count : Nat) : Gives (leaveTries start count) AllPlain := by
  induction count generalizing start with
  | zero => exact .pure allPlain_nil
  | succ count ih =>
    refine .after _ fun a => (ih (start + 1)).bind fun _ h => .pure ?_
    exact allPlain_cons (plain_with (by decide) a) h

theorem gives_loopExit (cx : Context) (start : Nat) (way : LoopExit) :
    Gives (loopExit cx start way) Fragment.Plain := by
  unfold loopExit
  split
  · exact gives_fail _ _
  · refine Gives.ite (gives_fail _ _) ((gives_leaveTries _ _).bind fun _ h => .pure ?_)
    refine (plain_emit cx h).append ?_
    simp [Fragment.Plain]

theorem gives_catchStart (cx : Context) (binder : Text) :
    Gives (catchStart cx binder) Instruction.Plain :=
  Gives.ite (.pure (plain_alone .pop)) (gives_store cx binder)

mutual

theorem gives_action (cx : Context) (start : Nat) : (a : Action) →
    Gives (action cx start a) Fragment.Plain
  | .write e | .ret (some e) | .throw e => (gives_expr cx start e).bind fun _ h =>
    .pure (plain_emit cx (allPlain_append h (allPlain_single (plain_alone _))))
  | .ask name => (gives_store cx name).bind fun _ h =>
    .pure (plain_emit cx (allPlain_cons (plain_alone _) (allPlain_single h)))
  | .set name e => (gives_expr cx start e).bind fun _ h => (gives_store cx name).bind fun _ h' =>
    .pure (plain_emit cx (allPlain_append h (allPlain_single h')))
  | .setIndex c i e => (gives_expr cx start c).bind fun _ hc => (gives_expr cx _ i).bind fun _ hi =>
    (gives_expr cx _ e).bind fun _ he => .pure (plain_emit cx (allPlain_append
      (allPlain_append (allPlain_append hc hi) he) (allPlain_single (plain_alone _))))
  | .branch c yes no => by
    refine (gives_expr cx start c).bind fun _ hc =>
      (gives_block cx.inBlock _ yes).bind fun _ hy => ?_
    have htest (a : BitVec 24) : (Instruction.of .jumpIfFalse a).Plain := plain_with (by decide) a
    have hcondition (a : BitVec 24) :=
      plain_emit cx (allPlain_append hc (allPlain_single (htest a)))
    refine Gives.ite (.after _ fun a => .pure ((hcondition a).append hy)) (.after _ fun a => ?_)
    refine (gives_block cx.inBlock _ no).bind fun _ hn => .after _ fun stop => .pure ?_
    have hjump : (Instruction.of .jump stop).Plain := plain_with (by decide) stop
    exact (((hcondition a).append hy).append (plain_emit cx (allPlain_single hjump))).append hn
  | .whileLoop c b => by
    refine (gives_expr cx start c).bind fun _ hc => (gives_block cx.inLoop _ b).bind fun _ hb => ?_
    refine .after _ fun again => .after _ fun stop => .pure ?_
    have htest : (Instruction.of .jumpIfFalse stop).Plain := plain_with (by decide) stop
    have hjump : (Instruction.of .jump again).Plain := plain_with (by decide) again
    exact ((plain_emit cx (allPlain_append hc (allPlain_single htest))).append
      (hb.closeExits stop again)).append (plain_emit cx (allPlain_single hjump))
  | .repeatLoop n b => by
    refine .after _ fun counter => (gives_expr cx start n).bind fun _ hn => ?_
    refine (gives_loadConstant _).bind fun _ hzero =>
      (gives_block cx.inLoop _ b).bind fun _ hb => ?_
    refine (gives_loadConstant _).bind fun _ hone => ?_
    refine .after _ fun again => .after _ fun skip => .after _ fun stop => .pure ?_
    have hload : (Instruction.of .loadLocal counter).Plain := plain_with (by decide) counter
    have hstore : (Instruction.of .storeLocal counter).Plain := plain_with (by decide) counter
    have htest : (Instruction.of .jumpIfFalse stop).Plain := plain_with (by decide) stop
    have hjump : (Instruction.of .jump again).Plain := plain_with (by decide) again
    have hhead := allPlain_append hn (allPlain_cons hstore (allPlain_cons hload
      (allPlain_cons hzero (allPlain_cons (plain_alone .greater) (allPlain_single htest)))))
    have htail := allPlain_cons hload (allPlain_cons hone (allPlain_cons (plain_alone .sub)
      (allPlain_cons hstore (allPlain_single hjump))))
    exact ((plain_emit cx hhead).append (hb.closeExits stop skip)).append (plain_emit cx htail)
  | .exit way => gives_loopExit cx start way
  | .function _ _ _ => Gives.ite (gives_fail _ _) (.pure Fragment.plain_empty)
  | .use name args => .after _ fun index => (gives_exprs cx start args).bind fun _ h =>
    .pure (plain_emit cx (allPlain_append h
      (allPlain_cons (plain_call index _) (allPlain_single (plain_alone _)))))
  | .ret none => (gives_loadConstant _).bind fun _ h =>
    .pure (plain_emit cx (allPlain_cons h (allPlain_single (plain_alone _))))
  | .guard b hs c => by
    refine .after _ fun index => (gives_block cx.inTry _ b).bind fun _ hb => ?_
    refine (gives_catches cx.inTry _ hs).bind fun _ hhs =>
      (gives_cleanupBlock cx _ c).bind fun _ hc => ?_
    refine .after _ fun out => .pure ?_
    have hpush : (Instruction.of .pushTry index).Plain := plain_with (by decide) index
    have hpop : (Instruction.of .popTry out).Plain := plain_with (by decide) out
    have hexit := plain_emit cx (allPlain_single hpop)
    have htable (tables : List TryTable) : Fragment.Plain ⟨[], tables⟩ := fun _ h => nomatch h
    exact (((((plain_emit cx (allPlain_single hpush)).append (htable _)).append hb).append hexit).append
      (plain_joinHandlers hexit hhs)).append hc
  | .writeFile c p => (gives_expr cx start c).bind fun _ hc => (gives_expr cx _ p).bind fun _ hp =>
    .pure (plain_emit cx (allPlain_append (allPlain_append hc hp) (allPlain_single (plain_alone _))))

theorem gives_handler (cx : Context) (start : Nat) : (h : Handler) →
    Gives (handler cx start h) fun r => r.2.Plain
  | .mk _ binder b => .after _ fun _ => .after _ fun _ =>
    (gives_catchStart cx binder).bind fun _ hfirst =>
      (gives_block cx (start + 1) b).bind fun _ hb =>
    .pure ((plain_emit cx (allPlain_single hfirst)).append hb)

theorem gives_catches (cx : Context) (start : Nat) : (hs : List Handler) →
    Gives (catches cx start hs) fun rs => ∀ r ∈ rs, r.2.Plain
  | [] => .pure fun _ h => nomatch h
  | h :: rest => (gives_handler cx start h).bind fun first hfirst =>
    (gives_catches cx (start + first.2.size + 1) rest).bind fun _ hrest =>
    .pure (List.forall_mem_cons.2 ⟨hfirst, hrest⟩)

theorem gives_cleanupBlock (cx : Context) (start : Nat) : (c : Option (List Stmt)) →
    Gives (cleanupBlock cx start c) fun r => r.2.Plain
  | none => .pure Fragment.plain_empty
  | some b => .after _ fun _ => (gives_block cx.inCleanup start b).bind fun _ hb =>
    .pure (hb.append (plain_emit cx (allPlain_single (plain_alone _))))

theorem gives_block (cx : Context) (start : Nat) : (b : List Stmt) →
    Gives (block cx start b) Fragment.Plain
  | [] => .pure Fragment.plain_empty
  | .mk line a :: rest => (gives_action (cx.onLine line) start a).bind fun first hfirst =>
    (gives_block (cx.onLine line) (start + first.size) rest).bind fun _ hrest =>
    .pure (hfirst.append hrest)

end

theorem gives_relocate {function : Text} {entry index : Nat} {slot : Slot}
    (h : ∀ ins, slot = .fixed ins → ins.Plain) :
    Gives (relocate function entry index slot) Instruction.Plain := by
  cases slot with
  | unclosed way => exact gives_fail _ _
  | fixed ins =>
    obtain ⟨op, hop, ha, hb⟩ := h ins rfl
    simp only [relocate, hop]
    by_cases hkind : op.kindA = .target
    · rw [if_pos hkind]
      refine .after _ fun a => .pure ⟨op, hop, fun hcount => ?_, hb⟩
      unfold Opcode.operandCount at hcount
      rw [hkind] at hcount
      split at hcount <;> simp at hcount
    · rw [if_neg hkind]
      exact .pure ⟨op, hop, ha, hb⟩

theorem gives_relocateAll {function : Text} {entry index : Nat} {code : List Placed}
    (h : ∀ q ∈ code, ∀ ins, q.slot = .fixed ins → ins.Plain) :
    Gives (relocateAll function entry index code) AllPlain := by
  induction code generalizing index with
  | nil => exact .pure allPlain_nil
  | cons q code ih =>
    obtain ⟨hq, hcode⟩ := List.forall_mem_cons.1 h
    exact (gives_relocate hq).bind fun _ hins => (ih hcode).bind fun _ hrest =>
      .pure (allPlain_cons hins hrest)

theorem gives_operand (n : Nat) (what : Text) :
    Gives (operand n what) fun a => a.toNat ≤ maxOperand := by
  unfold operand
  split
  · next hle =>
    refine .pure ?_
    unfold maxOperand at hle ⊢
    simp
    omega
  · exact gives_fail _ _

theorem gives_mapM {f : α → Build β} {P : β → Prop} (h : ∀ x, Gives (f x) P) (xs : List α) :
    Gives (xs.mapM f) fun ys => ∀ y ∈ ys, P y := by
  induction xs with
  | nil =>
    rw [List.mapM_nil]
    exact .pure fun _ h => nomatch h
  | cons x xs ih =>
    rw [List.mapM_cons]
    exact (h x).bind fun _ hy => ih.bind fun _ hys => .pure (List.forall_mem_cons.2 ⟨hy, hys⟩)

theorem gives_foldlM {f : β → α → Build β} {P : β → Prop} (h : ∀ b a, P b → Gives (f b a) P)
    (l : List α) {b : β} (hb : P b) : Gives (l.foldlM f b) P := by
  induction l generalizing b with
  | nil =>
    rw [List.foldlM_nil]
    exact .pure hb
  | cons a l ih =>
    rw [List.foldlM_cons]
    exact (h b a hb).bind fun _ hb' => ih hb'

theorem gives_relocateTable (entry : Nat) (t : TryTable) :
    Gives (relocateTable entry t) TryTable.Plain := by
  have hclause (c : CatchClause) : Gives (do
      return { c with handler := ← relocateWord entry c.handler }) CatchClause.Plain := by
    refine Gives.bind (P := fun w : Int32 => 0 ≤ w.toInt ∧ w.toInt ≤ maxOperand) ?_ fun _ h =>
      .pure h
    refine (gives_operand _ _).bind fun a ha => .pure ?_
    have hlt : a.toNat < 2 ^ 31 := by
      unfold maxOperand at ha
      omega
    rw [Int32.toInt_ofNat_of_lt hlt]
    omega
  refine (gives_mapM hclause t.clauses).bind fun clauses hclauses => ?_
  split
  · exact .pure hclauses
  · exact .after _ fun _ => .pure hclauses

def Assembly.Plain (asm : Assembly) : Prop :=
  AllPlain asm.code.toList ∧ ∀ t ∈ asm.tries.toList, t.Plain

theorem gives_add {asm : Assembly} {f : Function} {g : Fragment} (hasm : asm.Plain) (hg : g.Plain) :
    Gives (asm.add f g) Assembly.Plain := by
  refine (gives_relocateAll hg).bind fun code hcode => ?_
  refine (gives_mapM (gives_relocateTable _) g.tables).bind fun tries htries => ?_
  refine .after get fun draft => .pure ⟨?_, ?_⟩
  · rw [Array.toList_appendList]
    exact allPlain_append hasm.1 hcode
  · rw [Array.toList_appendList]
    exact List.forall_mem_append.2 ⟨hasm.2, htries⟩

theorem gives_addMain {asm : Assembly} (cx : Context) (tree : List Stmt) (hasm : asm.Plain) :
    Gives (addMain cx tree asm) Assembly.Plain :=
  .after _ fun _ => (gives_block cx 0 tree).bind fun _ hbody =>
    gives_add hasm (hbody.append (plain_emit cx (allPlain_single (plain_alone _))))

theorem gives_addFunction {asm : Assembly} (cx : Context) (unit : Function × Declaration)
    (hasm : asm.Plain) : Gives (addFunction cx asm unit) Assembly.Plain :=
  .after _ fun _ => .after _ fun _ => (gives_block _ 0 unit.2.body).bind fun _ hbody =>
    (gives_loadConstant _).bind fun _ hlast => gives_add hasm
      (hbody.append (plain_emit _ (allPlain_cons hlast (allPlain_single (plain_alone _)))))

theorem gives_functions {asm : Assembly} (cx : Context) (units : List (Function × Declaration))
    (hasm : asm.Plain) : Gives (units.foldlM (addFunction cx) asm) Assembly.Plain :=
  gives_foldlM (fun _ unit h => gives_addFunction cx unit h) units hasm

theorem gives_program (options : Options) (tree : List Stmt) : Gives (program options tree) fun p =>
    (∀ ins ∈ p.code.toList, ins.Plain) ∧ ∀ t ∈ p.tries.toList, t.Plain := by
  have hempty : Assembly.Plain {} := ⟨allPlain_nil, fun _ h => nomatch h⟩
  refine .after _ fun _ => .after _ fun functions => ?_
  refine (gives_addMain _ tree hempty).bind fun main hmain => ?_
  refine (gives_functions _ _ hmain).bind fun assembly h => ?_
  exact .after get fun _ => .pure h

end Compile

/-- The counts, lengths and addresses that an image holds as words. -/
def Program.sizes (p : Program) : List Nat :=
  [p.constants.size, p.globals.size, p.functions.size, p.tries.size, p.code.size] ++
    p.constants.toList.filterMap (fun c => c.string?.map List.length) ++
    p.globals.toList.map List.length ++
    p.functions.toList.flatMap (fun f => [f.name.length, f.entry, f.stop, f.arity, f.localCount]) ++
    p.tries.toList.map (·.clauses.length) ++
    match p.debug with
    | none => []
    | some debug =>
      debug.source.length :: debug.lines.size :: debug.locals.size ::
        debug.locals.toList.flatMap fun names => names.size :: names.toList.map List.length

namespace Image

theorem each_isOk {α : Type} {write : α → Written} {xs : List α}
    (h : ∀ x ∈ xs, ∃ t, write x = .ok t) : ∃ t, each xs write = .ok t := by
  induction xs with
  | nil => exact ⟨[], rfl⟩
  | cons x xs ih =>
    obtain ⟨u, hu⟩ := h x List.mem_cons_self
    obtain ⟨v, hv⟩ := ih fun y hy => h y (List.mem_cons_of_mem x hy)
    exact ⟨u ++ v, each_cons.2 ⟨u, v, hu, hv, rfl⟩⟩

theorem table_isOk {α : Type} (write : α → Written) (xs : List α) (what : Text)
    (hlength : xs.length < 2 ^ 32) (h : ∀ x ∈ xs, ∃ t, write x = .ok t) :
    ∃ t, table xs what write = .ok t := by
  obtain ⟨u, hu⟩ := each_isOk h
  exact ⟨_, table_eq_ok.2 ⟨hlength, u, hu, rfl⟩⟩

theorem string_isOk {t : Text} (h : t.length < 2 ^ 32) : ∃ u, string t = .ok u :=
  ⟨_, string_eq_ok.2 ⟨h, rfl⟩⟩

theorem function_isOk {f : Function}
    (h : ∀ n ∈ [f.name.length, f.entry, f.stop, f.arity, f.localCount], n < 2 ^ 32) :
    ∃ t, function f = .ok t := by
  simp only [List.forall_mem_cons] at h
  obtain ⟨hname, hentry, hstop, harity, hlocals, -⟩ := h
  obtain ⟨name, hname⟩ := string_isOk hname
  simp only [function, Verify.bind_eq_ok, size_eq_ok]
  exact ⟨_, name, hname, _, ⟨hentry, rfl⟩, _, ⟨hstop, rfl⟩, _, ⟨harity, rfl⟩, _, ⟨hlocals, rfl⟩,
    rfl⟩

theorem debugInfo_isOk (info : Option DebugInfo)
    (h : ∀ debug, info = some debug → debug.source.length < 2 ^ 32 ∧ debug.lines.size < 2 ^ 32 ∧
      debug.locals.size < 2 ^ 32 ∧ ∀ names ∈ debug.locals.toList, names.size < 2 ^ 32 ∧
        ∀ name ∈ names.toList, name.length < 2 ^ 32) : ∃ t, debugInfo info = .ok t := by
  cases info with
  | none => exact ⟨[0], rfl⟩
  | some debug =>
    obtain ⟨hsource, hlines, hlocals, hnames⟩ := h debug rfl
    obtain ⟨t, ht⟩ := string_isOk hsource
    obtain ⟨u, hu⟩ := table_isOk (fun line : UInt32 => .ok (word line.toNat))
      debug.lines.toList "line entries" (by simpa using hlines) fun _ _ => ⟨_, rfl⟩
    obtain ⟨v, hv⟩ := table_isOk (fun names : Array Text =>
        table names.toList "local names" string) debug.locals.toList "local name tables"
      (by simpa using hlocals) fun names hmem =>
        table_isOk _ _ _ (by simpa using (hnames names hmem).1) fun name hname =>
          string_isOk ((hnames names hmem).2 name hname)
    simp only [debugInfo, Verify.bind_eq_ok]
    exact ⟨_, t, ht, u, hu, v, hv, rfl⟩

theorem write_isOk {p : Program} (hsizes : ∀ n ∈ p.sizes, n < 2 ^ 32)
    (hcode : ∀ ins ∈ p.code.toList, ins.Plain) : ∃ image, write p = .ok image := by
  simp only [Program.sizes, List.forall_mem_append] at hsizes
  obtain ⟨⟨⟨⟨⟨hcounts, hstrings⟩, hglobals⟩, hfunctions⟩, htries⟩, hdebug⟩ := hsizes
  simp only [List.forall_mem_cons] at hcounts
  obtain ⟨hconstants, hnames, hnumber, htables, hsize, -⟩ := hcounts
  obtain ⟨t, ht⟩ := table_isOk constant p.constants.toList "constants"
    (by simpa using hconstants) fun c hc => by
      cases c with
      | string u =>
        obtain ⟨v, hv⟩ := string_isOk (hstrings u.length (List.mem_filterMap.2 ⟨_, hc, rfl⟩))
        exact ⟨1 :: v, Verify.bind_eq_ok.2 ⟨v, hv, rfl⟩⟩
      | number x | boolean b | nil => exact ⟨_, rfl⟩
  obtain ⟨u, hu⟩ := table_isOk string p.globals.toList "global names"
    (by simpa using hnames) fun name hname =>
      string_isOk (hglobals _ (List.mem_map.2 ⟨name, hname, rfl⟩))
  obtain ⟨v, hv⟩ := table_isOk function p.functions.toList "functions"
    (by simpa using hnumber) fun f hf =>
      function_isOk fun n hn => hfunctions n (List.mem_flatMap.2 ⟨f, hf, hn⟩)
  obtain ⟨w, hw⟩ := table_isOk tryTable p.tries.toList "try tables"
    (by simpa using htables) fun x hx => by
      obtain ⟨y, hy⟩ := table_isOk clause x.clauses "catch clauses"
        (htries _ (List.mem_map.2 ⟨x, hx, rfl⟩)) fun _ _ => ⟨_, rfl⟩
      exact ⟨_, Verify.bind_eq_ok.2 ⟨y, hy, rfl⟩⟩
  obtain ⟨x, hx⟩ := table_isOk instruction p.code.toList "instructions"
    (by simpa using hsize) fun ins hins => by
      obtain ⟨op, hop, -⟩ := hcode ins hins
      exact ⟨_, instruction_eq_ok.2 ⟨op, hop, rfl⟩⟩
  obtain ⟨y, hy⟩ := debugInfo_isOk p.debug fun debug hinfo => by
    rw [hinfo] at hdebug
    simp only [List.forall_mem_cons, List.mem_flatMap] at hdebug
    obtain ⟨hsource, hlines, hlocals, hrest⟩ := hdebug
    refine ⟨hsource, hlines, hlocals, fun names hmem => ?_⟩
    have hall (n : Nat) (hn : n ∈ names.size :: names.toList.map List.length) : n < 2 ^ 32 :=
      hrest n ⟨names, hmem, hn⟩
    exact ⟨hall _ List.mem_cons_self,
      fun name hname => hall _ (List.mem_cons_of_mem _ (List.mem_map.2 ⟨name, hname, rfl⟩))⟩
  simp only [write, Verify.bind_eq_ok]
  exact ⟨_, t, ht, u, hu, v, hv, w, hw, x, hx, y, hy, rfl⟩

/-- A verified program without loose operands is read back from its image, depths included. -/
theorem read_of_write {image : Text} {p : Program} (hverify : p.verify = .ok p)
    (hcode : ∀ ins ∈ p.code.toList, ins.Plain) (htries : ∀ t ∈ p.tries.toList, t.Plain)
    (hwrite : write p = .ok image) : read image = .ok p := by
  have hp := Verify.checkLayout_eq_ok.1 (Verify.verify_eq_ok.1 hverify).1
  let bare := Verify.storeDepths p (List.replicate p.functions.size 0)
  refine read_eq_ok.2 ⟨bare, ⟨hp.version, ?_, htries, hcode⟩, ?_,
    Verify.verify_storeDepths _ hverify⟩
  · intro f hf
    obtain ⟨i, hi⟩ := List.mem_iff_getElem?.1 hf
    simp only [bare, Verify.storeDepths, Array.toList_mapIdx, List.getElem?_mapIdx,
      Option.map_eq_some_iff] at hi
    obtain ⟨g, hg, rfl⟩ := hi
    have hformed := hp.formed (Array.mem_toList_iff.1 (List.mem_of_getElem? hg))
    have hlt : i < p.functions.size := by
      simpa using (List.getElem?_eq_some_iff.1 hg).1
    rw [List.getElem?_replicate, if_pos hlt]
    exact ⟨hformed.arity, hformed.defaults, rfl⟩
  · rw [write_storeDepths, hwrite]

/-- The image of a compiled program is read back as the program, in every field. -/
theorem read_compiled {options : Compile.Options} {tree : List Stmt} {p : Program}
    (h : compile options tree = .ok p) (hsizes : ∀ n ∈ p.sizes, n < 2 ^ 32) :
    ∃ image, write p = .ok image ∧ read image = .ok p := by
  have hgives := Compile.gives_program options tree {}
  unfold compile at h
  cases hrun : (Compile.program options tree).run {} with
  | error e => simp [hrun] at h
  | ok result =>
    obtain ⟨q, draft⟩ := result
    obtain ⟨hcode, htries⟩ := hgives q draft hrun
    simp only [hrun] at h
    cases hverify : q.verify with
    | error e => simp [hverify] at h
    | ok verified =>
      simp only [hverify, Except.ok.injEq] at h
      subst h
      obtain ⟨-, depths, -, rfl⟩ := Verify.verify_eq_ok.1 hverify
      obtain ⟨image, himage⟩ := write_isOk hsizes hcode
      exact ⟨image, himage,
        read_of_write (Verify.verify_of_verify hverify) hcode htries himage⟩

/-- A function whose default is negative zero, with a NaN that carries a payload in a try construct
that has a handler and a finally block. -/
def oddLiterals : List Stmt :=
  let f : Text := [0x66]
  let x : Text := [0x78]
  [.mk 1 (.function f [⟨x, some (.number ⟨0x8000000000000000⟩)⟩] [
    .mk 2 (.guard [.mk 3 (.write (.number ⟨0xfff8000000000123⟩))]
      [.mk x [] [.mk 4 (.throw (.identifier x))]] (some [.mk 5 (.write (.identifier x))]))]),
   .mk 6 (.use f [])]

theorem read_compiled_oddLiterals : ∃ p, compile ⟨[], true, [0x73]⟩ oddLiterals = .ok p ∧
    (∀ n ∈ p.sizes, n < 2 ^ 32) ∧ ∃ image, write p = .ok image ∧ read image = .ok p := by
  have hfits : (compile ⟨[], true, [0x73]⟩ oddLiterals).toOption.any
      fun p => p.sizes.all (· < 2 ^ 32) := by decide +kernel
  cases hp : compile ⟨[], true, [0x73]⟩ oddLiterals with
  | error e => simp [hp, Except.toOption] at hfits
  | ok p =>
    have hsizes : ∀ n ∈ p.sizes, n < 2 ^ 32 := by
      simpa [hp, Except.toOption] using hfits
    exact ⟨p, rfl, hsizes, read_compiled hp hsizes⟩

end Image
end ScriptMachine
