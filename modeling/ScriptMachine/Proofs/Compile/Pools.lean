import ScriptMachine.Proofs.Compile.Assembled
import ScriptMachine.Proofs.Compile.Requests
import ScriptMachine.Proofs.Machine.Safety

namespace ScriptMachine
namespace Compile

/-- The main program ends with a halt. -/
def mainRequests (tree : List Stmt) : Requests := blockRequests 0 tree ++ ⟨[.other], []⟩

/-- A function ends by returning nil. -/
def functionRequests (declaration : Declaration) : Requests :=
  blockRequests 0 declaration.body ++ ⟨[.literal .nil, .other], []⟩

def programRequests (tree : List Stmt) : Requests :=
  (tree.filterMap Stmt.declaration?).foldl (fun r declaration => r ++ functionRequests declaration)
    (mainRequests tree)

def DefaultAt (constants : Array Constant) (parameter : Parameter) (w : Int32) : Prop :=
  match parameter.fallback with
  | none => w = noIndex
  | some e => ∃ c, ∃ i : Nat, e.literal? = some c ∧ w.toInt = i ∧ constants[i]? = some c

theorem forall₂_of_defaultsAt {constants : Array Constant} {seen : Bool} {ps : List Parameter}
    {ws : List Int32} (h : DefaultsAt constants seen ps ws) :
    List.Forall₂ (DefaultAt constants) ps ws := by
  induction ps generalizing seen ws with
  | nil =>
    obtain rfl : ws = [] := h
    exact .nil
  | cons q ps ih =>
    obtain ⟨w, later, seen', rfl, hlater, hword⟩ := h.uncons
    exact .cons hword (ih hlater)

/-- The pools of a program, and all that holds indices in them, against its text. -/
structure Pooled (options : Options) (tree : List Stmt) (p : Program) : Prop where
  constants : p.constants.toList.Nodup
  globals : p.globals.toList.Nodup
  /-- The globals of the host come first, in the order in which they are first named. -/
  hostGlobals : options.hostGlobals.eraseDups <+: p.globals.toList
  operands : List.Forall₂ (Denotes p.constants p.globals)
    (programRequests tree).operands p.code.toList
  tables : List.Forall₂ (TableAt p.constants) (programRequests tree).filters p.tries.toList
  /-- The main program has no parameters. -/
  defaults : List.Forall₂ (List.Forall₂ (DefaultAt p.constants))
    ([] :: (tree.filterMap Stmt.declaration?).map Declaration.parameters)
    (p.functions.toList.map Function.defaults)

theorem Moved.op?_eq {entry : Nat} {ins ins' : Instruction} (h : Moved entry ins ins') :
    ins'.op? = ins.op? := by
  unfold Moved at h
  split at h
  · rw [h.2]
    rfl
  · rw [h]

theorem Moved.eq_of_kindA {entry : Nat} {ins ins' : Instruction} (h : Moved entry ins ins')
    {op : Opcode} (hop : ins.op? = some op) (hkind : op.kindA ≠ .target) : ins' = ins := by
  rw [Moved, hop, if_neg (by simpa using hkind)] at h
  exact h

theorem Denotes.moved {constants : Array Constant} {globals : Array Text} {o : Operand}
    {entry : Nat} {ins ins' : Instruction} (h : Denotes constants globals o ins)
    (hmoved : Moved entry ins ins') : Denotes constants globals o ins' := by
  cases o with
  | literal c => rwa [hmoved.eq_of_kindA h.1 (by decide)]
  | errorType typeName => rwa [hmoved.eq_of_kindA h.1 (by decide)]
  | read name =>
    rcases h with h | h
    · exact .inl (hmoved.op?_eq.trans h)
    · exact .inr (by rwa [hmoved.eq_of_kindA h.1 (by decide)])
  | write name =>
    rcases h with h | h
    · exact .inl (hmoved.op?_eq.trans h)
    · exact .inr (by rwa [hmoved.eq_of_kindA h.1 (by decide)])
  | other =>
    obtain ⟨op, hop, hkinds⟩ := h
    exact ⟨op, hmoved.op?_eq.trans hop, hkinds⟩

theorem SlotDenotes.becomes {constants : Array Constant} {globals : Array Text} {o : Operand}
    {entry : Nat} {slot : Slot} {ins : Instruction} (h : SlotDenotes constants globals o slot)
    (hslot : slot.Becomes entry none ins) : Denotes constants globals o ins := by
  cases slot with
  | fixed ins₀ => exact Denotes.moved h hslot
  | unclosed way =>
    obtain ⟨_, ⟨⟩, -⟩ := hslot

theorem MovedClauses.filters_eq {entry : Nat} {clauses cs : List CatchClause}
    (h : MovedClauses entry clauses cs) :
    cs.map CatchClause.filter = clauses.map CatchClause.filter := by
  induction clauses generalizing cs with
  | nil =>
    obtain rfl : cs = [] := h
    rfl
  | cons c clauses ih =>
    obtain ⟨w, later, rfl, -, hlater⟩ := h
    rw [List.map_cons, List.map_cons, ih hlater]

theorem TableAt.moved {constants : Array Constant} {types : List Text} {entry : Nat}
    {t t' : TryTable} (h : TableAt constants types t) (hmoved : MovedTable entry t t') :
    TableAt constants types t' := by
  rwa [TableAt, hmoved.clauses.filters_eq]

theorem Made.forall₂ {R : α → β → Prop} {S : γ → α → Prop} {T : γ → β → Prop} {xs : List α}
    {ys : List β} {zs : List γ} (h : Made R xs ys) (hzs : List.Forall₂ S zs xs)
    (hT : ∀ z x y, S z x → R x y → T z y) : List.Forall₂ T zs ys := by
  refine List.forall₂_iff_get.2 ⟨hzs.length_eq.trans h.1.symm, fun i hz hy => ?_⟩
  have hx : i < xs.length := h.1 ▸ hy
  obtain ⟨y, hget, hR⟩ := h.getElem? (List.getElem?_eq_getElem hx)
  rw [List.getElem?_eq_getElem hy, Option.some.injEq] at hget
  subst hget
  exact hT _ _ _ (hzs.get hz hx) hR

theorem Pools.keeps {d d' : Draft} (h : Pools d d') : Keeps d d' :=
  ⟨h.constants, h.globals, h.bounded⟩

/-- The functions that have been added, against what their texts ask for. -/
structure Collected (r : Requests) (defaults : List (List Int32)) (asm : Assembly) (d : Draft) :
    Prop where
  bounded : d.Bounded
  operands : List.Forall₂ (Denotes d.constants d.globals) r.operands asm.code.toList
  tables : List.Forall₂ (TableAt d.constants) r.filters asm.tries.toList
  defaults : asm.functions.toList.map Function.defaults = defaults

theorem Collected.add {r r' : Requests} {defaults : List (List Int32)} {asm asm' : Assembly}
    {d₀ d d' : Draft} {f : Function} {g : Fragment} {code : List Instruction}
    {tries : List TryTable} (h : Collected r defaults asm d₀) (hkeeps : Keeps d₀ d)
    (hg : AsksText d g d' r')
    (hcode : Made (fun q ins => q.slot.Becomes asm.code.size none ins) g.code code)
    (htries : Made (MovedTable asm.code.size) g.tables tries)
    (hfunctions : asm'.functions = asm.functions.push f) (hcode' : asm'.code = asm.code ++ code)
    (htries' : asm'.tries = asm.tries ++ tries) :
    Collected (r ++ r') (defaults ++ [f.defaults]) asm' d' := by
  have hd := hkeeps.bounded h.bounded
  have hgrow := hkeeps.trans hg.keeps
  refine ⟨hg.keeps.bounded hd, ?_, ?_, ?_⟩
  · rw [hcode', Array.toList_appendList]
    have hslots := hg.operands hd
    rw [Fragment.slots, List.forall₂_map_right_iff] at hslots
    refine List.rel_append (h.operands.imp fun _ _ => Denotes.mono hgrow.constants hgrow.globals) ?_
    exact hcode.forall₂ hslots fun _ _ _ => SlotDenotes.becomes
  · rw [htries', Array.toList_appendList]
    refine List.rel_append (h.tables.imp fun _ _ => TableAt.mono hgrow.constants) ?_
    exact htries.forall₂ (hg.filters hd) fun _ _ _ => TableAt.moved
  · rw [hfunctions, Array.toList_push, List.map_append, h.defaults]
    rfl

theorem asks_body (cx : Context) (hloop : cx.loop = none) (b : List Stmt) :
    Yields (block cx 0 b) fun d body d' =>
      (∀ q ∈ body.code, ∃ ins, q.slot = .fixed ins) ∧ AsksText d body d' (blockRequests 0 b) := by
  have hleave : cx.LeavesBy 0 := by
    intro n hn
    rw [Context.leave?_of_loop hloop] at hn
    cases hn
  have hasks := asks_block cx (Context.nests_of_loop hloop) hleave b 0
  exact ((yields_body cx hloop b).and hasks).mono fun d body d' h => ⟨h.1.closed rfl, h.2⟩

theorem asks_addMain {cx : Context} (hloop : cx.loop = none) (tree : List Stmt) :
    Yields (addMain cx tree {}) fun d asm d' => d.Bounded →
      Keeps d d' ∧ Collected (mainRequests tree) [[]] asm d' := by
  refine ((yields_modify _).bind fun _ => (asks_body cx hloop tree).bind_of fun body _ _ hbody =>
    yields_add (closed_append_emit hbody.1 cx _)).mono ?_
  rintro d _ d' ⟨_, _, rfl, body, _, ⟨-, hasks⟩, rfl, code, tries, hcode, htries, rfl⟩ hd
  have hstart : Collected {} [] {} d := ⟨hd, .nil, .nil, rfl⟩
  have htext := hasks.append (.other d' cx (by decide : Opcode.halt.kindA ≠ .constant)
    (by decide) 0 0)
  have henter := (pools_enter d).keeps
  exact ⟨henter.trans htext.keeps,
    hstart.add (f := place mainFunction 0 code.length _) henter htext hcode htries rfl rfl rfl⟩

theorem asks_addFunction {cx : Context} (hloop : cx.loop = none) (asm : Assembly)
    (unit : Function × Declaration) : Yields (addFunction cx asm unit) fun d asm' d' =>
      Keeps d d' ∧ ∀ {r defaults}, Collected r defaults asm d →
        Collected (r ++ functionRequests unit.2) (defaults ++ [unit.1.defaults]) asm' d' := by
  obtain ⟨f, declaration⟩ := unit
  let cx' : Context := { cx with
    function := declaration.name, isMain := false, line := declaration.line.toUInt32 }
  refine ((yields_modify _).bind fun _ => (yields_bindParameters cx' _).bind fun _ =>
    (asks_body cx' hloop declaration.body).bind_of fun body _ _ hbody =>
      (asks_loadConstant .nil).bind_of fun last _ _ _ =>
      yields_add (closed_append_emit hbody.1 cx' _)).mono ?_
  rintro d _ d' ⟨_, _, rfl, _, c, ⟨hpools, -⟩, body, c', ⟨-, hasks⟩, last, _, hlast, rfl, code,
    tries, hcode, htries, rfl⟩
  have hend := hlast.snoc (by decide : Opcode.ret.kindA ≠ .constant) (by decide) 0 0
  have htext := hasks.append (.ofCode cx' hend)
  have henter := ((pools_enter d).trans hpools).keeps
  exact ⟨henter.trans htext.keeps, fun h =>
    h.add (f := place f asm.code.size code.length _) henter htext hcode htries rfl rfl rfl⟩

theorem asks_functions {cx : Context} (hloop : cx.loop = none) (asm : Assembly)
    (units : List (Function × Declaration)) :
    Yields (units.foldlM (addFunction cx) asm) fun d asm' d' =>
      Keeps d d' ∧ ∀ {r defaults}, Collected r defaults asm d →
        Collected
          ((units.map Prod.snd).foldl (fun r declaration => r ++ functionRequests declaration) r)
          (defaults ++ (units.map Prod.fst).map Function.defaults) asm' d' := by
  induction units generalizing asm with
  | nil =>
    rw [List.foldlM_nil]
    refine Yields.pure.mono ?_
    rintro _ _ d ⟨rfl, rfl⟩
    exact ⟨Keeps.refl d, fun h => by simpa using h⟩
  | cons unit units ih =>
    rw [List.foldlM_cons]
    refine ((asks_addFunction hloop asm unit).bind fun asm' => ih asm').mono ?_
    rintro d asm'' d' ⟨asm', c, ⟨hkeeps, hunit⟩, hkeeps', hrest⟩
    refine ⟨hkeeps.trans hkeeps', fun h => ?_⟩
    simpa using hrest (hunit h)

theorem yields_globalIndex_names (name : Text) : Yields (globalIndex name) fun d _ d' =>
    d'.globals.toList =
      if name ∈ d.globals.toList then d.globals.toList else d.globals.toList ++ [name] := by
  refine Yields.get fun draft => ?_
  split
  · next i hfind =>
    refine Yields.pure.mono ?_
    rintro _ _ d ⟨rfl, rfl⟩ rfl
    obtain ⟨hlt, heq, -⟩ := Array.findIdx?_eq_some_iff_getElem.1 hfind
    rw [if_pos (eq_of_beq heq ▸ Array.getElem_mem_toList hlt)]
  · next hfind =>
    refine (yields_operand.bind fun _ => (yields_set _).bind fun _ => Yields.pure).mono ?_
    rintro _ _ _ ⟨_, d, ⟨rfl, -⟩, _, _, rfl, rfl, rfl⟩ rfl
    have hnew : name ∉ d.globals.toList := fun hmem => by
      simpa using Array.findIdx?_eq_none_iff.1 hfind name (Array.mem_toList_iff.1 hmem)
    rw [if_neg hnew, Array.toList_push]

theorem yields_globals_names (names done : List Text) :
    Yields (names.mapM globalIndex) fun d _ d' => d.globals.toList = done.eraseDups →
      d'.globals.toList = (done ++ names).eraseDups := by
  induction names generalizing done with
  | nil =>
    rw [List.mapM_nil]
    refine Yields.pure.mono ?_
    rintro _ _ d ⟨rfl, rfl⟩ hdone
    rwa [List.append_nil]
  | cons name names ih =>
    rw [List.mapM_cons]
    refine ((yields_globalIndex_names name).bind fun _ =>
      (ih (done ++ [name])).bind fun _ => Yields.pure).mono ?_
    rintro d _ d' ⟨_, c, hname, _, _, hnames, rfl, rfl⟩ hdone
    rw [List.append_cons]
    refine hnames ?_
    rw [hname, hdone, List.eraseDups_append]
    by_cases hold : name ∈ done
    · simp [List.removeAll, hold]
    · simp [List.removeAll, List.eraseDups_cons, hold]

theorem HeadersAt.forall₂ {constants constants' : Array Constant} {declarations : List Declaration}
    {functions : Array Function} (h : HeadersAt constants declarations functions)
    (hconstants : ∀ {i : Nat} {c : Constant}, constants[i]? = some c → constants'[i]? = some c) :
    List.Forall₂ (List.Forall₂ (DefaultAt constants')) (declarations.map Declaration.parameters)
      (functions.toList.map Function.defaults) := by
  rw [List.forall₂_map_left_iff, List.forall₂_map_right_iff]
  refine List.forall₂_iff_get.2 ⟨h.size.symm, fun i hi hi' => ?_⟩
  have hheader := h.header (Array.getElem?_eq_getElem (by simpa using hi'))
    (List.getElem?_eq_getElem hi)
  exact forall₂_of_defaultsAt (hheader.defaults.mono hconstants)

theorem asks_program (options : Options) (tree : List Stmt) :
    Yields (program options tree) fun d p _ => d = {} → Pooled options tree p := by
  refine (((yields_globals options.hostGlobals).and (yields_globals_names options.hostGlobals [])).bind
    fun _ => (yields_headers (tree.filterMap Stmt.declaration?)).bind fun functions =>
    (asks_addMain rfl tree).bind fun main => (asks_functions rfl main _).bind fun assembly =>
    Yields.get fun draft => Yields.pure.mono fun d p d' h _ => h.1).mono ?_
  rintro d p d' ⟨_, d₁, ⟨hglobals, hnames⟩, functions, d₂, hheaders, main, d₃, hmain, asm, d₄,
    ⟨hkeeps', hfunctions⟩, rfl⟩ rfl
  have hd₁ := hglobals.bounded bounded_empty
  obtain ⟨hpools, hheaders⟩ := hheaders hd₁
  obtain ⟨hkeeps, hmain⟩ := hmain (hpools.bounded hd₁)
  have hgrow := hkeeps.trans hkeeps'
  have hasm := hfunctions hmain
  have hsize : functions.toList.length = (tree.filterMap Stmt.declaration?).length := by
    rw [Array.length_toList, hheaders.size]
  rw [List.map_fst_zip (Nat.le_of_eq hsize), List.map_snd_zip (Nat.le_of_eq hsize.symm)] at hasm
  refine ⟨hasm.bounded.distinctConstants, hasm.bounded.distinct, ?_, hasm.operands, hasm.tables, ?_⟩
  · rw [← List.nil_append options.hostGlobals, ← hnames rfl, List.prefix_iff_getElem?]
    intro i hi
    rw [Array.getElem?_toList]
    exact hgrow.globals
      (hpools.globals (by rw [← Array.getElem?_toList, List.getElem?_eq_getElem hi]))
  · dsimp only
    rw [hasm.defaults]
    exact .cons .nil (hheaders.forall₂ hgrow.constants)

theorem Pooled.storeDepths {options : Options} {tree : List Stmt} {p : Program}
    (h : Pooled options tree p) (depths : List Nat) :
    Pooled options tree (Verify.storeDepths p depths) := by
  refine ⟨h.constants, h.globals, h.hostGlobals, h.operands, h.tables, ?_⟩
  have hdefaults (fs : List Function) :
      fs.map Function.defaults = (fs.map Function.bare).map Function.defaults := by
    rw [List.map_map]
    rfl
  rw [hdefaults, Verify.map_bare_storeDepths, ← hdefaults]
  exact h.defaults

/-- The pools of a compiled program have no entry twice, and every index in the program is that of
the constant or the name which the text has in its place. -/
theorem compile_pooled (options : Options) (tree : List Stmt) (p : Program)
    (h : compile options tree = .ok p) : Pooled options tree p := by
  obtain ⟨p₀, d, hrun, hverify⟩ := compile_eq_ok.1 h
  obtain ⟨-, depths, -, rfl⟩ := Verify.verify_eq_ok.1 hverify
  exact ((asks_program options tree).ok hrun rfl).storeDepths depths

/-- Both zeros, a NaN that comes twice, and a string that is a literal, the type of an error and the
filter of a clause. -/
def sharedLiterals : List Stmt :=
  let nan : Expr := .number ⟨0x7ff8000000000000⟩
  [.mk 1 (.function [0x66] [⟨[0x78], some (.unary .negate (.number .zero))⟩] []),
   .mk 2 (.guard [.mk 3 (.throw (.newError [0x45] (.list [nan, nan])))] [.mk [0x45] [] []] none),
   .mk 4 (.set [0x67] (.call [0x66] [.number .zero])),
   .mk 5 (.write (.string [0x45]))]

/-- The host names a global twice, and the script assigns another of its globals. -/
theorem compile_pooled_sharedLiterals :
    let options : Options := { hostGlobals := [[0x68], [0x67], [0x68]] }
    ∃ p, compile options sharedLiterals = .ok p ∧ p.globals = #[[0x68], [0x67]] ∧
      p.constants = #[.number ⟨0x8000000000000000⟩, .number ⟨0x7ff8000000000000⟩, .string [0x45],
        .number .zero, .nil] ∧
      Pooled options sharedLiterals p := by
  intro options
  have hcompiled : ∃ p ∈ (compile options sharedLiterals).toOption,
      p.globals = #[[0x68], [0x67]] ∧
      p.constants = #[.number ⟨0x8000000000000000⟩, .number ⟨0x7ff8000000000000⟩, .string [0x45],
        .number .zero, .nil] := by
    decide +kernel
  obtain ⟨p, hp, hglobals, hconstants⟩ := hcompiled
  have hcompile := Machine.eq_ok_of_toOption hp
  exact ⟨p, hcompile, hglobals, hconstants, compile_pooled options sharedLiterals p hcompile⟩

end Compile
end ScriptMachine
