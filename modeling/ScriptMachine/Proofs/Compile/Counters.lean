import ScriptMachine.Proofs.Compile.Slots
import ScriptMachine.Proofs.Meaning.Anywhere

namespace ScriptMachine
namespace Compile

mutual

theorem number_actionCounters (leave n pc : Nat) : (a : Action) →
    (actionCounters leave n pc a).map Counter.number =
      List.range' n (actionCounters leave n pc a).length
  | .branch c yes no => by
    simp only [actionCounters, List.map_append, List.length_append, ← List.range'_append_1]
    rw [number_blockCounters, number_blockCounters]
  | .whileLoop c b => number_blockCounters 0 n _ b
  | .repeatLoop e b => by
    simp only [actionCounters, List.map_cons, List.length_cons, List.range'_succ]
    rw [number_blockCounters]
  | .guard b hs c => by
    simp only [actionCounters, List.map_append, List.length_append, ← List.range'_append_1,
      ← Nat.add_assoc]
    rw [number_blockCounters, number_handlersCounters, number_cleanupCounters]
  | .write _ | .ask _ | .set _ _ | .setIndex _ _ _ | .exit _ | .function _ _ _ | .use _ _ | .ret _
  | .throw _ | .writeFile _ _ => rfl

theorem number_handlersCounters (leave n pc : Nat) : (hs : List Handler) →
    (handlersCounters leave n pc hs).map Counter.number =
      List.range' n (handlersCounters leave n pc hs).length
  | [] => rfl
  | .mk _ _ b :: rest => by
    simp only [handlersCounters, List.map_append, List.length_append, ← List.range'_append_1]
    rw [number_blockCounters, number_handlersCounters]

theorem number_cleanupCounters (n pc : Nat) : (c : Option (List Stmt)) →
    (cleanupCounters n pc c).map Counter.number = List.range' n (cleanupCounters n pc c).length
  | none => rfl
  | some b => number_blockCounters 0 n pc b

theorem number_blockCounters (leave n pc : Nat) : (b : List Stmt) →
    (blockCounters leave n pc b).map Counter.number =
      List.range' n (blockCounters leave n pc b).length
  | [] => rfl
  | .mk _ a :: rest => by
    simp only [blockCounters, List.map_append, List.length_append, ← List.range'_append_1]
    rw [number_actionCounters, number_blockCounters]

end

theorem nodup_counterNames (leave n pc : Nat) (b : List Stmt) :
    ((blockCounters leave n pc b).map Counter.name).Nodup := by
  have hnumbers : ((blockCounters leave n pc b).map Counter.number).Nodup := by
    rw [number_blockCounters]
    exact List.nodup_range'
  have hnames : (((blockCounters leave n pc b).map Counter.number).map counterName).Nodup :=
    List.Pairwise.map counterName (fun _ _ hne h => hne (counterName_injective h)) hnumbers
  rwa [List.map_map] at hnames

theorem kindA_of_touches {counters : List Counter} {q : Nat} {op : Opcode} {name : Text}
    (h : (q, op, name) ∈ counters.flatMap Counter.touches) : op.kindA = .slot := by
  obtain ⟨c, -, hc⟩ := List.mem_flatMap.1 h
  simp only [Counter.touches, List.mem_cons, Prod.mk.injEq, List.not_mem_nil, or_false] at hc
  obtain ⟨-, rfl, -⟩ | ⟨-, rfl, -⟩ | ⟨-, rfl, -⟩ | ⟨-, rfl, -⟩ := hc
  all_goals rfl

theorem Moved.eq_of_slot {entry : Nat} {ins ins' : Instruction} (h : Moved entry ins ins')
    {op : Opcode} (hop : ins'.op? = some op) (hkind : op.kindA = .slot) : ins' = ins := by
  unfold Moved at h
  split at h
  · next htarget =>
    obtain ⟨-, rfl⟩ := h
    have hsame : ins.op? = some op := hop
    rw [hsame, Option.map_some, hkind] at htarget
    cases htarget
  · exact h

theorem Moved.of_slot {entry : Nat} {op : Opcode} {a : BitVec 24} {ins' : Instruction}
    (h : Moved entry (.of op a) ins') (hkind : op.kindA = .slot) : ins' = .of op a := by
  have hplain : ¬ (Instruction.of op a).op?.map Opcode.kindA = some .target := by
    rw [Instruction.op?_of, Option.map_some, hkind]
    decide
  rwa [Moved, if_neg hplain] at h

/-- What the text of a function has instructions on slots for. -/
def Source.mentions (s : Source) (entry : Nat) : Mentions :=
  ⟨blockSites 0 entry s.body, blockStores 0 entry s.body,
    (blockCounters 0 0 entry s.body).flatMap Counter.touches⟩

def Source.size (s : Source) : Nat := blockSize 0 s.body + if s.isMain then 1 else 2

/-- The instructions on slots in the code of a function, with the names of its slots. -/
structure Slotted (code : Array Instruction) (s : Source) (f : Function) (slots : List Text) :
    Prop where
  count : slots.length = f.localCount
  count_le : f.localCount ≤ maxLocals
  nodup : slots.Nodup
  parameters : s.parameters <+: slots
  stop : f.stop = f.entry + s.size
  stop_le : f.stop ≤ code.size
  owned {pc : Nat} {ins : Instruction} {op : Opcode} : f.entry ≤ pc → pc < f.stop →
    code[pc]? = some ins → ins.op? = some op → op.kindA = .slot →
    ∃ n name, ins.a = BitVec.ofNat 24 n ∧ slots[n]? = some name ∧
    (s.mentions f.entry).Allows pc op name
  touched {q : Nat} {op : Opcode} {name : Text} : (q, op, name) ∈ (s.mentions f.entry).touches →
    ∃ n, slots[n]? = some name ∧ code[q]? = some (.of op (BitVec.ofNat 24 n))

section

variable {s : Source} {asm : Assembly} {d d' : Draft} {g : Fragment} {code : List Instruction}

theorem Slotted.append {l : Array Instruction} {f : Function} {slots : List Text}
    (h : Slotted l s f slots) (more : List Instruction) : Slotted (l ++ more) s f slots := by
  refine { h with stop_le := ?_, owned := ?_, touched := ?_ }
  · rw [size_append_list]
    exact Nat.le_add_right_of_le h.stop_le
  · intro pc ins op hentry hstop hins
    refine h.owned hentry hstop ?_
    have hlt : pc < l.size := Nat.lt_of_lt_of_le hstop h.stop_le
    rw [Array.getElem?_eq_getElem hlt]
    rwa [getElem?_append_of_some (Array.getElem?_eq_getElem hlt)] at hins
  · intro q op name htouch
    obtain ⟨n, hn, hat⟩ := h.touched htouch
    exact ⟨n, hn, getElem?_append_of_some hat⟩

theorem slotted_of_uses {N : Names} (hbounded : d.Bounded) (hlocals : d.locals = s.parameters)
    (hnodup : s.parameters.Nodup) (hgrows : Grows N d d')
    (hg : Uses d asm.code.size g.slots d' s.size (blockCounters 0 0 asm.code.size s.body).length
      (s.mentions asm.code.size))
    (hcode : Made (fun q ins => q.slot.Becomes asm.code.size none ins) g.code code) :
    Slotted (asm.code ++ code) s (place s.header asm.code.size code.length d'.locals.length)
      d'.locals := by
  have hsize : code.length = s.size := by
    rw [hcode.1, ← hg.size, Fragment.slots, List.length_map]
  refine ⟨rfl, (hgrows.bounded hbounded).locals, hgrows.nodup (hlocals ▸ hnodup), ?_, ?_, ?_, ?_,
    ?_⟩
  · rw [← hlocals, List.prefix_iff_getElem?]
    exact fun i hi => hgrows.locals (List.getElem?_eq_getElem hi)
  · simp only [place, hsize]
  · simp only [place, size_append_list, Nat.le_refl]
  · intro pc ins op hentry hstop hins hop hkind
    obtain ⟨i, rfl⟩ := Nat.exists_eq_add_of_le hentry
    have hi : i < g.code.length := by
      rw [← hcode.1]
      exact Nat.lt_of_add_lt_add_left hstop
    obtain ⟨ins', hins', hbecomes⟩ := hcode.getElem? (List.getElem?_eq_getElem hi)
    simp only [place, getElem?_append_size] at hins
    rw [hins, Option.some.injEq] at hins'
    subst hins'
    have hslot : g.slots[i]? = some (g.code[i]).slot := by
      rw [Fragment.slots, List.getElem?_map, List.getElem?_eq_getElem hi, Option.map_some]
    obtain ⟨_, ⟨⟩, howns⟩ := hg.owned i _ hslot
    cases hfixed : (g.code[i]).slot with
    | fixed ins₀ =>
      rw [hfixed] at hbecomes
      obtain rfl := Moved.eq_of_slot hbecomes hop hkind
      exact howns _ op hfixed hop hkind
    | unclosed way =>
      rw [hfixed] at hbecomes
      obtain ⟨_, ⟨⟩, -⟩ := hbecomes
  · intro q op name htouch
    obtain ⟨i, n, rfl, hn, hi⟩ := hg.touched htouch
    refine ⟨n, hn, ?_⟩
    rw [getElem?_append_size]
    rw [Fragment.slots, List.getElem?_map, Option.map_eq_some_iff] at hi
    obtain ⟨q, hq, hslot⟩ := hi
    obtain ⟨ins, hins, hbecomes⟩ := hcode.getElem? hq
    rw [hslot] at hbecomes
    rw [hins, Moved.of_slot hbecomes (kindA_of_touches htouch)]

/-- The functions that have been added, with the instructions on their slots. -/
structure Slotting (sources : List Source) (asm : Assembly) (d : Draft) : Prop where
  bounded : d.Bounded
  size : asm.functions.size = sources.length
  slotted {i : Nat} {f : Function} {s : Source} : asm.functions[i]? = some f →
    sources[i]? = some s → ∃ slots, Slotted asm.code s f slots

theorem Slotting.add {sources : List Source} {d₀ : Draft} (h : Slotting sources asm d₀)
    (hpools : Pools d₀ d) {N : Names} (hlocals : d.locals = s.parameters)
    (hnodup : s.parameters.Nodup) (hgrows : Grows N d d')
    (hg : Uses d asm.code.size g.slots d' s.size (blockCounters 0 0 asm.code.size s.body).length
      (s.mentions asm.code.size))
    (hcode : Made (fun q ins => q.slot.Becomes asm.code.size none ins) g.code code)
    {asm' : Assembly} (hfunctions : asm'.functions =
      asm.functions.push (place s.header asm.code.size code.length d'.locals.length))
    (hcode' : asm'.code = asm.code ++ code) : Slotting (sources ++ [s]) asm' d' := by
  have hbounded := hpools.bounded h.bounded
  refine ⟨hgrows.bounded hbounded, by simp [hfunctions, h.size], fun {i f s'} hf hs' => ?_⟩
  rw [hfunctions, Array.getElem?_push, h.size] at hf
  rw [hcode']
  split at hf
  · next hi =>
    subst hi
    rw [List.getElem?_concat_length, Option.some.injEq] at hs'
    obtain rfl := hs'
    obtain rfl := Option.some.inj hf
    exact ⟨_, slotted_of_uses hbounded hlocals hnodup hgrows hg hcode⟩
  · next hi =>
    have hlt := (Array.getElem?_eq_some_iff.1 hf).1
    rw [List.getElem?_append_left (by rw [← h.size]; exact hlt)] at hs'
    obtain ⟨slots, hslotted⟩ := h.slotted hf hs'
    exact ⟨slots, hslotted.append code⟩

end

theorem uses_body (cx : Context) (hloop : cx.loop = none) (b : List Stmt) :
    Yields (block cx 0 b) fun d body d' =>
      Emits cx.names none 0 d body d' (fun L => BlockAt L b) ∧ ∀ pc, d.counters = 0 →
        UsesText d pc body d' (blockSize 0 b) (blockCounters 0 0 pc b) (blockSites 0 pc b)
          (blockStores 0 pc b) := by
  have hleave : cx.LeavesBy 0 := by
    intro n hn
    rw [Context.leave?_of_loop hloop] at hn
    cases hn
  have huses := uses_block cx (Context.nests_of_loop hloop) hleave b 0
  exact ((yields_body cx hloop b).and huses).mono fun d body d' h => ⟨h.1, fun pc hd => h.2 pc 0 hd⟩

theorem uses_addMain {cx : Context} (hloop : cx.loop = none) (tree : List Stmt) :
    Yields (addMain cx tree {}) fun d asm d' => d.Bounded → Slotting [mainSource tree] asm d' := by
  refine ((yields_modify _).bind fun _ => (uses_body cx hloop tree).bind_of fun body _ _ hbody =>
    yields_add (closed_append_emit (hbody.1.closed rfl) cx _)).mono ?_
  rintro d _ d' ⟨_, _, rfl, body, _, ⟨hbody, huses⟩, rfl, code, tries, hcode, -, rfl⟩ hd
  have hstart : Slotting [] {} d := ⟨hd, rfl, by simp⟩
  have htext := (huses 0 rfl).snoc_other cx (by decide : Opcode.halt.kindA ≠ .slot) 0 0
  exact hstart.add (s := mainSource tree) (pools_enter d) rfl List.nodup_nil hbody.grows htext hcode
    rfl rfl

theorem uses_addFunction {cx : Context} (hloop : cx.loop = none) (asm : Assembly)
    (unit : Function × Declaration) : Yields (addFunction cx asm unit) fun d asm' d' =>
      ∀ {sources}, Slotting sources asm d →
        Slotting (sources ++ [functionSource unit]) asm' d' := by
  obtain ⟨f, declaration⟩ := unit
  let cx' : Context := { cx with
    function := declaration.name, isMain := false, line := declaration.line.toUInt32 }
  have hblock := uses_body cx' hloop declaration.body
  have hlast := (yields_loadConstant cx'.names .nil).and (uses_loadConstant .nil)
  refine ((yields_modify _).bind fun _ => (yields_bindParameters cx' _).bind fun _ =>
    hblock.bind_of fun body _ _ hbody => hlast.bind_of fun last _ _ _ =>
      yields_add (closed_append_emit (hbody.1.closed rfl) cx' _)).mono ?_
  rintro d _ d' ⟨_, _, rfl, _, c, ⟨hpools, hcounters, hlocals, hnodup⟩, body, c', ⟨hbody, huses⟩,
    last, _, ⟨hload, hlast⟩, rfl, code, tries, hcode, -, rfl⟩ sources hasm
  have hend := (hlast (asm.code.size + blockSize 0 declaration.body)).codes.append
    (.other _ (Still.refl d') (by decide : Opcode.ret.kindA ≠ .slot) 0 0)
  have htext := (huses asm.code.size hcounters).snoc_plain cx' hend
  refine hasm.add (s := functionSource (f, declaration)) ((pools_enter d).trans hpools) ?_ ?_
    (hbody.grows.trans (hload 0).quiet.toGrows) htext hcode rfl rfl
  · simpa [functionSource] using hlocals
  · simpa [functionSource, hlocals] using hnodup List.nodup_nil

theorem uses_functions {cx : Context} (hloop : cx.loop = none) (asm : Assembly)
    (units : List (Function × Declaration)) :
    Yields (units.foldlM (addFunction cx) asm) fun d asm' d' =>
      ∀ {sources}, Slotting sources asm d →
      Slotting (sources ++ units.map functionSource) asm' d' := by
  refine Yields.of_start fun c => ?_
  refine (Yields.foldlM (I := fun done asm' d => ∀ {sources}, Slotting sources asm c →
    Slotting (sources ++ done.map functionSource) asm' d) ?_ units [] asm).mono ?_
  · intro done asm' unit
    refine (uses_addFunction hloop asm' unit).mono ?_
    intro d asm'' d' h hdone sources hstart
    simpa using h (hdone hstart)
  · rintro d asm' d' h rfl sources hstart
    refine h (fun {sources} hstart => ?_) hstart
    simpa using hstart

theorem uses_program (options : Options) (tree : List Stmt) :
    Yields (program options tree) fun d p _ => d = {} →
      ∃ functions : Array Function, functions.size = (tree.filterMap Stmt.declaration?).length ∧
        p.functions.size = (sources tree functions).length ∧
        ∀ {i : Nat} {f : Function} {s : Source}, p.functions[i]? = some f →
          (sources tree functions)[i]? = some s →
          ∃ slots, Slotted p.code s f slots := by
  refine ((yields_globals options.hostGlobals).bind fun _ =>
    (yields_headers (tree.filterMap Stmt.declaration?)).bind fun functions =>
    (uses_addMain rfl tree).bind fun main =>
    (uses_functions rfl main _).bind fun assembly => Yields.get fun draft =>
    Yields.pure.mono fun d p d' h _ => h.1).mono ?_
  rintro d p d' ⟨_, d₁, hglobals, functions, d₂, hheaders, main, d₃, hmain, asm, d₄, hfunctions,
    rfl⟩ rfl
  have hd₁ := hglobals.bounded bounded_empty
  obtain ⟨hpools, hheaders⟩ := hheaders hd₁
  have hasm := hfunctions (hmain (hpools.bounded hd₁))
  exact ⟨functions, hheaders.size, hasm.size, hasm.slotted⟩

/-- The slot of a loop counter, in a function of a program with its text. -/
structure Counter.Occupies (c : Counter) (p : Program) (scope : Meaning.Scope) (body : List Stmt)
    (f : Function) (slot : Nat) : Prop where
  count : slot < f.localCount
  /-- The instructions of the loop work on the slot. -/
  own {pc : Nat} {op : Opcode} : (pc, op, c.name) ∈ c.touches →
    p.code[pc]? = some (.of op (BitVec.ofNat 24 slot))
  /-- Another instruction of the function does only for a variable that is spelled like the
  counter. -/
  only {pc : Nat} {ins : Instruction} {op : Opcode} : f.entry ≤ pc → pc < f.stop →
    p.code[pc]? = some ins → ins.op? = some op → op.kindA = .slot → ins.a.toNat = slot →
    (pc, op, c.name) ∈ c.touches ∨
      (op = .loadLocal ∧ (pc, .identifier c.name) ∈ blockSites 0 f.entry body) ∨
      (op = .storeLocal ∧ (pc, c.name) ∈ blockStores 0 f.entry body)
  /-- A parameter has the slot only if it is spelled like the counter. -/
  parameter {name : Text} : scope.parameters[slot]? = some name → name = c.name

theorem Counter.name_of_touches {c : Counter} {q : Nat} {op : Opcode} {name : Text}
    (h : (q, op, name) ∈ c.touches) : name = c.name := by
  simp only [Counter.touches, List.mem_cons, Prod.mk.injEq, List.not_mem_nil, or_false] at h
  obtain ⟨-, -, h⟩ | ⟨-, -, h⟩ | ⟨-, -, h⟩ | ⟨-, -, h⟩ := h
  all_goals exact h

theorem eq_of_name {leave n pc : Nat} {b : List Stmt} {c c' : Counter}
    (hc : c ∈ blockCounters leave n pc b) (hc' : c' ∈ blockCounters leave n pc b)
    (h : c.name = c'.name) : c = c' := by
  obtain ⟨i, hi⟩ := List.mem_iff_getElem?.1 hc
  obtain ⟨j, hj⟩ := List.mem_iff_getElem?.1 hc'
  have hlt := (List.getElem?_eq_some_iff.1 hi).1
  have hij : i = j := by
    refine (List.getElem?_inj (by rwa [List.length_map]) (nodup_counterNames leave n pc b)).1 ?_
    rw [List.getElem?_map, List.getElem?_map, hi, hj, Option.map_some, Option.map_some, h]
  rw [← hij, hi] at hj
  exact Option.some.inj hj

section

variable {s : Source} {f : Function} {slots : List Text} {code : Array Instruction} {c c' : Counter}

theorem Slotted.slot_eq (h : Slotted code s f slots) {n m : Nat} {name : Text}
    (hn : slots[n]? = some name) (hm : slots[m]? = some name) : n = m :=
  (List.getElem?_inj (List.getElem?_eq_some_iff.1 hn).1 h.nodup).1 (hn.trans hm.symm)

theorem Slotted.exists_slot (h : Slotted code s f slots)
    (hc : c ∈ blockCounters 0 0 f.entry s.body) : ∃ n : Nat, slots[n]? = some c.name := by
  have hstart : (c.start, .storeLocal, c.name) ∈ (s.mentions f.entry).touches :=
    List.mem_flatMap.2 ⟨c, hc, List.mem_cons_self⟩
  obtain ⟨n, hn, -⟩ := h.touched hstart
  exact ⟨n, hn⟩

theorem Slotted.getElem?_idxOf (h : Slotted code s f slots)
    (hc : c ∈ blockCounters 0 0 f.entry s.body) : slots[slots.idxOf c.name]? = some c.name := by
  obtain ⟨n, hn⟩ := h.exists_slot hc
  have hlt := List.idxOf_lt_length_iff.2 (List.mem_of_getElem? hn)
  rw [List.getElem?_eq_getElem hlt, List.getElem_idxOf]

theorem Slotted.occupies {p : Program} {scope : Meaning.Scope} (h : Slotted p.code s f slots)
    (hparameters : scope.parameters = s.parameters) (hc : c ∈ blockCounters 0 0 f.entry s.body)
    {slot : Nat} (hslot : slots[slot]? = some c.name) : c.Occupies p scope s.body f slot := by
  have hlt := (List.getElem?_eq_some_iff.1 hslot).1
  refine ⟨h.count ▸ hlt, ?_, ?_, ?_⟩
  · intro pc op htouch
    obtain ⟨n, hn, hat⟩ := h.touched (List.mem_flatMap.2 ⟨c, hc, htouch⟩)
    rw [h.slot_eq hslot hn, hat]
  · intro pc ins op hentry hstop hins hop hkind ha
    obtain ⟨n, name, hn, hname, hallows⟩ := h.owned hentry hstop hins hop hkind
    have hsame : n = slot := by
      have hle := h.count_le
      have hn' := (List.getElem?_eq_some_iff.1 hname).1
      rw [hn, toNat_ofNat (by rw [h.count] at hn'; simp only [maxLocals, maxOperand] at *; omega)] at ha
      exact ha
    subst hsame
    obtain rfl := Option.some.inj (hslot.symm.trans hname)
    rcases hallows with hsite | hstore | htouch
    · exact .inr (.inl hsite)
    · exact .inr (.inr hstore)
    · obtain ⟨c', hc', htouch⟩ := List.mem_flatMap.1 htouch
      obtain rfl := eq_of_name hc hc' (Counter.name_of_touches htouch)
      exact .inl htouch
  · intro name hname
    have hlt' := (List.getElem?_eq_some_iff.1 hname).1
    rw [hparameters] at hname hlt'
    have hprefix := List.prefix_iff_getElem?.1 h.parameters slot hlt'
    rw [hslot, ← List.getElem?_eq_getElem hlt', hname] at hprefix
    exact (Option.some.inj hprefix).symm

end

theorem exists_slotted {options : Options} {tree : List Stmt} {p : Program} {index : Nat}
    {scope : Meaning.Scope} {body : List Stmt} (hcompile : compile options tree = .ok p)
    (htext : Meaning.textAt? options tree index = some (scope, body)) :
    ∃ s f slots, p.functions[index]? = some f ∧ Slotted p.code s f slots ∧ s.body = body ∧
      s.isMain = scope.isMain ∧ scope.parameters = s.parameters := by
  obtain ⟨p₀, d, hrun, hverify⟩ := compile_eq_ok.1 hcompile
  obtain ⟨functions, hcount, hsize, hslotted⟩ := (uses_program options tree).ok hrun rfl
  obtain ⟨s, hs, hbody, rfl, -⟩ := Meaning.source_of_text hcount htext
  have hlt : index < p₀.functions.size := by
    rw [hsize]
    exact (List.getElem?_eq_some_iff.1 hs).1
  obtain ⟨slots, hslots⟩ := hslotted (Array.getElem?_eq_getElem hlt) hs
  obtain ⟨-, depths, -, rfl⟩ := Verify.verify_eq_ok.1 hverify
  obtain ⟨depth, hdepth⟩ := Meaning.getElem?_storeDepths depths (Array.getElem?_eq_getElem hlt)
  exact ⟨s, _, slots, hdepth, { hslots with }, hbody, rfl, rfl⟩

/-- Every loop counter of a program has a slot of its own, apart from those of the other loops of
its function. The instructions of the loop work on it, and other instructions or parameters only if
they are for a variable with the name of the counter. -/
theorem counters_private (options : Options) (tree : List Stmt) (p : Program)
    (hcompile : compile options tree = .ok p) (index : Nat) (scope : Meaning.Scope)
    (body : List Stmt) (htext : Meaning.textAt? options tree index = some (scope, body)) :
    ∃ f, p.functions[index]? = some f ∧
      f.stop = f.entry + blockSize 0 body + (if scope.isMain then 1 else 2) ∧
      ∃ slot : Counter → Nat,
        (∀ c ∈ blockCounters 0 0 f.entry body, c.Occupies p scope body f (slot c)) ∧
        (blockCounters 0 0 f.entry body).Pairwise fun c c' => slot c ≠ slot c' := by
  obtain ⟨s, f, slots, hf, hslotted, rfl, hmain, hparameters⟩ := exists_slotted hcompile htext
  refine ⟨f, hf, ?_, fun c => slots.idxOf c.name, fun c hc => ?_, ?_⟩
  · rw [hslotted.stop, Source.size, hmain, Nat.add_assoc]
  · exact hslotted.occupies hparameters hc (hslotted.getElem?_idxOf hc)
  · have hnames := List.pairwise_map.1 (nodup_counterNames 0 0 f.entry s.body)
    refine hnames.imp_of_mem fun {c c'} hc hc' hne hslot => hne ?_
    have hname : slots[slots.idxOf c.name]? = slots[slots.idxOf c'.name]? :=
      congrArg (slots[·]?) hslot
    rw [hslotted.getElem?_idxOf hc, hslotted.getElem?_idxOf hc'] at hname
    exact Option.some.inj hname

def nestedBody : List Stmt :=
  [.mk 2 (.repeatLoop (.identifier [0x78])
    [.mk 3 (.repeatLoop (.number .one) [.mk 4 (.set [0x79] (.identifier [0x78]))])])]

def nestedLoops : List Stmt :=
  [.mk 1 (.function [0x66] [⟨[0x78], none⟩] nestedBody),
    .mk 5 (.write (.call [0x66] [.number .one]))]

theorem counters_private_nestedLoops :
    ∃ (p : Program) (f : Function) (slot : Counter → Nat),
      compile {} nestedLoops = .ok p ∧ p.functions[1]? = some f ∧ f.localCount = 4 ∧
      (blockCounters 0 0 f.entry nestedBody).map Counter.number = [0, 1] ∧
      (∀ c ∈ blockCounters 0 0 f.entry nestedBody,
        c.Occupies p ⟨false, [[0x78]], []⟩ nestedBody f (slot c)) ∧
      (blockCounters 0 0 f.entry nestedBody).Pairwise fun c c' => slot c ≠ slot c' := by
  have hcode : ∃ p ∈ (compile {} nestedLoops).toOption,
      p.functions[1]?.map Function.localCount = some 4 := by
    decide +kernel
  obtain ⟨p, hp, hcount⟩ := hcode
  have hcompile := Machine.eq_ok_of_toOption hp
  obtain ⟨f, hf, -, slot, hslots⟩ :=
    counters_private {} nestedLoops p hcompile 1 ⟨false, [[0x78]], []⟩ nestedBody rfl
  rw [hf, Option.map_some, Option.some.injEq] at hcount
  exact ⟨p, f, slot, hcompile, hf, hcount, rfl, hslots⟩

/-- A function with a loop that returns its parameter, which is spelled like the counter. -/
def reservedBody : List Stmt :=
  [.mk 2 (.repeatLoop (.number .one) []), .mk 3 (.ret (some (.identifier (counterName 0))))]

def reservedName : List Stmt :=
  [.mk 1 (.function [0x66] [⟨counterName 0, none⟩] reservedBody),
   .mk 4 (.write (.call [0x66] [.number .one]))]

/-- The counter has the slot of the parameter, which is what the function returns. -/
theorem counter_shared_reservedName :
    ∃ p f c, compile {} reservedName = .ok p ∧ p.functions[1]? = some f ∧
      blockCounters 0 0 f.entry reservedBody = [c] ∧
      p.code[c.start]? = some (.of .storeLocal 0) ∧ p.code[c.test]? = some (.of .loadLocal 0) ∧
      ∃ pc, f.entry ≤ pc ∧ pc < f.stop ∧ p.code[pc]? = some (.of .loadLocal 0) ∧
        (pc, .identifier (counterName 0)) ∈ blockSites 0 f.entry reservedBody ∧
        ∀ op, (pc, op, c.name) ∉ c.touches := by
  have hcode : ∃ p ∈ (compile {} reservedName).toOption,
      p.functions[1]?.map (fun f => (f.entry, f.stop)) = some (4, 19) ∧
      p.code[5]? = some (.of .storeLocal 0) ∧ p.code[6]? = some (.of .loadLocal 0) ∧
      p.code[15]? = some (.of .loadLocal 0) := by
    decide +kernel
  obtain ⟨p, hp, hplace, hstart, htest, hread⟩ := hcode
  obtain ⟨f, hf, hplace⟩ := Option.map_eq_some_iff.1 hplace
  obtain ⟨hentry, hstop⟩ := Prod.mk.inj hplace
  refine ⟨p, f, ⟨0, 5, 6, 10, 13⟩, Machine.eq_ok_of_toOption hp, hf, by rw [hentry]; rfl, hstart,
    htest, 15, by omega, by omega, hread, ?_, by simp [Counter.touches]⟩
  rw [hentry]
  exact List.mem_cons_of_mem _ List.mem_cons_self

end Compile
end ScriptMachine
