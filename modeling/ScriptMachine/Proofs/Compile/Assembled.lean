import ScriptMachine.Proofs.Compile.Generated

namespace ScriptMachine
namespace Compile

/-- A list that was made member by member. -/
def Made (R : α → β → Prop) (xs : List α) (ys : List β) : Prop :=
  ys.length = xs.length ∧ Stands (ys[·]?) R 0 xs

theorem made_nil {R : α → β → Prop} : Made R [] [] := ⟨rfl, by simp [Stands]⟩

theorem Made.cons {R : α → β → Prop} {x : α} {y : β} {xs : List α} {ys : List β} (h : R x y)
    (hs : Made R xs ys) : Made R (x :: xs) (y :: ys) := by
  refine ⟨by rw [List.length_cons, List.length_cons, hs.1], fun i a ha => ?_⟩
  cases i with
  | zero =>
    cases ha
    exact ⟨y, rfl, h⟩
  | succ i =>
    obtain ⟨b, hb, hR⟩ := hs.2 i a ha
    exact ⟨b, by rw [Nat.zero_add] at hb ⊢; exact hb, hR⟩

theorem yields_relocate {function : Text} {entry index : Nat} {slot : Slot} {ins : Instruction}
    (hslot : slot = .fixed ins) :
    Yields (relocate function entry index slot) fun d ins' d' =>
      d' = d ∧ slot.Becomes entry none ins' := by
  subst hslot
  simp only [relocate, Slot.Becomes, Moved]
  cases hop : ins.op? with
  | none =>
    refine Yields.pure.mono ?_
    rintro _ _ d ⟨rfl, rfl⟩
    exact ⟨rfl, rfl⟩
  | some op =>
    simp only [Option.map_some, Option.some.injEq]
    split
    · refine (yields_operand.bind fun _ => Yields.pure).mono ?_
      rintro d _ _ ⟨_, _, ⟨rfl, rfl, hle⟩, rfl, rfl⟩
      exact ⟨rfl, hle, rfl⟩
    · refine Yields.pure.mono ?_
      rintro _ _ d ⟨rfl, rfl⟩
      exact ⟨rfl, rfl⟩

theorem yields_relocateAll {function : Text} {entry index : Nat} {code : List Placed}
    (hclosed : ∀ q ∈ code, ∃ ins, q.slot = .fixed ins) :
    Yields (relocateAll function entry index code) fun d code' d' =>
      d' = d ∧ Made (fun q ins => q.slot.Becomes entry none ins) code code' := by
  induction code generalizing index with
  | nil =>
    refine Yields.pure.mono ?_
    rintro _ _ d ⟨rfl, rfl⟩
    exact ⟨rfl, made_nil⟩
  | cons q code ih =>
    obtain ⟨ins, hins⟩ := hclosed q List.mem_cons_self
    refine ((yields_relocate hins).bind fun _ =>
      (ih fun q hq => hclosed q (List.mem_cons_of_mem _ hq)).bind fun _ => Yields.pure).mono ?_
    rintro d _ _ ⟨ins', _, ⟨rfl, hq⟩, code', _, ⟨rfl, hcode⟩, rfl, rfl⟩
    exact ⟨rfl, hcode.cons hq⟩

theorem yields_relocateWord {entry : Nat} {w : Int32} :
    Yields (relocateWord entry w) fun d w' d' => d' = d ∧ MovedWord entry w w' := by
  refine (yields_operand.bind fun _ => Yields.pure).mono ?_
  rintro d _ _ ⟨_, _, ⟨rfl, rfl, hle⟩, rfl, rfl⟩
  exact ⟨rfl, hle, by rw [toNat_ofNat hle]⟩

theorem yields_relocateClauses {entry : Nat} {clauses : List CatchClause} :
    Yields (clauses.mapM fun c => do return { c with handler := ← relocateWord entry c.handler })
      fun d cs d' => d' = d ∧ MovedClauses entry clauses cs := by
  induction clauses with
  | nil =>
    rw [List.mapM_nil]
    refine Yields.pure.mono ?_
    rintro _ _ d ⟨rfl, rfl⟩
    exact ⟨rfl, rfl⟩
  | cons c clauses ih =>
    rw [List.mapM_cons]
    refine ((yields_relocateWord.bind fun _ => Yields.pure).bind fun _ =>
      ih.bind fun _ => Yields.pure).mono ?_
    rintro d _ _ ⟨_, _, ⟨w, _, ⟨rfl, hw⟩, rfl, rfl⟩, later, _, ⟨rfl, hlater⟩, rfl, rfl⟩
    exact ⟨rfl, w, later, rfl, hw, hlater⟩

theorem yields_relocateTable {entry : Nat} {t : TryTable} :
    Yields (relocateTable entry t) fun d t' d' => d' = d ∧ MovedTable entry t t' := by
  unfold relocateTable
  by_cases hnone : t.cleanup = noIndex
  · have hcleanup : t.cleanup? = none := by simp [TryTable.cleanup?, hnone]
    rw [hcleanup]
    refine (yields_relocateClauses.bind fun _ => Yields.pure).mono ?_
    rintro d _ _ ⟨cs, _, ⟨rfl, hcs⟩, rfl, rfl⟩
    exact ⟨rfl, hcs, by rw [if_pos hnone]; exact hnone⟩
  · have hcleanup : t.cleanup? = some t.cleanup := by simp [TryTable.cleanup?, hnone]
    rw [hcleanup]
    refine (yields_relocateClauses.bind fun _ =>
      yields_relocateWord.bind fun _ => Yields.pure).mono ?_
    rintro d _ _ ⟨cs, _, ⟨rfl, hcs⟩, w, _, ⟨rfl, hw⟩, rfl, rfl⟩
    exact ⟨rfl, hcs, by rw [if_neg hnone]; exact hw⟩

theorem yields_relocateTables {entry : Nat} {tables : List TryTable} :
    Yields (tables.mapM (relocateTable entry)) fun d ts d' =>
      d' = d ∧ Made (MovedTable entry) tables ts := by
  induction tables with
  | nil =>
    rw [List.mapM_nil]
    refine Yields.pure.mono ?_
    rintro _ _ d ⟨rfl, rfl⟩
    exact ⟨rfl, made_nil⟩
  | cons t tables ih =>
    rw [List.mapM_cons]
    refine (yields_relocateTable.bind fun _ => ih.bind fun _ => Yields.pure).mono ?_
    rintro d _ _ ⟨t', _, ⟨rfl, ht⟩, ts, _, ⟨rfl, hts⟩, rfl, rfl⟩
    exact ⟨rfl, hts.cons ht⟩

def place (f : Function) (entry size localCount : Nat) : Function :=
  { f with entry, stop := entry + size, localCount }

theorem yields_add {asm : Assembly} {f : Function} {g : Fragment}
    (hclosed : ∀ q ∈ g.code, ∃ ins, q.slot = .fixed ins) :
    Yields (asm.add f g) fun d asm' d' => d' = d ∧ ∃ code tries,
      Made (fun q ins => q.slot.Becomes asm.code.size none ins) g.code code ∧
      Made (MovedTable asm.code.size) g.tables tries ∧
      asm' = ⟨asm.functions.push (place f asm.code.size code.length d.locals.length),
        asm.code ++ code, asm.lines ++ g.code.map Placed.line, asm.tries ++ tries,
        asm.locals.push d.locals.toArray⟩ := by
  refine ((yields_relocateAll hclosed).bind fun code => yields_relocateTables.bind fun tries =>
    Yields.get fun draft => Yields.pure.mono fun d asm' d' h hd =>
      (show d' = draft ∧ asm' = _ from ⟨h.2.trans hd, h.1⟩)).mono ?_
  rintro d _ _ ⟨code, _, ⟨rfl, hcode⟩, tries, _, ⟨rfl, htries⟩, rfl, rfl⟩
  exact ⟨rfl, code, tries, hcode, htries, rfl⟩

/-- A function of the text: its header, its parameters and its body. -/
structure Source where
  header : Function
  isMain : Bool
  parameters : List Text
  body : List Stmt

/-- The main program ends with a halt and a function by returning nil. -/
def Layout.Ends (L : Layout) (pc stop : Nat) : Prop :=
  if L.names.isMain then L.At pc .halt ∧ stop = pc + 1
  else L.Loads pc .nil ∧ L.At (pc + 1) .ret ∧ stop = pc + 2

/-- A function of the program against its text, with the try tables from `lo` up to `hi`. -/
structure FunctionAt (L : Layout) (s : Source) (f : Function) (lo hi : Nat) : Prop where
  isMain : L.names.isMain = s.isMain
  parameters : L.parameters = s.parameters
  entry : L.entry = f.entry
  head : ∃ size, f = place s.header f.entry size f.localCount
  locals : L.locals.length = f.localCount
  locals_le : f.localCount ≤ maxLocals
  slots : s.parameters <+: L.locals
  nodup : L.locals.Nodup
  origin {name : Text} : name ∈ L.locals → name ∈ s.parameters ∨ (∃ n, name = counterName n) ∨
    (s.isMain = false ∧ name ∉ L.names.known)
  code : ∃ m : Mark, BlockAt L s.body none ⟨L.entry, lo, 0⟩ m ∧ m.table = hi ∧ L.Ends m.pc f.stop

/-- A program goes on from what has been assembled. -/
structure Assembly.In (asm : Assembly) (d : Draft) (p : Program) : Prop where
  code {i : Nat} {ins : Instruction} : asm.code[i]? = some ins → p.code[i]? = some ins
  tries {i : Nat} {t : TryTable} : asm.tries[i]? = some t → p.tries[i]? = some t
  constants {i : Nat} {c : Constant} : d.constants[i]? = some c → p.constants[i]? = some c
  globals {i : Nat} {name : Text} : d.globals[i]? = some name → p.globals[i]? = some name
  constants_size : p.constants.size ≤ maxOperand + 1
  globals_size : p.globals.size ≤ maxOperand + 1

/-- The headers that calls refer to fit the operands of a call. -/
structure Callable (functions : Array Function) : Prop where
  size : functions.size ≤ maxOperand
  arity {f : Function} : f ∈ functions → f.arity ≤ maxArguments

def BodyAt (L : Layout) (s : Source) (x : Option Exits) (m m' : Mark) : Prop :=
  ∃ y : Mark, BlockAt L s.body x m y ∧ y.table = m'.table ∧ L.Ends y.pc m'.pc

theorem Made.getElem? {R : α → β → Prop} {xs : List α} {ys : List β} (h : Made R xs ys) {i : Nat}
    {x : α} (hx : xs[i]? = some x) : ∃ y, ys[i]? = some y ∧ R x y := by
  obtain ⟨y, hy, hR⟩ := h.2 i x hx
  exact ⟨y, by rwa [Nat.zero_add] at hy, hR⟩

theorem getElem?_append_size (l : Array α) (ys : List α) (i : Nat) :
    (l ++ ys)[l.size + i]? = ys[i]? := by
  rw [← Array.getElem?_toList, Array.toList_appendList, List.getElem?_append_right (by simp)]
  simp

theorem Made.stands {R : α → β → Prop} {xs : List α} {ys : List β} {l : Array β}
    {p : Nat → Option β} (h : Made R xs ys) (hl : ∀ {i y}, (l ++ ys)[i]? = some y → p i = some y) :
    Stands p R l.size xs := by
  intro i x hx
  obtain ⟨y, hy, hR⟩ := h.getElem? hx
  exact ⟨y, hl (by rw [getElem?_append_size, hy]), hR⟩

theorem getElem?_append_of_some {l : Array α} {ys : List α} {i : Nat} {a : α} (h : l[i]? = some a) :
    (l ++ ys)[i]? = some a := by
  obtain ⟨hlt, -⟩ := Array.getElem?_eq_some_iff.1 h
  rw [← Array.getElem?_toList, Array.toList_appendList,
    List.getElem?_append_left (by simpa using hlt), Array.getElem?_toList, h]

theorem getElem?_push_append {xs : Array α} {ys : List β} {x a : α} {y b : β} {i : Nat}
    (hsize : xs.size = ys.length) (ha : (xs.push x)[i]? = some a) (hb : (ys ++ [y])[i]? = some b) :
    i < ys.length ∧ xs[i]? = some a ∧ ys[i]? = some b ∨ i = ys.length ∧ x = a ∧ y = b := by
  rw [Array.getElem?_push] at ha
  by_cases hlt : i < ys.length
  · rw [if_neg (by omega)] at ha
    rw [List.getElem?_append_left hlt] at hb
    exact .inl ⟨hlt, ha, hb⟩
  · have hi : i = ys.length := by
      obtain ⟨hlt', -⟩ := List.getElem?_eq_some_iff.1 hb
      rw [List.length_append, List.length_singleton] at hlt'
      omega
    subst hi
    rw [if_pos hsize.symm, Option.some.injEq] at ha
    rw [List.getElem?_concat_length, Option.some.injEq] at hb
    exact .inr ⟨rfl, ha, hb⟩

theorem size_append_list (l : Array α) (ys : List α) : (l ++ ys).size = l.size + ys.length := by
  rw [← Array.length_toList, Array.toList_appendList, List.length_append, Array.length_toList]

theorem functionAt_of_emits {known : List Text} {functions : Array Function} {s : Source}
    {asm : Assembly} {d d' : Draft} {g : Fragment} {code : List Instruction} {tries : List TryTable}
    (hcalls : Callable functions) (hbounded : d.Bounded) (htables : asm.tries.size = d.tables)
    (hlocals : d.locals = s.parameters) (hnodup : s.parameters.Nodup) (hcounters : d.counters = 0)
    (hg : Emits ⟨s.isMain, known, functions⟩ none 0 d g d' fun L => BodyAt L s)
    (hcode : Made (fun q ins => q.slot.Becomes asm.code.size none ins) g.code code)
    (htries : Made (MovedTable asm.code.size) g.tables tries) {p : Program}
    (hp : Assembly.In
      ⟨asm.functions.push (place s.header asm.code.size code.length d'.locals.length),
      asm.code ++ code, asm.lines ++ g.code.map Placed.line, asm.tries ++ tries,
      asm.locals.push d'.locals.toArray⟩ d' p) :
    FunctionAt ⟨p, ⟨s.isMain, known, functions⟩, asm.code.size, s.parameters, d'.locals⟩ s
      (place s.header asm.code.size code.length d'.locals.length) d.tables d'.tables := by
  have hfits : Fits ⟨p, ⟨s.isMain, known, functions⟩, asm.code.size, s.parameters, d'.locals⟩
      ⟨s.isMain, known, functions⟩ d d' := by
    refine ⟨rfl, ⟨hp.constants_size, hp.globals_size, (hg.grows.bounded hbounded).locals,
      hcalls.size, hcalls.arity⟩, ?_, hp.constants, hp.globals, id⟩
    intro name hname
    rw [hlocals]
    exact hname
  have hbody := hg.placed hfits (x := none) rfl ⟨hcode.stands hp.code,
    by rw [← htables]; exact htries.stands hp.tries⟩
  obtain ⟨y, hblock, hy, hends⟩ := hbody
  refine ⟨rfl, rfl, rfl, ⟨code.length, rfl⟩, rfl, hfits.sized.locals, ?_,
    hg.grows.nodup (hlocals ▸ hnodup), ?_, y, ?_, hy, ?_⟩
  · rw [← hlocals, List.prefix_iff_getElem?]
    exact fun i hi => hg.grows.locals (List.getElem?_eq_getElem hi)
  · intro name hname
    rw [← hlocals]
    exact hg.grows.fresh hname
  · rw [Draft.mark, hcounters] at hblock
    exact hblock
  · rw [hcode.1]
    exact hends

/-- Functions that follow one another from an address on, none of them empty. -/
def Adjoin : Nat → List Function → Nat → Prop
  | start, [], stop => stop = start
  | start, f :: rest, stop => f.entry = start ∧ f.entry < f.stop ∧ Adjoin f.stop rest stop

theorem adjoin_append {start stop : Nat} {fs : List Function} {f : Function}
    (h : Adjoin start fs stop) (hentry : f.entry = stop) (hlt : f.entry < f.stop) :
    Adjoin start (fs ++ [f]) f.stop := by
  induction fs generalizing start with
  | nil =>
    cases h
    exact ⟨hentry, hlt, rfl⟩
  | cons g fs ih => exact ⟨h.1, h.2.1, ih h.2.2⟩

/-- The functions that have been added, against their texts. `bound` counts the try tables in front
of each of them, and `pool` is what the pool of constants started with. -/
structure Assembled (known : List Text) (functions : Array Function) (pool : Array Constant)
    (bound : Nat → Nat) (sources : List Source) (asm : Assembly) (d : Draft) : Prop where
  bounded : d.Bounded
  pool {i : Nat} {c : Constant} : pool[i]? = some c → d.constants[i]? = some c
  size : asm.functions.size = sources.length
  adjoin : Adjoin 0 asm.functions.toList asm.code.size
  lines : asm.lines.size = asm.code.size
  locals : asm.locals.map Array.size = asm.functions.map Function.localCount
  tables : asm.tries.size = d.tables
  bound_zero : bound 0 = 0
  bound_size : bound sources.length = d.tables
  placed {i : Nat} {f : Function} {s : Source} : asm.functions[i]? = some f →
    sources[i]? = some s → bound i ≤ bound (i + 1) ∧ ∀ {p : Program}, asm.In d p →
      ∃ L : Layout, L.program = p ∧ L.names = ⟨s.isMain, known, functions⟩ ∧
        FunctionAt L s f (bound i) (bound (i + 1))

/-- Steps that only add to the pools. -/
structure Pools (d d' : Draft) : Prop where
  constants {i : Nat} {c : Constant} : d.constants[i]? = some c → d'.constants[i]? = some c
  globals {i : Nat} {name : Text} : d.globals[i]? = some name → d'.globals[i]? = some name
  tables : d'.tables = d.tables
  bounded : d.Bounded → d'.Bounded

theorem Pools.refl (d : Draft) : Pools d d := ⟨id, id, rfl, id⟩

theorem Pools.trans {d d' d'' : Draft} (h : Pools d d') (h' : Pools d' d'') : Pools d d'' :=
  ⟨fun hi => h'.constants (h.constants hi), fun hi => h'.globals (h.globals hi),
    h'.tables.trans h.tables, fun hd => h'.bounded (h.bounded hd)⟩

theorem Quiet.pools {N : Names} {d d' : Draft} (h : Quiet N d d') : Pools d d' :=
  ⟨h.constants, h.globals, h.tables, h.bounded⟩

theorem Layout.Ends.lt {L : Layout} {pc stop : Nat} (h : L.Ends pc stop) : pc < stop := by
  unfold Layout.Ends at h
  split at h
  · omega
  · omega

theorem Assembled.add {known : List Text} {functions : Array Function} {pool : Array Constant}
    {bound : Nat → Nat} {sources : List Source} {asm : Assembly} {d₀ d d' : Draft} {s : Source}
    {g : Fragment} {code : List Instruction} {tries : List TryTable}
    (h : Assembled known functions pool bound sources asm d₀) (hpools : Pools d₀ d)
    (hcalls : Callable functions) (hlocals : d.locals = s.parameters) (hnodup : s.parameters.Nodup)
    (hcounters : d.counters = 0)
    (hg : Emits ⟨s.isMain, known, functions⟩ none 0 d g d' fun L => BodyAt L s)
    (hsize : 0 < g.size)
    (hcode : Made (fun q ins => q.slot.Becomes asm.code.size none ins) g.code code)
    (htries : Made (MovedTable asm.code.size) g.tables tries) :
    ∃ bound', Assembled known functions pool bound' (sources ++ [s])
      ⟨asm.functions.push (place s.header asm.code.size code.length d'.locals.length),
        asm.code ++ code, asm.lines ++ g.code.map Placed.line, asm.tries ++ tries,
        asm.locals.push d'.locals.toArray⟩ d' := by
  have hbounded := hpools.bounded h.bounded
  have htables : asm.tries.size = d.tables := h.tables.trans hpools.tables.symm
  have hlength : code.length = g.size := hcode.1
  refine ⟨fun i => if i ≤ sources.length then bound i else d'.tables, hg.grows.bounded hbounded,
    fun hi => hg.grows.constants (hpools.constants (h.pool hi)), ?_, ?_, ?_, ?_, ?_, ?_, ?_, ?_⟩
  · simp [h.size]
  · have := adjoin_append (f := place s.header asm.code.size code.length d'.locals.length) h.adjoin rfl
      (show asm.code.size < asm.code.size + code.length by omega)
    simpa [place, size_append_list] using this
  · simp [size_append_list, h.lines, hcode.1]
  · simp [h.locals, place]
  · simp [size_append_list, htables, hg.tables, htries.1]
  · simp [h.bound_zero]
  · simp only [List.length_append, List.length_singleton]
    rw [if_neg (by omega)]
  · intro i f s' hf hs'
    rcases getElem?_push_append h.size hf hs' with ⟨hlt, hf, hs'⟩ | ⟨rfl, rfl, rfl⟩
    · obtain ⟨hle, hplaced⟩ := h.placed hf hs'
      simp only [if_pos (Nat.le_of_lt hlt), if_pos (Nat.succ_le_of_lt hlt)]
      refine ⟨hle, fun hp => hplaced ⟨?_, ?_, ?_, ?_, hp.constants_size, hp.globals_size⟩⟩
      · exact fun hi => hp.code (getElem?_append_of_some hi)
      · exact fun hi => hp.tries (getElem?_append_of_some hi)
      · exact fun hi => hp.constants (hg.grows.constants (hpools.constants hi))
      · exact fun hi => hp.globals (hg.grows.globals (hpools.globals hi))
    · simp only [Nat.le_refl, if_true, if_neg (Nat.not_succ_le_self _)]
      rw [h.bound_size, ← hpools.tables]
      refine ⟨by rw [hg.tables]; omega, fun {p} hp =>
        ⟨⟨p, ⟨s.isMain, known, functions⟩, asm.code.size, s.parameters, d'.locals⟩, rfl, rfl, ?_⟩⟩
      exact functionAt_of_emits hcalls hbounded htables hlocals hnodup hcounters hg hcode htries hp

/-- The words for the defaults of parameters: constants of the pool, after the required ones. -/
def DefaultsAt (constants : Array Constant) : Bool → List Parameter → List Int32 → Prop
  | _, [], ws => ws = []
  | seen, parameter :: rest, ws => ∃ w later, ws = w :: later ∧
    match parameter.fallback with
    | none => w = noIndex ∧ seen = false ∧ DefaultsAt constants false rest later
    | some e => (∃ c, ∃ i : Nat, e.literal? = some c ∧ w.toInt = i ∧ constants[i]? = some c) ∧
      DefaultsAt constants true rest later

/-- The first word is that of the first parameter. Once a parameter has a default all later ones do,
which the words need not tell again. -/
theorem DefaultsAt.uncons {constants : Array Constant} {seen : Bool} {q : Parameter}
    {ps : List Parameter} {ws : List Int32} (h : DefaultsAt constants seen (q :: ps) ws) :
    ∃ w later seen', ws = w :: later ∧ DefaultsAt constants seen' ps later ∧
      match q.fallback with
      | none => w = noIndex
      | some e => ∃ c, ∃ i : Nat, e.literal? = some c ∧ w.toInt = i ∧ constants[i]? = some c := by
  obtain ⟨w, later, rfl, h⟩ := h
  cases hq : q.fallback with
  | none =>
    simp only [hq] at h
    exact ⟨w, later, _, rfl, h.2.2, h.1⟩
  | some e =>
    simp only [hq] at h
    exact ⟨w, later, _, rfl, h.2, h.1⟩

theorem DefaultsAt.length {constants : Array Constant} {seen : Bool} {ps : List Parameter}
    {ws : List Int32} (h : DefaultsAt constants seen ps ws) : ws.length = ps.length := by
  induction ps generalizing seen ws with
  | nil =>
    cases h
    rfl
  | cons q ps ih =>
    obtain ⟨w, later, seen', rfl, hlater, -⟩ := h.uncons
    rw [List.length_cons, List.length_cons, ih hlater]

theorem DefaultsAt.mono {l l' : Array Constant}
    (hl : ∀ {i : Nat} {c : Constant}, l[i]? = some c → l'[i]? = some c) {seen : Bool}
    {ps : List Parameter} {ws : List Int32} (h : DefaultsAt l seen ps ws) :
    DefaultsAt l' seen ps ws := by
  induction ps generalizing seen ws with
  | nil => exact h
  | cons q ps ih =>
    obtain ⟨w, later, rfl, h⟩ := h
    refine ⟨w, later, rfl, ?_⟩
    cases hq : q.fallback with
    | none =>
      simp only [hq] at h
      exact ⟨h.1, h.2.1, ih h.2.2⟩
    | some e =>
      simp only [hq] at h
      obtain ⟨⟨c, i, hc, hw, hi⟩, hlater⟩ := h
      exact ⟨⟨c, i, hc, hw, hl hi⟩, ih hlater⟩

theorem yields_defaultWords (function : Text) (seen : Bool) (ps : List Parameter) :
    Yields (defaultWords function seen ps) fun d ws d' => d.Bounded →
      Pools d d' ∧ DefaultsAt d'.constants seen ps ws := by
  induction ps generalizing seen with
  | nil =>
    refine Yields.pure.mono ?_
    rintro d _ _ ⟨rfl, rfl⟩ -
    exact ⟨Pools.refl _, rfl⟩
  | cons q ps ih =>
    unfold defaultWords DefaultsAt
    cases hq : q.fallback with
    | none =>
      cases seen with
      | true => exact .fail ⟨nofun, nofun⟩
      | false =>
        refine ((ih false).bind fun _ => Yields.pure).mono ?_
        rintro d _ _ ⟨later, d', h, rfl, rfl⟩ hd
        obtain ⟨hpools, hlater⟩ := h hd
        exact ⟨hpools, _, later, rfl, rfl, rfl, hlater⟩
    | some e =>
      dsimp only
      cases he : e.literal? with
      | none => exact .fail ⟨nofun, nofun⟩
      | some c =>
        dsimp only
        refine ((yields_constantIndex ⟨true, [], #[]⟩ c).bind fun _ =>
          (ih true).bind fun _ => Yields.pure).mono ?_
        rintro d _ _ ⟨_, d₁, ⟨hquiet, n, rfl, hn⟩, later, d', h, rfl, rfl⟩ hd
        have hd₁ := hquiet.bounded hd
        obtain ⟨hpools, hlater⟩ := h hd₁
        have hle : n ≤ maxOperand := by
          obtain ⟨hlt, -⟩ := Array.getElem?_eq_some_iff.1 hn
          have := hd₁.constants
          omega
        refine ⟨hquiet.pools.trans hpools, _, later, rfl, ⟨c, n, rfl, ?_, hpools.constants hn⟩,
          hlater⟩
        rw [toNat_ofNat hle, toInt_ofNat hle]

/-- The header of a declared function. -/
structure HeaderAt (constants : Array Constant) (declaration : Declaration) (f : Function) :
    Prop where
  name : f.name = declaration.name
  arity : f.arity = declaration.parameters.length
  arity_le : f.arity ≤ maxArguments
  defaults : DefaultsAt constants false declaration.parameters f.defaults

theorem yields_header (known : Array Function) (declaration : Declaration) :
    Yields (header known declaration) fun d f d' => d.Bounded →
      Pools d d' ∧ HeaderAt d'.constants declaration f := by
  unfold header
  split
  · exact .fail ⟨nofun, nofun⟩
  · split
    · exact .fail ⟨nofun, nofun⟩
    · next hle =>
      refine ((yields_defaultWords declaration.name false declaration.parameters).bind fun _ =>
        Yields.pure).mono ?_
      rintro d _ _ ⟨ws, d', h, rfl, rfl⟩ hd
      obtain ⟨hpools, hws⟩ := h hd
      exact ⟨hpools, rfl, rfl, Nat.not_lt.1 hle, hws⟩

/-- Headers in a row, against the declarations they are made for. -/
structure HeadersAt (constants : Array Constant) (declarations : List Declaration)
    (functions : Array Function) : Prop where
  size : functions.size = declarations.length
  header {i : Nat} {f : Function} {declaration : Declaration} : functions[i]? = some f →
    declarations[i]? = some declaration → HeaderAt constants declaration f

theorem yields_headers (declarations : List Declaration) :
    Yields (headers declarations) fun d functions d' => d.Bounded →
      Pools d d' ∧ HeadersAt d'.constants declarations functions := by
  refine Yields.of_start fun c => ?_
  refine (Yields.foldlM (I := fun done functions d => c.Bounded → Pools c d ∧
    HeadersAt d.constants done functions) ?_ declarations [] #[]).mono ?_
  · intro done functions declaration
    refine ((yields_header functions declaration).bind fun _ => Yields.pure).mono ?_
    rintro d _ _ ⟨f, d', h, rfl, rfl⟩ hdone hc
    obtain ⟨hpools, hsize, hheaders⟩ := hdone hc
    obtain ⟨hpools', hheader⟩ := h (hpools.bounded hc)
    refine ⟨hpools.trans hpools', by simp [hsize], fun {i g declaration'} hg hdeclaration => ?_⟩
    rcases getElem?_push_append hsize hg hdeclaration with ⟨-, hg, hdeclaration⟩ | ⟨rfl, rfl, rfl⟩
    · obtain ⟨hname, harity, hle, hdefaults⟩ := hheaders hg hdeclaration
      exact ⟨hname, harity, hle, hdefaults.mono hpools'.constants⟩
    · exact hheader
  · rintro d functions d' h rfl hd
    exact h (fun _ => ⟨Pools.refl d, rfl, by simp⟩) hd

theorem yields_bindParameters (cx : Context) (ps : List Parameter) :
    Yields (bindParameters cx ps) fun d _ d' => Pools d d' ∧ d'.counters = d.counters ∧
      d'.locals = d.locals ++ ps.map Parameter.name ∧ (d.locals.Nodup → d'.locals.Nodup) := by
  induction ps with
  | nil =>
    refine Yields.pure.mono ?_
    rintro _ _ d ⟨rfl, rfl⟩
    exact ⟨Pools.refl _, rfl, by simp, id⟩
  | cons q ps ih =>
    refine Yields.get fun draft => ?_
    split
    · exact .fail ⟨nofun, nofun⟩
    · next habsent =>
      refine ((yields_localSlot_cases cx q.name).bind fun _ => ih).mono ?_
      rintro d _ d' ⟨_, c, ⟨-, hcases⟩, hpools, hcounters, hlocals, hnodup⟩ rfl
      obtain ⟨-, hlt, rfl⟩ := hcases.resolve_left fun h => habsent (by simpa using h.1)
      have hadd : Pools d { d with locals := d.locals ++ [q.name] } := by
        exact ⟨id, id, rfl, fun hd => { hd with locals := by simpa using Nat.succ_le_of_lt hlt }⟩
      refine ⟨hadd.trans hpools, hcounters, by simp [hlocals], fun hd => hnodup ?_⟩
      exact List.concat_eq_append ▸ hd.concat (by simpa using habsent)

def mainSource (tree : List Stmt) : Source := ⟨mainFunction, true, [], tree⟩

def functionSource (unit : Function × Declaration) : Source :=
  ⟨unit.1, false, unit.2.parameters.map Parameter.name, unit.2.body⟩

theorem pools_enter (d : Draft) : Pools d { d with locals := [], counters := 0 } :=
  ⟨id, id, rfl, fun hd => { hd with locals := Nat.zero_le _ }⟩

theorem emits_main {cx : Context} {tree : List Stmt} {d d' : Draft} {body : Fragment}
    (hmain : cx.isMain) (h : Emits cx.names none 0 d body d' fun L => BlockAt L tree) :
    Emits cx.names none 0 d (body ++ emit cx [.of .halt]) d' fun L =>
      BodyAt L (mainSource tree) := by
  refine (h.append (Emits.ofCodes cx (Codes.plain .halt (by decide)))).mono ?_
  rintro L x hL - ⟨y, -, hblock, _, -, ⟨hat, rfl⟩, hend⟩
  refine ⟨y, hblock, by rw [hend]; rfl, ?_⟩
  rw [hend, Layout.Ends, if_pos (by rw [hL.names]; exact hmain)]
  exact ⟨hat, rfl⟩

theorem emits_function {cx : Context} {s : Source} {d c d' : Draft} {body : Fragment}
    {last : Instruction} (hmain : cx.isMain = false)
    (h : Emits cx.names none 0 d body c fun L => BlockAt L s.body)
    (hlast : ∀ start, Codes cx.names start c [last] d' fun L pc pc' =>
      L.Loads pc .nil ∧ pc' = pc + 1) :
    Emits cx.names none 0 d (body ++ emit cx [last, .of .ret]) d' fun L => BodyAt L s := by
  have htail := (hlast (0 + body.size)).append (Codes.plain .ret (by decide))
  refine (h.append (Emits.ofCodes cx htail)).mono ?_
  rintro L x hL - ⟨y, -, hblock, _, -, ⟨_, -, ⟨hload, rfl⟩, hat, rfl⟩, hend⟩
  refine ⟨y, hblock, by rw [hend]; rfl, ?_⟩
  rw [hend, Layout.Ends, if_neg (by rw [hL.names]; simp [Context.names, hmain])]
  exact ⟨hload, hat, rfl⟩

theorem closed_append_emit {g : Fragment} (h : ∀ q ∈ g.code, ∃ ins, q.slot = .fixed ins)
    (cx : Context) (code : List Instruction) :
    ∀ q ∈ (g ++ emit cx code).code, ∃ ins, q.slot = .fixed ins := by
  intro q hq
  rcases List.mem_append.1 hq with hq | hq
  · exact h q hq
  · obtain ⟨ins, -, rfl⟩ := List.mem_map.1 hq
    exact ⟨ins, rfl⟩

theorem yields_body (cx : Context) (hloop : cx.loop = none) (b : List Stmt) :
    Yields (block cx 0 b) fun d body d' => Emits cx.names none 0 d body d' fun L =>
      BlockAt L b := by
  have hblock := yields_block cx (Context.nests_of_loop hloop) b 0
  rwa [Context.leave?_of_loop hloop] at hblock

theorem yields_addMain {cx : Context} (hmain : cx.isMain) (hloop : cx.loop = none)
    (tree : List Stmt) : Yields (addMain cx tree {}) fun d asm d' =>
      Callable cx.functions → d.Bounded → d.tables = 0 →
        ∃ bound,
          Assembled cx.knownGlobals cx.functions d.constants bound [mainSource tree] asm d' := by
  refine ((yields_modify _).bind fun _ => (yields_body cx hloop tree).bind_of fun body _ _ hbody =>
    yields_add (closed_append_emit (hbody.closed rfl) cx _)).mono ?_
  rintro d _ d' ⟨_, _, rfl, body, _, hbody, rfl, code, tries, hcode, htries, rfl⟩ hcalls hd htables
  have hstart : Assembled cx.knownGlobals cx.functions d.constants (fun _ => 0) [] {} d :=
    ⟨hd, id, rfl, rfl, rfl, by simp, htables.symm, rfl, htables.symm, by simp⟩
  have hemits := emits_main hmain hbody
  rw [Context.names, hmain] at hemits
  exact hstart.add (pools_enter d) hcalls rfl List.nodup_nil rfl hemits (by simp) hcode htries

theorem yields_addFunction {cx : Context} (hloop : cx.loop = none) (asm : Assembly)
    (unit : Function × Declaration) : Yields (addFunction cx asm unit) fun d asm' d' =>
      ∀ {pool bound sources}, Callable cx.functions →
        Assembled cx.knownGlobals cx.functions pool bound sources asm d → ∃ bound',
          Assembled cx.knownGlobals cx.functions pool bound'
            (sources ++ [functionSource unit]) asm' d' := by
  obtain ⟨f, declaration⟩ := unit
  let cx' : Context := { cx with
    function := declaration.name, isMain := false, line := declaration.line.toUInt32 }
  have hblock := yields_body cx' hloop declaration.body
  refine ((yields_modify _).bind fun _ => (yields_bindParameters cx' _).bind fun _ =>
    hblock.bind_of fun body _ _ hbody => (yields_loadConstant cx'.names .nil).bind_of
      fun last _ _ _ => yields_add (closed_append_emit (hbody.closed rfl) cx' _)).mono ?_
  rintro d _ d' ⟨_, _, rfl, _, c, ⟨hpools, hcounters, hlocals, hnodup⟩, body, c', hbody, last, _,
    hlast, rfl, code, tries, hcode, htries, rfl⟩ pool bound sources hcalls hasm
  have hemits := emits_function (s := functionSource (f, declaration)) rfl hbody hlast
  refine hasm.add ((pools_enter d).trans hpools) hcalls ?_ ?_ hcounters hemits (by simp)
    hcode htries
  · simpa [functionSource] using hlocals
  · simpa [functionSource, hlocals] using hnodup List.nodup_nil

/-- The functions of a program in the order of their code. -/
def sources (tree : List Stmt) (functions : Array Function) : List Source :=
  mainSource tree :: (functions.toList.zip (tree.filterMap Stmt.declaration?)).map functionSource

structure SameCode (p q : Program) : Prop where
  code : q.code = p.code
  tries : q.tries = p.tries
  constants : q.constants = p.constants
  globals : q.globals = p.globals

/-- A program against the tree it was made of. -/
structure Compiled (options : Options) (tree : List Stmt) (functions : Array Function)
    (bound : Nat → Nat) (p : Program) : Prop where
  version : p.version = formatVersion
  globals : p.globals.toList.Nodup
  headers : HeadersAt p.constants (tree.filterMap Stmt.declaration?) functions
  size : p.functions.size = (sources tree functions).length
  adjoin : Adjoin 0 p.functions.toList p.code.size
  debug {info : DebugInfo} : p.debug = some info → info.lines.size = p.code.size ∧
    info.locals.map Array.size = p.functions.map Function.localCount
  bound_zero : bound 0 = 0
  bound_size : bound p.functions.size = p.tries.size
  placed {i : Nat} {f : Function} {s : Source} : p.functions[i]? = some f →
    (sources tree functions)[i]? = some s → bound i ≤ bound (i + 1) ∧
      ∀ {q : Program}, SameCode p q → ∃ L : Layout, L.program = q ∧
        L.names = ⟨s.isMain, options.hostGlobals ++ assignedNames tree, functions⟩ ∧
        FunctionAt L s f (bound i) (bound (i + 1))

theorem yields_globals (names : List Text) :
    Yields (names.mapM globalIndex) fun d _ d' => Pools d d' := by
  induction names with
  | nil =>
    rw [List.mapM_nil]
    refine Yields.pure.mono ?_
    rintro d _ _ ⟨rfl, rfl⟩
    exact Pools.refl _
  | cons name names ih =>
    rw [List.mapM_cons]
    refine ((yields_globalIndex ⟨true, [], #[]⟩ name).bind fun _ => ih.bind fun _ =>
      Yields.pure).mono ?_
    rintro d _ _ ⟨_, c, ⟨hquiet, -, -⟩, _, d', hpools, rfl, rfl⟩
    exact hquiet.pools.trans hpools

theorem yields_functions {cx : Context} (hloop : cx.loop = none) (asm : Assembly)
    (units : List (Function × Declaration)) (tree : List Stmt) :
    Yields (units.foldlM (addFunction cx) asm) fun d asm' d' => Callable cx.functions →
      ∀ {pool},
      (∃ bound, Assembled cx.knownGlobals cx.functions pool bound [mainSource tree] asm d) →
      ∃ bound, Assembled cx.knownGlobals cx.functions pool bound
        (mainSource tree :: units.map functionSource) asm' d' := by
  refine Yields.of_start fun c => ?_
  refine (Yields.foldlM (I := fun done asm' d => Callable cx.functions → ∀ {pool},
    (∃ bound, Assembled cx.knownGlobals cx.functions pool bound [mainSource tree] asm c) →
    ∃ bound, Assembled cx.knownGlobals cx.functions pool bound
      (mainSource tree :: done.map functionSource) asm' d) ?_ units [] asm).mono ?_
  · intro done asm unit
    refine (yields_addFunction hloop asm unit).mono ?_
    intro d asm' d' h hdone hcalls pool hstart
    obtain ⟨bound, hbound⟩ := hdone hcalls hstart
    simpa using h hcalls hbound
  · rintro d asm' d' h rfl hcalls pool hstart
    exact h (fun _ _ hstart => hstart) hcalls hstart

theorem yields_program (options : Options) (tree : List Stmt) :
    Yields (program options tree) fun d p _ => d = {} →
      (tree.filterMap Stmt.declaration?).length ≤ maxOperand →
      ∃ functions bound, Compiled options tree functions bound p := by
  refine ((yields_globals options.hostGlobals).bind fun _ =>
    (yields_headers (tree.filterMap Stmt.declaration?)).bind fun functions =>
    (yields_addMain rfl rfl tree).bind fun main =>
    (yields_functions rfl main _ tree).bind fun assembly => Yields.get fun draft =>
    Yields.pure.mono fun d p d' h _ => h.1).mono ?_
  rintro d p d' ⟨_, d₁, hglobals, functions, d₂, hheaders, main, d₃, hmain, asm, d₄, hfunctions,
    rfl⟩
    rfl hcount
  have hd₁ := hglobals.bounded bounded_empty
  obtain ⟨hpools, hheaders⟩ := hheaders hd₁
  have hcalls : Callable functions := by
    refine ⟨by rw [hheaders.size]; exact hcount, fun {f} hf => ?_⟩
    obtain ⟨i, hi⟩ := Array.mem_iff_getElem?.1 hf
    obtain ⟨hlt, -⟩ := Array.getElem?_eq_some_iff.1 hi
    rw [hheaders.size] at hlt
    exact (hheaders.header hi (List.getElem?_eq_getElem hlt)).arity_le
  obtain ⟨bound, hasm⟩ := hfunctions hcalls
    (hmain hcalls (hpools.bounded hd₁) (hpools.tables.trans hglobals.tables))
  refine ⟨functions, bound, rfl, hasm.bounded.distinct, ?_, hasm.size, hasm.adjoin, ?_,
    hasm.bound_zero, ?_, ?_⟩
  · refine ⟨hheaders.size, fun hf hdeclaration => ?_⟩
    obtain ⟨hname, harity, hle, hdefaults⟩ := hheaders.header hf hdeclaration
    exact ⟨hname, harity, hle, hdefaults.mono hasm.pool⟩
  · intro info hinfo
    dsimp only at hinfo
    split at hinfo
    · cases hinfo
      exact ⟨hasm.lines, hasm.locals⟩
    · cases hinfo
  · rw [hasm.tables, ← hasm.bound_size, hasm.size]
  · intro i f s hf hs
    obtain ⟨hle, hplaced⟩ := hasm.placed hf hs
    refine ⟨hle, fun {q} hq => hplaced ?_⟩
    obtain ⟨hcode, htries, hconstants, hglobals⟩ := hq
    refine ⟨?_, ?_, ?_, ?_, ?_, ?_⟩
    · rw [hcode]
      exact id
    · rw [htries]
      exact id
    · rw [hconstants]
      exact id
    · rw [hglobals]
      exact id
    · rw [hconstants]
      exact hasm.bounded.constants
    · rw [hglobals]
      exact hasm.bounded.globals

/-- A program that is compiled has been assembled and verified. -/
theorem compile_eq_ok {options : Options} {tree : List Stmt} {p : Program} :
    compile options tree = .ok p ↔
      ∃ p₀ d, (program options tree).run {} = .ok (p₀, d) ∧ p₀.verify = .ok p := by
  unfold compile
  cases hrun : (program options tree).run {} with
  | error e => simp
  | ok result =>
    obtain ⟨p₀, d⟩ := result
    cases hverify : p₀.verify with
    | error e => simp [hverify]
    | ok q => simp [hverify]

end Compile
end ScriptMachine
