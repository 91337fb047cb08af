import ScriptMachine.Proofs.Compile.Verified
import ScriptMachine.Proofs.Meaning.Call

namespace ScriptMachine
namespace Meaning
open Machine Compile

/-- The tree of a program with the room that its functions take up. -/
def scriptOf (options : Options) (tree : List Stmt) (limits : Limits) (p : Program) : Script where
  tree
  hostGlobals := options.hostGlobals
  limits
  main := p.functions.getD 0 default
  function name :=
    p.functions.getD ((tree.filterMap Stmt.declaration?).findIdx (·.name = name) + 1) default

/-- What scripts can tell of the end of an execution. -/
def shown (p : Program) (f : Finished) : Except ScriptError Value × Memory :=
  (match f.outcome with
    | .returned v => .ok v
    | .failed e => .error e.untraced, Memory.of p f.world)

section

variable {options : Options} {tree : List Stmt} {limits : Limits} {functions : Array Function}
variable {bound : Nat → Nat} {p : Program} {depths : List Nat}

theorem mem_blockVariables {d : Declaration} (hd : d ∈ tree.filterMap Stmt.declaration?)
    {name : Text} (hname : name ∈ blockVariables d.body) : name ∈ blockVariables tree := by
  induction tree with
  | nil => simp at hd
  | cons s tree ih =>
    obtain ⟨line, a⟩ := s
    rw [blockVariables, List.mem_append]
    rw [List.filterMap_cons] at hd
    cases a with
    | function fname parameters body =>
      rcases List.mem_cons.1 hd with rfl | hd
      · exact .inl (by rw [actionVariables]; exact List.mem_append_right _ hname)
      · exact .inr (ih hd)
    | _ => exact .inr (ih hd)

theorem blockTidy_declaration {d : Declaration} (hd : d ∈ tree.filterMap Stmt.declaration?)
    (h : blockTidy tree) : blockTidy d.body := by
  induction tree with
  | nil => simp at hd
  | cons s tree ih =>
    obtain ⟨line, a⟩ := s
    rw [blockTidy, Bool.and_eq_true] at h
    rw [List.filterMap_cons] at hd
    cases a with
    | function fname parameters body =>
      rcases List.mem_cons.1 hd with rfl | hd
      · exact h.1
      · exact ih hd h.2
    | _ => exact ih hd h.2

theorem globalIndex?_of_nodup (h : p.globals.toList.Nodup) {i : Nat} {name : Text}
    (hi : p.globals[i]? = some name) : p.globalIndex? name = some i := by
  obtain ⟨hlt, rfl⟩ := Array.getElem?_eq_some_iff.1 hi
  refine Array.findIdx?_eq_some_iff_getElem.2 ⟨hlt, by simp, fun j hj => ?_⟩
  have hne := List.pairwise_iff_getElem.1 h j i (by simp; omega) (by simpa using hlt) hj
  simpa using hne

theorem resolves_of_functionAt {L : Layout} {s : Source} {f : Function} {lo hi : Nat}
    (h : FunctionAt L s f lo hi) (hglobals : L.program.globals.toList.Nodup)
    (hmain : s.isMain → s.parameters = []) :
    Resolves L ⟨s.isMain, s.parameters, L.names.known⟩ := by
  refine ⟨fun {i name} hi hname => ?_, fun {name} hshared => ?_, h.nodup,
    globalIndex?_of_nodup hglobals⟩
  · simp only [Scope.isLocal, Bool.and_eq_true, Bool.not_eq_true', Bool.or_eq_true,
      List.contains_iff_mem]
    rcases h.origin (List.mem_of_getElem? hi) with hmem | ⟨n, rfl⟩ | ⟨hfunction, hunknown⟩
    · refine ⟨?_, .inl hmem⟩
      cases hs : s.isMain with
      | false => rfl
      | true =>
        rw [hmain hs] at hmem
        cases hmem
    · exact absurd hname (not_plain_counterName n)
    · exact ⟨hfunction, .inr (by simpa using hunknown)⟩
  · rw [Layout.Shared, h.isMain, h.parameters] at hshared
    rcases hshared with hs | ⟨hknown, habsent⟩
    · simp [Scope.isLocal, hs]
    · simp [Scope.isLocal, hknown, habsent]

theorem sameCode_storeDepths (p : Program) (depths : List Nat) :
    SameCode p (Verify.storeDepths p depths) := ⟨rfl, rfl, rfl, rfl⟩

theorem getElem?_storeDepths (depths : List Nat) {i : Nat} {f : Function}
    (hf : p.functions[i]? = some f) :
    ∃ depth, (Verify.storeDepths p depths).functions[i]? =
    some { f with maxStackDepth := depth } := by
  simp only [Verify.storeDepths, Array.getElem?_mapIdx, hf, Option.map_some]
  cases depths[i]? with
  | none => exact ⟨f.maxStackDepth, rfl⟩
  | some depth => exact ⟨depth, rfl⟩

theorem findIdx_of_headers {constants : Array Constant} {declarations : List Declaration}
    (h : HeadersAt constants declarations functions) {name : Text} {i : Nat} {header : Function}
    (hindex : functions.findIdx? (·.name == name) = some i)
    (hheader : functions[i]? = some header) :
    ∃ d, declarations[i]? = some d ∧ HeaderAt constants d header ∧
      declarations.findIdx (·.name = name) = i ∧ declarations.find? (·.name = name) = some d := by
  obtain ⟨hlt, hname, hbefore⟩ := Array.findIdx?_eq_some_iff_getElem.1 hindex
  have hlt' : i < declarations.length := h.size ▸ hlt
  have hd := List.getElem?_eq_getElem hlt'
  have hnames {j : Nat} (hj : j < functions.size) (hj' : j < declarations.length) :
      declarations[j].name = functions[j].name :=
    (h.header (Array.getElem?_eq_getElem hj) (List.getElem?_eq_getElem hj')).name.symm
  have hfound : decide (declarations[i].name = name) = true := by
    simpa [hnames hlt hlt'] using hname
  have hearlier {j : Nat} (hj : j < i) : decide (declarations[j].name = name) = false := by
    simpa [hnames (Nat.lt_trans hj hlt) (Nat.lt_trans hj hlt')] using hbefore j hj
  refine ⟨_, hd, h.header hheader hd, ?_, ?_⟩
  · exact (List.findIdx_eq hlt').2 ⟨hfound, fun j hj => hearlier hj⟩
  · refine List.find?_eq_some_iff_getElem.2 ⟨hfound, i, hlt', rfl, fun j hj => ?_⟩
    simpa using hearlier hj

theorem serves_of_compiled (h : Compiled options tree functions bound p)
    (hplain : ∀ name ∈ blockVariables tree, Plain name) (htidy : blockTidy tree) :
    Serves (scriptOf options tree limits (Verify.storeDepths p depths))
      (Verify.storeDepths p depths) functions := by
  refine ⟨fun {i name header} hindex hheader => ?_⟩
  obtain ⟨d, hd, hat, hfirst, hfind⟩ := findIdx_of_headers h.headers hindex hheader
  have hlt : i + 1 < p.functions.size := by
    obtain ⟨hlt, -⟩ := Array.getElem?_eq_some_iff.1 hheader
    rw [h.length_sources]
    omega
  have hf := Array.getElem?_eq_getElem hlt
  have hsource : (sources tree functions)[i + 1]? = some (functionSource (header, d)) := by
    have hunit : (functions.toList.zip (tree.filterMap Stmt.declaration?))[i]? = some (header, d) :=
      List.getElem?_zip_eq_some.2 ⟨by simpa using hheader, hd⟩
    rw [sources_succ, hunit]
    rfl
  obtain ⟨L, hL, hnames, hfunction⟩ := (h.placed hf hsource).2 (sameCode_storeDepths p depths)
  obtain ⟨depth, hdepth⟩ := getElem?_storeDepths depths hf
  have hroom : (scriptOf options tree limits (Verify.storeDepths p depths)).function name =
      { p.functions[i + 1] with maxStackDepth := depth } := by
    simp only [scriptOf, hfirst, Array.getD_eq_getD_getElem?, hdepth, Option.getD_some]
  have hmem : d ∈ tree.filterMap Stmt.declaration? := List.mem_of_getElem? hd
  refine ⟨d, L, hfind, by rw [hroom, hdepth], hL, by rw [hnames], ?_⟩
  rw [hroom]
  obtain ⟨size, hplace⟩ := hfunction.head
  obtain ⟨m, hblock, -, hends⟩ := hfunction.code
  have hresolves := resolves_of_functionAt hfunction (by rw [hL]; exact h.globals) nofun
  rw [hnames] at hresolves
  refine ⟨hresolves, by rw [hnames]; rfl, hfunction.locals, hfunction.slots, ?_, ?_, ?_, ?_, ?_⟩
  · rw [hplace]
    exact hat.arity
  · rw [hplace, hL]
    exact hat.defaults
  · rw [hfunction.entry] at hblock
    exact ⟨_, _, m, hblock, hends⟩
  · exact fun name hname => hplain name (mem_blockVariables hmem hname)
  · exact blockTidy_declaration hmem htidy

def atTop : Site := ⟨0, [], #[], [], #[]⟩

theorem stands_atTop (size : Nat) : atTop.Stands size := ⟨trivial, by simp [atTop]⟩

theorem settled_atTop : atTop.Settled := (Site.settled_iff atTop).2 rfl

theorem start_main {f : Function} (hdefaults : f.defaults = []) (w : World)
    (hrefused : refusal? limits f 0 0 0 = none) : ∃ stats, start p limits w f 0 [] =
      some (.next (atTop.state (List.replicate f.localCount .nil) f.entry [] ⟨w, stats⟩)) := by
  have hframe : frameStack? p f 0 0 #[] = some (List.replicate f.localCount .nil).toArray := by
    simp only [frameStack?, hdefaults, List.take_nil, List.drop_nil, List.mapM_nil]
    show some (resize #[] (0 + f.localCount) Value.nil) = _
    rw [resize_of_size_le (Nat.zero_le _)]
    simp
  refine ⟨(if limits.collectStats then some {} else none : Option Stats).map (·.countCall 1), ?_⟩
  simp only [start, List.length_nil, hrefused, hframe]
  simp only [atTop, Site.state, List.nil_append, List.reverse_nil, List.append_nil]
  rfl

/-- From a state the execution ends as an evaluation does, after at least `K` steps if the
evaluation has no end. -/
def Finishes (p : Program) (limits : Limits) (K : Nat) (s : State) :
    Option (Except ScriptError Value × Memory) → Prop
  | none => Lasts p limits K s
  | some answer => ∃ n f, run p limits n s = .finished f ∧ shown p f = answer

theorem run_of_done {n : Nat} {s t : State} {f : Finished} (hn : run p limits n s = .unfinished t)
    (hstep : step p limits t = some (.done f)) : run p limits (n + 1) s = .finished f := by
  rw [run_add hn 1]
  simp only [run, hstep]

theorem Performs.finishes {L : Layout} {K pc out : Nat} {cells : List Value} {body : Exec}
    {locals : Locals} {x : Scene} {μ : Memory} (hat : L.At out .halt)
    (h : Performs limits K L atTop none 0 cells pc [] out body) (hcells : Matches L cells locals)
    (hx : x.Shows L.program μ) :
    Finishes L.program limits K (atTop.state cells pc [] x) (activate body locals μ) := by
  have hdoes := h x ⟨locals, μ⟩ hcells hx
  unfold activate
  cases hr : body ⟨locals, μ⟩ with
  | none =>
    rw [hr] at hdoes
    exact hdoes
  | some r =>
    obtain ⟨ending, σ⟩ := r
    rw [hr] at hdoes
    obtain ⟨cells', -, -, n, s, hn, hended⟩ := hdoes
    cases ending with
    | normal =>
      obtain ⟨x', hx', rfl⟩ := hended
      obtain ⟨stats, hstep⟩ := step_of_at limits atTop cells' [] hat x'
      exact ⟨n + 1, _, run_of_done hn hstep, by simp [shown, hx'.memory]⟩
    | exit way =>
      obtain ⟨_, _, _, _, hnone, _⟩ := hended
      cases hnone
    | ret v =>
      obtain ⟨-, x', hx', hstep⟩ := hended
      exact ⟨n + 1, _, run_of_done hn hstep, by simp [shown, hx'.memory]⟩
    | throw e =>
      obtain ⟨x', e', hx', rfl, hstep⟩ := hended
      exact ⟨n + 1, _, run_of_done hn hstep, by simp [shown, hx'.memory]⟩

theorem finishes_of_compiled (limits : Limits) (h : Compiled options tree functions bound p)
    (hplain : ∀ name ∈ blockVariables tree, Plain name) (htidy : blockTidy tree) {q : Program}
    (hq : q = Verify.storeDepths p depths) {f : Function} {lo hi : Nat} {L : Layout}
    (hL : L.program = q)
    (hnames : L.names = ⟨true, options.hostGlobals ++ assignedNames tree, functions⟩)
    (hf : FunctionAt L (mainSource tree) f lo hi) (rounds : Nat) {x : Scene} {μ : Memory}
    (hx : x.Shows q μ) :
    let S := scriptOf options tree limits q
    Finishes q limits rounds (atTop.state (List.replicate f.localCount .nil) f.entry [] x)
      (activate (block ⟨⟨true, [], S.known⟩, f.localCount, S.call rounds 1⟩ rounds S.tree)
        (fun _ => .nil) μ) := by
  intro S
  have hresolves := resolves_of_functionAt hf (by rw [hL, hq]; exact h.globals) fun _ => rfl
  rw [hnames] at hresolves
  have hserves : Serves S q functions := by
    subst hq
    exact serves_of_compiled h hplain htidy
  have hworks : Works limits rounds L ⟨⟨true, [], S.known⟩, f.localCount,
      S.call rounds 1⟩ atTop := by
    refine ⟨hresolves, by simp [atTop, hf.locals], fun {guards pending cells} hstands hlength => ?_⟩
    exact answers hserves rounds hL (by rw [hnames]) rfl (hlength ▸ hstands)
  obtain ⟨m, hblock, -, hends⟩ := hf.code
  simp only [Layout.Ends, hnames, if_true] at hends
  rw [hf.entry] at hblock
  have hperforms := performs_block tree hworks (stands_atTop _) hblock (Nat.zero_le _) hplain htidy
    (fun _ => settled_atTop) (List.replicate f.localCount .nil)
  have hcells : Matches L (List.replicate f.localCount .nil) fun _ => .nil := by
    refine ⟨by rw [List.length_replicate, hf.locals], fun {i name} hi _ => ?_⟩
    have hlt := (List.getElem?_eq_some_iff.1 hi).1
    rw [List.getElem?_replicate, if_pos (hf.locals ▸ hlt)]
  subst hL
  exact hperforms.finishes hends.1 hcells hx

/-- The main program does what the tree means, in so many rounds of its loops and calls. -/
theorem invoke_of_compiled (limits : Limits) (h : Compiled options tree functions bound p)
    (hplain : ∀ name ∈ blockVariables tree, Plain name) (htidy : blockTidy tree) {q : Program}
    (hq : q = Verify.storeDepths p depths) {w : World} (hw : w.globals.size = q.globals.size)
    (rounds : Nat) :
    match (scriptOf options tree limits q).run rounds (Memory.of q { w with output := #[] }) with
    | none => ∃ s, Machine.invoke ⟨q, limits, w⟩ rounds 0 [] = .ok (.unfinished s)
    | some answer => ∃ fuel f, Machine.invoke ⟨q, limits, w⟩ fuel 0 [] = .ok (.finished f) ∧
      shown q f = answer := by
  have hlt : 0 < p.functions.size := by
    rw [h.length_sources]
    omega
  have hf := Array.getElem?_eq_getElem hlt
  obtain ⟨L, hL, hnames, hfunction⟩ := (h.placed hf rfl).2 (hq ▸ sameCode_storeDepths p depths)
  obtain ⟨depth, hdepth⟩ : ∃ depth, q.functions[0]? =
      some { p.functions[0] with maxStackDepth := depth } := by
    subst hq
    exact getElem?_storeDepths depths hf
  have hmain : (scriptOf options tree limits q).main =
      { p.functions[0] with maxStackDepth := depth } := by
    simp only [scriptOf, Array.getD_eq_getD_getElem?, hdepth, Option.getD_some]
  have hdefaults : p.functions[0].defaults = [] := by
    obtain ⟨size, hplace⟩ := hfunction.head
    rw [hplace]
    rfl
  simp only [Script.run, hmain, show (scriptOf options tree limits q).limits = limits from rfl,
    Machine.invoke, hdepth]
  cases hrefused : refusal? limits { p.functions[0] with maxStackDepth := depth } 0 0 0 with
  | some e =>
    refine ⟨0, ⟨.failed e, { w with output := #[] }, if limits.collectStats then some {} else none⟩,
      ?_, ?_⟩
    · simp only [start, List.length_nil, hrefused]
    · simp [shown, refusal?_untraced hrefused]
  | none =>
    obtain ⟨stats, hstart⟩ := start_main (p := q)
      (f := { p.functions[0] with maxStackDepth := depth }) hdefaults { w with output := #[] } hrefused
    have hfinishes := finishes_of_compiled limits h hplain htidy hq hL hnames hfunction rounds
      (x := ⟨{ w with output := #[] }, stats⟩) ⟨hw, rfl⟩
    simp only [hstart]
    dsimp only at hfinishes
    split
    · next hnone =>
      rw [hnone] at hfinishes
      obtain ⟨s, hs⟩ := hfinishes
      exact ⟨s, by rw [hs]⟩
    · next answer hsome =>
      rw [hsome] at hfinishes
      obtain ⟨n, f, hn, hshown⟩ := hfinishes
      exact ⟨n, f, by rw [hn], hshown⟩

end

theorem invoke_of_le {m : Machine} {n k : Nat} {f : Finished}
    (h : m.invoke n 0 [] = .ok (.finished f)) (hle : n ≤ k) : m.invoke k 0 [] = .ok (.finished f) :=
  Machine.invoke_of_ended h nofun hle

theorem exists_compiled {options : Options} {tree : List Stmt} {p : Program}
    (h : compile options tree = .ok p)
    (hcount : (tree.filterMap Stmt.declaration?).length < 2 ^ 23) :
    ∃ functions bound p₀ depths, Compiled options tree functions bound p₀ ∧
      p = Verify.storeDepths p₀ depths := by
  obtain ⟨p₀, d, hrun, hverify⟩ := compile_eq_ok.1 h
  obtain ⟨functions, bound, hcompiled⟩ :=
    (yields_program options tree).ok hrun rfl (Nat.le_of_lt_succ hcount)
  obtain ⟨depths, hdepths⟩ := hcompiled.verify
  exact ⟨functions, bound, p₀, depths, hcompiled, Except.ok.inj (hverify.symm.trans hdepths)⟩

/-- A tree has a meaning exactly if the program that it is compiled to ends, and that is how the
program ends. -/
theorem run_iff_invoke (options : Options) (tree : List Stmt) (p : Program)
    (hcompile : compile options tree = .ok p)
    (hcount : (tree.filterMap Stmt.declaration?).length < 2 ^ 23)
    (hplain : ∀ name ∈ blockVariables tree, Plain name) (htidy : blockTidy tree) (limits : Limits)
    (w : World) (hw : w.globals.size = p.globals.size) :
    let S := scriptOf options tree limits p
    let μ := Memory.of p { w with output := #[] }
    let m : Machine := ⟨p, limits, w⟩
    ((∃ rounds answer, S.run rounds μ = some answer) ↔
      ∃ fuel finished, m.invoke fuel 0 [] = .ok (.finished finished)) ∧
    ∀ rounds answer fuel finished, S.run rounds μ = some answer →
      m.invoke fuel 0 [] = .ok (.finished finished) → shown p finished = answer := by
  intro S μ m
  obtain ⟨functions, bound, p₀, depths, hcompiled, hp⟩ := exists_compiled hcompile hcount
  have hinvoke := invoke_of_compiled limits hcompiled hplain htidy hp hw
  refine ⟨⟨?_, ?_⟩, ?_⟩
  · rintro ⟨rounds, answer, hrun⟩
    have hends := hinvoke rounds
    rw [hrun] at hends
    obtain ⟨fuel, finished, hfinished, -⟩ := hends
    exact ⟨fuel, finished, hfinished⟩
  · -- without a meaning in as many rounds as there was fuel, the fuel would have been used up
    rintro ⟨fuel, finished, hfinished⟩
    have hends := hinvoke fuel
    cases hrun : S.run fuel μ with
    | some answer => exact ⟨fuel, answer, hrun⟩
    | none =>
      rw [hrun] at hends
      obtain ⟨s, hs⟩ := hends
      rw [hfinished] at hs
      cases hs
  · intro rounds answer fuel finished hrun hfinished
    have hends := hinvoke rounds
    rw [hrun] at hends
    obtain ⟨fuel', finished', hfinished', hshown⟩ := hends
    -- both executions have ended when there is fuel enough for either
    have hsame := invoke_of_le hfinished (Nat.le_add_right fuel fuel')
    rw [invoke_of_le hfinished' (Nat.le_add_left fuel' fuel)] at hsame
    cases hsame
    exact hshown

/-- A function that throws what it is given, returns the text of the error and prints on its way
out, called in a loop of the main program. -/
def rescue : List Stmt :=
  let f : Text := [0x66]
  let x : Text := [0x78]
  let e : Text := [0x65]
  [.mk 1 (.function f [⟨x, some (.string [0x6f])⟩] [
    .mk 2 (.guard [.mk 3 (.throw (.identifier x))]
      [.mk [] e [.mk 4 (.ret (some (.errorMessage (.identifier e))))]]
      (some [.mk 5 (.write (.identifier x))]))]),
   .mk 6 (.repeatLoop (.number .one) [.mk 7 (.set x (.call f [])), .mk 8 (.exit .skip)])]

/-- The function returns, its finally block prints, and the loop comes to its end. -/
theorem run_iff_invoke_rescue : ∃ p, compile {} rescue = .ok p ∧
    (rescue.filterMap Stmt.declaration?).length < 2 ^ 23 ∧
    (∀ name ∈ blockVariables rescue, Plain name) ∧ blockTidy rescue ∧
    ∃ fuel finished, (Machine.create p {} [] {}).invoke fuel 0 [] = .ok (.finished finished) ∧
      finished.world.output = #[0x6f, 0x0a] := by
  have hcount : (rescue.filterMap Stmt.declaration?).length < 2 ^ 23 := by decide
  have hplain : ∀ name ∈ blockVariables rescue, Plain name := by decide
  have htidy : blockTidy rescue := by decide
  have hends : (compile {} rescue).toOption.any fun p =>
      ((scriptOf {} rescue {} p).run 3 (Memory.of p (Machine.create p {} [] {}).world)).any
        fun answer =>
        answer.2.output == #[0x6f, 0x0a] := by decide +kernel
  cases hp : compile {} rescue with
  | error e => simp [hp, Except.toOption] at hends
  | ok p =>
    simp only [hp, Except.toOption, Option.any_some, Option.any_eq_true] at hends
    obtain ⟨answer, hrun, houtput⟩ := hends
    obtain ⟨hiff, hshown⟩ := run_iff_invoke {} rescue p hp hcount hplain htidy {}
      (Machine.create p {} [] {}).world (by simp [Machine.create])
    obtain ⟨fuel, finished, hfinished⟩ := hiff.1 ⟨3, answer, hrun⟩
    refine ⟨p, rfl, hcount, hplain, htidy, fuel, finished, hfinished, ?_⟩
    rw [← eq_of_beq houtput, ← hshown 3 answer fuel finished hrun hfinished]
    rfl

end Meaning
end ScriptMachine
