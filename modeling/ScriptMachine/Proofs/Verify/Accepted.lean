import ScriptMachine.Proofs.Verify.Order

namespace ScriptMachine

/-- A function as verification sees it. -/
def Function.bare (f : Function) : Function := { f with maxStackDepth := 0 }

namespace Verify

theorem callProblem?_storeDepths (p : Program) (depths : List Nat) (op : Opcode)
    (ins : Instruction) : callProblem? (storeDepths p depths) op ins = callProblem? p op ins := by
  unfold callProblem?
  simp only [storeDepths, Array.getElem?_mapIdx]
  cases p.functions[ins.a.toNat]? with
  | none => rfl
  | some callee =>
    cases op <;> try rfl
    simp only [Option.map_some]
    cases depths[ins.a.toNat]? <;> rfl

theorem instructionProblem?_storeDepths (p : Program) (depths : List Nat) (f : Function)
    (op : Opcode) (ins : Instruction) (depth : Nat) :
    instructionProblem? (storeDepths p depths) f op ins depth =
      instructionProblem? p f op ins depth := by
  have hoperand (kind : OperandKind) (v : Int) :
      operandProblem? (storeDepths p depths) f kind v = operandProblem? p f kind v := by
    cases kind with
    | function => simp [operandProblem?, storeDepths]
    | _ => rfl
  simp only [instructionProblem?, hoperand, callProblem?_storeDepths]
  rfl

theorem demands_storeDepths (p : Program) (depths : List Nat) (f : Function) (pc : Nat)
    (state : FlowState) : demands (storeDepths p depths) f pc state = demands p f pc state := by
  simp only [demands, instructionProblem?_storeDepths]
  rfl

theorem run_storeDepths (p : Program) (depths : List Nat) (f : Function) (index count : Nat)
    (x : Exploration) :
    x.run (storeDepths p depths) f.bare index count = x.run p f index count := by
  induction count generalizing x with
  | zero => rfl
  | succ count ih =>
    have hdemands (pc : Nat) (state : FlowState) :
        demands (storeDepths p depths) f.bare pc state = demands p f pc state :=
      demands_storeDepths p depths f.bare pc state
    simp only [Exploration.run, hdemands, ih]
    rfl

theorem explore_storeDepths (p : Program) (depths : List Nat) (index : Nat) (f : Function)
    (owners : Array (Option Nat)) :
    explore (storeDepths p depths) index f.bare owners = explore p index f owners := by
  simp only [explore, run_storeDepths]
  rfl

theorem functionDepths_storeDepths (p : Program) (depths : List Nat) (index : Nat)
    (owners : Array (Option Nat)) (fs : List Function) :
    functionDepths (storeDepths p depths) index owners (fs.map Function.bare) =
      functionDepths p index owners fs := by
  induction fs generalizing index owners with
  | nil => rfl
  | cons f fs ih =>
    simp only [List.map_cons, functionDepths, explore_storeDepths]
    cases explore p index f owners with
    | error e => rfl
    | ok x => simp only [ih]

theorem functionDepths_bare (p : Program) (index : Nat) (owners : Array (Option Nat))
    (fs : List Function) :
    functionDepths p index owners (fs.map Function.bare) = functionDepths p index owners fs := by
  have hid : p.functions.mapIdx (fun _ f => f) = p.functions := by
    apply Array.ext_getElem?
    simp
  have hnil : storeDepths p [] = p := by simp [storeDepths, hid]
  simpa only [hnil] using functionDepths_storeDepths p [] index owners fs

theorem map_bare_storeDepths (p : Program) (depths : List Nat) :
    (storeDepths p depths).functions.toList.map Function.bare =
      p.functions.toList.map Function.bare := by
  apply List.ext_getElem?
  intro i
  simp only [storeDepths, Array.toList_mapIdx, List.getElem?_map, List.getElem?_mapIdx,
    Option.map_map]
  cases p.functions.toList[i]? with
  | none => rfl
  | some f => cases depths[i]? <;> simp [Function.bare]

theorem storeDepths_idem (p : Program) (depths : List Nat) :
    storeDepths (storeDepths p depths) depths = storeDepths p depths := by
  have hfunctions : (storeDepths (storeDepths p depths) depths).functions =
      (storeDepths p depths).functions := by
    apply Array.ext_getElem?
    intro i
    simp only [storeDepths, Array.getElem?_mapIdx, Option.map_map]
    cases p.functions[i]? with
    | none => rfl
    | some f => cases depths[i]? <;> simp
  simpa [storeDepths] using hfunctions

theorem checkFunctions_bare (p : Program) (expectedEntry : Nat) (fs : List Function) :
    checkFunctions p expectedEntry (fs.map Function.bare) = checkFunctions p expectedEntry fs := by
  induction fs generalizing expectedEntry with
  | nil => rfl
  | cons f fs ih =>
    simp only [List.map_cons, checkFunctions]
    rw [show f.bare.stop = f.stop from rfl, ih]
    rfl

theorem checkFunctions_storeDepths (p : Program) (depths : List Nat) (expectedEntry : Nat)
    (fs : List Function) :
    checkFunctions (storeDepths p depths) expectedEntry fs = checkFunctions p expectedEntry fs := by
  induction fs generalizing expectedEntry with
  | nil => rfl
  | cons f fs ih =>
    simp only [checkFunctions, ih]
    rfl

theorem checkLocalNames_bare (fs : List Function) (names : List (Array Text)) :
    checkLocalNames ((fs.map Function.bare).zip names) = checkLocalNames (fs.zip names) := by
  induction fs generalizing names with
  | nil => rfl
  | cons f fs ih =>
    cases names with
    | nil => rfl
    | cons name names =>
      simp only [List.map_cons, List.zip_cons_cons, checkLocalNames, ih]
      rfl

theorem checkLayout_storeDepths (p : Program) (depths : List Nat) :
    checkLayout (storeDepths p depths) = checkLayout p := by
  have hsize : (storeDepths p depths).functions.size = p.functions.size := by simp [storeDepths]
  have hempty : (storeDepths p depths).functions.isEmpty = p.functions.isEmpty := by
    simp [Array.isEmpty, hsize]
  have hfunctions (entry : Nat) :
      checkFunctions (storeDepths p depths) entry (storeDepths p depths).functions.toList =
        checkFunctions p entry p.functions.toList := by
    rw [checkFunctions_storeDepths, ← checkFunctions_bare, map_bare_storeDepths,
      checkFunctions_bare]
  have hnames (names : List (Array Text)) :
      checkLocalNames ((storeDepths p depths).functions.toList.zip names) =
        checkLocalNames (p.functions.toList.zip names) := by
    rw [← checkLocalNames_bare, map_bare_storeDepths, checkLocalNames_bare]
  have hdebug (debug : DebugInfo) :
      checkDebug (storeDepths p depths) debug = checkDebug p debug := by
    simp only [checkDebug, hsize, hnames]
    rfl
  simp only [checkLayout, hempty, hfunctions, hdebug]
  rfl

/-- A program is accepted when its tables pass and every function is explored; it gets the depths
that were found. -/
theorem verify_eq_ok {p q : Program} : p.verify = .ok q ↔ checkLayout p = .ok () ∧
    ∃ depths, functionDepths p 0 (Array.replicate p.tries.size none) p.functions.toList =
      (depths, none) ∧ q = storeDepths p depths := by
  unfold Program.verify inspect
  cases hlayout : checkLayout p with
  | error e => simp
  | ok _ =>
    cases hdepths : functionDepths p 0 (Array.replicate p.tries.size none) p.functions.toList with
    | mk depths e? =>
      cases e? with
      | some e => simp
      | none => simp [eq_comm]

/-- What is found does not depend on depths that were stored before. -/
theorem functionDepths_stored (p : Program) (depths : List Nat) (index : Nat)
    (owners : Array (Option Nat)) :
    functionDepths (storeDepths p depths) index owners (storeDepths p depths).functions.toList =
      functionDepths p index owners p.functions.toList := by
  rw [← functionDepths_bare, map_bare_storeDepths, functionDepths_storeDepths]

theorem verify_of_verify {p q : Program} (h : p.verify = .ok q) : q.verify = .ok q := by
  obtain ⟨hlayout, depths, hdepths, rfl⟩ := verify_eq_ok.1 h
  refine verify_eq_ok.2 ⟨by rw [checkLayout_storeDepths, hlayout], depths, ?_, ?_⟩
  · rw [functionDepths_stored]
    exact hdepths
  · rw [storeDepths_idem]

/-- The explorations of functions in a row, up to the first that is refused. -/
def explorations (p : Program) : Nat → Array (Option Nat) → List Function → List Exploration
  | _, _, [] => []
  | index, owners, f :: rest =>
    match explore p index f owners with
    | .error _ => []
    | .ok x => x :: explorations p (index + 1) x.owners rest

theorem functionDepths_eq {p : Program} {index : Nat} {owners : Array (Option Nat)}
    {fs : List Function} {depths : List Nat}
    (h : functionDepths p index owners fs = (depths, none)) :
    depths = (explorations p index owners fs).map Exploration.maxDepth ∧
      depths.length = fs.length := by
  induction fs generalizing index owners depths with
  | nil =>
    cases h
    exact ⟨rfl, rfl⟩
  | cons f fs ih =>
    unfold functionDepths at h
    unfold explorations
    cases hx : explore p index f owners with
    | error e => simp [hx] at h
    | ok x =>
      cases hrest : functionDepths p (index + 1) x.owners fs with
      | mk rest e? =>
        simp only [hx, hrest, Prod.mk.injEq] at h
        obtain ⟨rfl, rfl⟩ := h
        obtain ⟨hdepths, hlength⟩ := ih hrest
        exact ⟨by rw [List.map_cons, ← hdepths], by simp [hlength]⟩

theorem explorations_getElem? {p : Program} {index i : Nat} {owners : Array (Option Nat)}
    {fs : List Function} {x : Exploration} (howners : owners.size = p.tries.size)
    (h : (explorations p index owners fs)[i]? = some x) :
    ∃ f owners', fs[i]? = some f ∧ owners'.size = p.tries.size ∧
      explore p (index + i) f owners' = .ok x := by
  induction fs generalizing index owners i with
  | nil => simp [explorations] at h
  | cons f fs ih =>
    unfold explorations at h
    cases hx : explore p index f owners with
    | error e => simp [hx] at h
    | ok y =>
      simp only [hx] at h
      cases i with
      | zero =>
        simp only [List.getElem?_cons_zero, Option.some.injEq] at h
        subst h
        exact ⟨f, owners, rfl, howners, hx⟩
      | succ i =>
        obtain ⟨f', owners', hf, hsize, hexplore⟩ :=
          ih (typing_of_explore howners hx).2 (by simpa using h)
        exact ⟨f', owners', by simpa using hf, hsize, by rw [← hexplore]; congr 1; omega⟩

theorem storeDepths_storeDepths {p : Program} {depths : List Nat} (old : List Nat)
    (h : depths.length = p.functions.size) :
    storeDepths (storeDepths p old) depths = storeDepths p depths := by
  have hfunctions : (storeDepths (storeDepths p old) depths).functions =
      (storeDepths p depths).functions := by
    apply Array.ext_getElem?
    intro i
    simp only [storeDepths, Array.getElem?_mapIdx, Option.map_map]
    by_cases hi : i < p.functions.size
    · have hdepth : depths[i]? = some depths[i] := List.getElem?_eq_getElem (by omega)
      rw [Array.getElem?_eq_getElem hi, hdepth]
      cases old[i]? <;> rfl
    · rw [Array.getElem?_eq_none (Nat.not_lt.1 hi)]
      rfl
  simpa [storeDepths] using hfunctions

theorem verify_storeDepths {p q : Program} (old : List Nat) (h : p.verify = .ok q) :
    (storeDepths p old).verify = .ok q := by
  obtain ⟨hlayout, depths, hdepths, rfl⟩ := verify_eq_ok.1 h
  have hlength : depths.length = p.functions.size := by simpa using (functionDepths_eq hdepths).2
  refine verify_eq_ok.2 ⟨by rw [checkLayout_storeDepths, hlayout], depths, ?_, ?_⟩
  · rw [functionDepths_stored]
    exact hdepths
  · rw [storeDepths_storeDepths old hlength]

end Verify

/-- The flow state that verification finds at an address of a function. -/
def Program.flowState? (p : Program) (index pc : Nat) : Option Verify.FlowState := do
  let f ← p.functions[index]?
  let x ← (Verify.explorations p 0 (Array.replicate p.tries.size none) p.functions.toList)[index]?
  x.assignment f pc

namespace Verify

/-- What the machine may rely on in a program. -/
structure Verified (p : Program) : Prop where
  layout : checkLayout p = .ok ()
  typing {index : Nat} {f : Function} : p.functions[index]? = some f →
    ∃ owned, Typing p f owned (p.flowState? index)
  depth {index pc : Nat} {f : Function} {state : FlowState} : p.functions[index]? = some f →
    p.flowState? index pc = some state → state.depth ≤ f.maxStackDepth

theorem exploration_of_function {p : Program} {depths : List Nat} {index : Nat} {f : Function}
    (hdepths : functionDepths p 0 (Array.replicate p.tries.size none) p.functions.toList =
      (depths, none))
    (hstored : storeDepths p depths = p) (hf : p.functions[index]? = some f) :
    ∃ x owners, owners.size = p.tries.size ∧ explore p index f owners = .ok x ∧
      p.flowState? index = x.assignment f ∧ f.maxStackDepth = x.maxDepth := by
  obtain ⟨hmap, hlength⟩ := functionDepths_eq hdepths
  obtain ⟨hlt, -⟩ := Array.getElem?_eq_some_iff.1 hf
  have hlt' : index < depths.length := by simpa [hlength] using hlt
  obtain ⟨x, hx⟩ : ∃ x, (explorations p 0 (Array.replicate p.tries.size none)
      p.functions.toList)[index]? = some x :=
    ⟨_, List.getElem?_eq_getElem (by simpa [hmap] using hlt')⟩
  obtain ⟨f', owners, hf', hsize, hexplore⟩ := explorations_getElem? (by simp) hx
  rw [Nat.zero_add] at hexplore
  have heq : f' = f := by
    rw [Array.getElem?_toList, hf] at hf'
    cases hf'
    rfl
  subst heq
  refine ⟨x, owners, hsize, hexplore, ?_, ?_⟩
  · funext pc
    simp [Program.flowState?, hf, hx]
  · have hdepth : depths[index]? = some x.maxDepth := by simp [hmap, hx]
    have hsame : (storeDepths p depths).functions[index]? = some f' := by rw [hstored, hf]
    simp only [storeDepths, Array.getElem?_mapIdx, hf, Option.map_some, hdepth,
      Option.some.injEq] at hsame
    rw [← hsame]

theorem verified_of_verify {p q : Program} (h : p.verify = .ok q) : Verified q := by
  obtain ⟨hlayout, depths, hdepths, hstored⟩ := verify_eq_ok.1 (verify_of_verify h)
  refine ⟨hlayout, ?_, ?_⟩
  · intro index f hf
    obtain ⟨x, owners, hsize, hx, hflow, -⟩ := exploration_of_function hdepths hstored.symm hf
    rw [hflow]
    exact ⟨_, (typing_of_explore hsize hx).1⟩
  · intro index pc f state hf hstate
    obtain ⟨x, owners, -, -, hflow, hdepth⟩ := exploration_of_function hdepths hstored.symm hf
    rw [hflow] at hstate
    rw [hdepth]
    exact Exploration.depth_le_maxDepth hstate

theorem require_eq_ok {condition : Bool} {e : VerifyError} {u : Unit} :
    require condition e = .ok u ↔ condition = true := by
  cases condition <;> simp [require]

/-- The range, the frame and the defaults of a function that passes the checks of the tables. -/
structure Laid (p : Program) (f : Function) : Prop where
  entry_lt : f.entry < f.stop
  arity_le : f.arity ≤ f.localCount
  defaults_length : f.defaults.length = f.arity
  default_mem {d : Int32} : d ∈ f.defaults → d ≠ noIndex → (p.constant? d).isSome

theorem constant_of_checkDefaults {p : Program} {name : Text} {seen : Bool} {ds : List Int32}
    (h : checkDefaults name p.constants.size seen ds = .ok ()) {d : Int32} (hd : d ∈ ds)
    (hne : d ≠ noIndex) : (p.constant? d).isSome := by
  induction ds generalizing seen with
  | nil => cases hd
  | cons d' ds ih =>
    unfold checkDefaults at h
    split at h
    · next heq =>
      split at h
      · cases h
      · exact ih h ((List.mem_cons.1 hd).resolve_left (heq ▸ hne))
    · split at h
      · next hrange =>
        rcases List.mem_cons.1 hd with rfl | hd
        · simp only [Program.constant?, hrange.1, if_true, Option.isSome_iff_exists]
          exact ⟨_, Array.getElem?_eq_getElem (by omega)⟩
        · exact ih h hd
      · cases h

theorem laid_of_checkFunction {p : Program} {expectedEntry : Nat} {f : Function}
    (h : checkFunction p expectedEntry f = .ok ()) : Laid p f := by
  obtain ⟨_, hrange, h⟩ := bind_eq_ok.1 h
  obtain ⟨_, hframe, h⟩ := bind_eq_ok.1 h
  obtain ⟨_, hlength, hdefaults⟩ := bind_eq_ok.1 h
  simp only [require_eq_ok, decide_eq_true_eq] at hrange hframe hlength
  exact ⟨hrange.2, hframe.2.1, hlength, constant_of_checkDefaults hdefaults⟩

theorem laid_of_checkFunctions {p : Program} {expectedEntry stop : Nat} {fs : List Function}
    (h : checkFunctions p expectedEntry fs = .ok stop) {f : Function} (hf : f ∈ fs) : Laid p f := by
  induction fs generalizing expectedEntry with
  | nil => cases hf
  | cons g fs ih =>
    obtain ⟨_, hg, hfs⟩ := bind_eq_ok.1 h
    rcases List.mem_cons.1 hf with rfl | hf
    · exact laid_of_checkFunction hg
    · exact ih hfs hf

theorem Verified.laid {p : Program} (hp : Verified p) {index : Nat} {f : Function}
    (hf : p.functions[index]? = some f) : Laid p f := by
  have h := hp.layout
  obtain ⟨-, -, h⟩ := bind_eq_ok.1 h
  obtain ⟨-, -, h⟩ := bind_eq_ok.1 h
  obtain ⟨stop, hfunctions, -⟩ := bind_eq_ok.1 h
  exact laid_of_checkFunctions hfunctions (Array.mem_toList_iff.2 (Array.mem_of_getElem? hf))

end Verify
end ScriptMachine
