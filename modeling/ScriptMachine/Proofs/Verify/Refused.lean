import ScriptMachine.Verify.Basic

namespace ScriptMachine
namespace Verify

/-- A refusal says which rule is broken, and never comes from a code without meaning. -/
def Lawful (x : Except VerifyError α) : Prop := ∀ u, x ≠ .error (.unknownOpcode u)

theorem lawful_ok (a : α) : Lawful (.ok a) := nofun

theorem Lawful.bind {x : Except VerifyError α} {g : α → Except VerifyError β} (hx : Lawful x)
    (hg : ∀ a, Lawful (g a)) : Lawful (x >>= g) := by
  cases x with
  | error e =>
    intro u h
    cases h
    exact hx u rfl
  | ok a => exact hg a

theorem lawful_require {condition : Bool} {e : VerifyError} (he : ∀ u, e ≠ .unknownOpcode u) :
    Lawful (require condition e) := by
  unfold require
  split
  · exact lawful_ok ()
  · intro u h
    cases h
    exact he u rfl

theorem lawful_checkDefaults (name : Text) (constants : Nat) (seen : Bool) (ds : List Int32) :
    Lawful (checkDefaults name constants seen ds) := by
  induction ds generalizing seen with
  | nil => exact lawful_ok ()
  | cons d ds ih =>
    unfold checkDefaults
    split
    · split
      · nofun
      · exact ih seen
    · split
      · exact ih true
      · nofun

theorem lawful_checkFunctions (p : Program) (entry : Nat) (fs : List Function) :
    Lawful (checkFunctions p entry fs) := by
  induction fs generalizing entry with
  | nil => exact lawful_ok entry
  | cons f fs ih =>
    refine Lawful.bind ?_ fun _ => ih f.stop
    refine (lawful_require (by nofun)).bind fun _ => (lawful_require (by nofun)).bind fun _ => ?_
    exact (lawful_require (by nofun)).bind fun _ => lawful_checkDefaults _ _ _ _

theorem lawful_checkDebug (p : Program) (debug : DebugInfo) : Lawful (checkDebug p debug) := by
  refine (lawful_require (by nofun)).bind fun _ => (lawful_require (by nofun)).bind fun _ => ?_
  induction p.functions.toList.zip debug.locals.toList with
  | nil => exact lawful_ok ()
  | cons pair pairs ih => exact (lawful_require (by nofun)).bind fun _ => ih

theorem lawful_checkLayout (p : Program) : Lawful (checkLayout p) := by
  refine (lawful_require (by nofun)).bind fun _ => (lawful_require (by nofun)).bind fun _ => ?_
  cases p.debug with
  | none =>
    exact (lawful_checkFunctions _ _ _).bind fun _ => (lawful_require (by nofun)).bind fun _ =>
      lawful_ok ()
  | some debug =>
    exact (lawful_checkFunctions _ _ _).bind fun _ =>
      (lawful_require (by nofun)).bind fun _ => lawful_checkDebug p debug

theorem unknown_not_mem_fallThrough {f : Function} {pc : Nat} {state : FlowState}
    {u : UnknownOpcode} : .refuse (.unknownOpcode u) ∉ fallThrough f pc state := by
  unfold fallThrough
  split <;> simp

theorem unknown_not_mem_tryDemands {p : Program} {f : Function} {pc table : Nat}
    {state : FlowState} {u : UnknownOpcode} :
    .refuse (.unknownOpcode u) ∉ tryDemands p f pc table state := by
  simp only [tryDemands, cleanupDemands, List.cons_append, List.mem_cons, List.mem_append,
    List.mem_map]
  rintro (h | ⟨clause, -, h⟩ | h)
  · cases h
  · unfold clauseDemand at h
    split at h
    · cases h
    · split at h <;> cases h
  · split at h
    · cases h
    · split at h <;> simp at h

theorem unknown_not_mem_demands {p : Program} {f : Function} {pc : Nat} {state : FlowState}
    {u : UnknownOpcode} (hcode : ∀ ins ∈ p.code.toList, ins.op?.isSome) :
    .refuse (.unknownOpcode u) ∉ demands p f pc state := by
  unfold demands
  split
  case h_1 => simp
  case h_2 ins hins =>
    obtain ⟨op, hop⟩ := Option.isSome_iff_exists.1
      (hcode ins (Array.mem_toList_iff.2 (Array.mem_of_getElem? hins)))
    simp only [Instruction.op, hop]
    split
    case h_1 => simp
    case h_2 =>
      unfold successorDemands
      split
      case h_2 | h_3 =>
        split
        · split <;> simp
        · simp
      case h_5 =>
        rw [List.mem_append]
        exact not_or.2 ⟨unknown_not_mem_tryDemands, unknown_not_mem_fallThrough⟩
      case h_6 => split <;> simp
      all_goals simp [unknown_not_mem_fallThrough]

theorem lawful_meet {f : Function} {index pc : Nat} {x : Exploration} {d : Demand}
    (hd : ∀ u, d ≠ .refuse (.unknownOpcode u)) : Lawful (Exploration.meet f index pc x d) := by
  intro u h
  cases d with
  | refuse e =>
    cases h
    exact hd u rfl
  | own table =>
    simp only [Exploration.meet, Exploration.own] at h
    split at h
    · cases h
    · split at h <;> cases h
  | reach target state =>
    simp only [Exploration.meet, Exploration.reach] at h
    split at h
    · cases h
    · split at h
      · cases h
      · split at h
        · cases h
        · split at h <;> cases h

theorem lawful_meetAll {f : Function} {index pc : Nat} {x : Exploration} {ds : List Demand}
    (hds : ∀ u, .refuse (.unknownOpcode u) ∉ ds) :
    Lawful (Exploration.meetAll f index pc x ds) := by
  unfold Exploration.meetAll
  induction ds generalizing x with
  | nil => exact lawful_ok x
  | cons d ds ih =>
    rw [List.foldlM_cons]
    refine (lawful_meet fun u hu => hds u (hu ▸ List.mem_cons_self)).bind fun y => ?_
    exact ih fun u hu => hds u (List.mem_cons_of_mem d hu)

theorem lawful_run {p : Program} {f : Function} {index count : Nat} {x : Exploration}
    (hcode : ∀ ins ∈ p.code.toList, ins.op?.isSome) : Lawful (x.run p f index count) := by
  induction count generalizing x with
  | zero => exact lawful_ok x
  | succ count ih =>
    unfold Exploration.run
    split
    · exact lawful_ok x
    · split
      · exact ih
      · exact (lawful_meetAll fun u => unknown_not_mem_demands hcode).bind fun y => ih

theorem lawful_functionDepths {p : Program} {index : Nat} {owners : Array (Option Nat)}
    {fs : List Function} {u : UnknownOpcode} (hcode : ∀ ins ∈ p.code.toList, ins.op?.isSome) :
    (functionDepths p index owners fs).2 ≠ some (.unknownOpcode u) := by
  induction fs generalizing index owners with
  | nil => nofun
  | cons f fs ih =>
    have hexplore : Lawful (explore p index f owners) := by
      refine Lawful.bind ?_ fun _ => lawful_run hcode
      exact (lawful_meet nofun :
        Lawful (Exploration.meet f index f.entry _ (.reach f.entry ⟨0, []⟩)))
    unfold functionDepths
    cases hx : explore p index f owners with
    | error e =>
      rintro ⟨⟩
      exact hexplore u hx
    | ok x => exact ih

theorem lawful_verify {p : Program} (hcode : ∀ ins ∈ p.code.toList, ins.op?.isSome) :
    Lawful p.verify := by
  unfold Program.verify inspect
  intro u h
  cases hlayout : checkLayout p with
  | error e =>
    simp only [hlayout, Except.error.injEq] at h
    exact lawful_checkLayout p u (h ▸ hlayout)
  | ok _ =>
    simp only [hlayout] at h
    split at h
    · next e herror =>
      cases h
      exact lawful_functionDepths hcode herror
    · cases h

end Verify
end ScriptMachine
