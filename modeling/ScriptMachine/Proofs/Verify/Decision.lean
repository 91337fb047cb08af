import ScriptMachine.Proofs.Verify.Rules

namespace ScriptMachine
namespace Verify

/-- The flow rules of a program: each function keeps them, and no two push the same try table. -/
structure FlowTyped (p : Program) (φ : Nat → Assignment) : Prop where
  function {i : Nat} {f : Function} : p.functions[i]? = some f → FlowTyping p f (φ i)
  apart {i j table : Nat} : i < p.functions.size → j < p.functions.size →
    Pushes p (φ i) table → Pushes p (φ j) table → i = j

/-- The flow typing of a function that every other one contains. -/
structure Least (p : Program) (f : Function) (φ : Assignment) : Prop where
  typing : FlowTyping p f φ
  least {ψ : Assignment} : FlowTyping p f ψ →
    ∀ pc state, φ pc = some state → ψ pc = some state

/-- The largest depth in an assignment. -/
structure Deepest (φ : Assignment) (depth : Nat) : Prop where
  bound {pc : Nat} {state : FlowState} : φ pc = some state → state.depth ≤ depth
  attained : ∃ pc state, φ pc = some state ∧ state.depth = depth

open Exploration

/-- Functions are explored one after the other, each in some order, up to the first complaint: the
addresses that were taken in each of them, and the depths when there is no complaint. -/
inductive Surveys (p : Program) : Nat → Array (Option Nat) → List Function → List (List Nat) →
    Option (List Nat) → Prop
  | nil {index : Nat} {owners : Array (Option Nat)} : Surveys p index owners [] [] (some [])
  | refused {index : Nat} {owners : Array (Option Nat)} {f : Function} {fs : List Function}
    {trail : List Nat} {e : VerifyError} : Visits p f index (start f owners) trail (.error e) →
    Surveys p index owners (f :: fs) [trail] none
  | next {index : Nat} {owners : Array (Option Nat)} {f : Function} {fs : List Function}
    {trail : List Nat} {trails : List (List Nat)} {x : Exploration} {depths? : Option (List Nat)} :
    Visits p f index (start f owners) trail (.ok x) →
    Surveys p (index + 1) x.owners fs trails depths? →
    Surveys p index owners (f :: fs) (trail :: trails) (depths?.map (x.maxDepth :: ·))

/-- The addresses that verification takes from its worklists, function by function. -/
def trails (p : Program) : Nat → Array (Option Nat) → List Function → List (List Nat)
  | _, _, [] => []
  | index, owners, f :: fs =>
    (start f owners).trail p f index (f.stop - f.entry) ::
      match explore p index f owners with
      | .error _ => []
      | .ok x => trails p (index + 1) x.owners fs

/-- The depths of functions none of which is refused. -/
def depths? (p : Program) (index : Nat) (owners : Array (Option Nat)) (fs : List Function) :
    Option (List Nat) :=
  match functionDepths p index owners fs with
  | (depths, none) => some depths
  | (_, some _) => none

section
variable {p : Program} {f : Function} {fs : List Function} {index : Nat}
  {owners : Array (Option Nat)}

theorem depths?_cons_error {e : VerifyError} (h : explore p index f owners = .error e) :
    depths? p index owners (f :: fs) = none := by
  simp [depths?, functionDepths, h]

theorem depths?_cons_ok {x : Exploration} (h : explore p index f owners = .ok x) :
    depths? p index owners (f :: fs) =
      (depths? p (index + 1) x.owners fs).map (x.maxDepth :: ·) := by
  unfold depths?
  cases hfs : functionDepths p (index + 1) x.owners fs with
  | mk depths e? => cases e? <;> simp [functionDepths, h, hfs]

/-- The exploration of a function finds its least typing. -/
theorem least_of_explore {x : Exploration} (howners : owners.size = p.tries.size)
    (h : explore p index f owners = .ok x) : Least p f (x.assignment f) ∧
      Deepest (x.assignment f) x.maxDepth ∧ ∀ t, Pushes p (x.assignment f) t → x.Owns index t := by
  have hlt := lt_of_explore h
  have hx := explored_of_explore howners h
  obtain ⟨htyping, howns⟩ := typing_iff.1 (typing_of_explore howners h).1
  refine ⟨⟨htyping, fun {ψ} hψ => ?_⟩, ⟨depth_le_maxDepth, ?_⟩, howns⟩
  · refine hx.least (typing_iff.2 ⟨hψ, fun _ _ => trivial⟩ : Typing p f (fun _ => True) ψ) ?_
    intro pc state hpc
    rw [assignment_start hlt] at hpc
    split at hpc
    · next heq => rw [heq, hψ.entry, hpc]
    · cases hpc
  · exact exists_depth_eq_maxDepth hx.ongoing.size htyping.entry

theorem owns_of_explorations {x : Exploration} {i k t : Nat} (howners : owners.size = p.tries.size)
    (h : (explorations p index owners fs)[k]? = some x) (howns : owners.getD t none = some i) :
    x.Owns i t := by
  induction fs generalizing index owners k with
  | nil => simp [explorations] at h
  | cons f fs ih =>
    unfold explorations at h
    cases hy : explore p index f owners with
    | error e => simp [hy] at h
    | ok y =>
      simp only [hy] at h
      have hkeep : y.Owns i t := (explored_of_explore howners hy).owned howns
      cases k with
      | zero =>
        cases h
        exact hkeep
      | succ k => exact ih (typing_of_explore howners hy).2 (by simpa using h) hkeep

theorem owns_of_le {x y : Exploration} {i j k t : Nat} (howners : owners.size = p.tries.size)
    (hx : (explorations p index owners fs)[j]? = some x)
    (hy : (explorations p index owners fs)[k]? = some y) (hle : j ≤ k) (howns : x.Owns i t) :
    y.Owns i t := by
  induction fs generalizing index owners j k with
  | nil => simp [explorations] at hx
  | cons f fs ih =>
    unfold explorations at hx hy
    cases hz : explore p index f owners with
    | error e => simp [hz] at hx
    | ok z =>
      simp only [hz] at hx hy
      have hsize := (typing_of_explore howners hz).2
      cases k with
      | zero =>
        obtain rfl : j = 0 := by omega
        rw [hx] at hy
        cases hy
        exact howns
      | succ k =>
        cases j with
        | zero =>
          cases hx
          exact owns_of_explorations hsize (by simpa using hy) howns
        | succ j => exact ih hsize (by simpa using hx) (by simpa using hy) (by omega)

theorem functionDepths_of_flowTypings {φ : Nat → Assignment}
    (hfs : ∀ {j f}, fs[j]? = some f → FlowTyping p f (φ (index + j)))
    (hapart : ∀ {i j t}, i < fs.length → j < fs.length → Pushes p (φ (index + i)) t →
      Pushes p (φ (index + j)) t → i = j)
    (howners : owners.size = p.tries.size)
    (hfree : ∀ {j t}, j < fs.length → Pushes p (φ (index + j)) t → owners.getD t none = none) :
    (functionDepths p index owners fs).2 = none := by
  induction fs generalizing index owners with
  | nil => rfl
  | cons f fs ih =>
    have hshift (j : Nat) : index + 1 + j = index + (j + 1) := by omega
    have hφ : FlowTyping p f (φ index) := hfs (j := 0) rfl
    obtain ⟨x, hx, -, hfound⟩ := explore_of_typing index (typing_iff.2 ⟨hφ, fun _ h => h⟩) howners
      fun t ht => hfree (j := 0) (by simp) ht
    simp only [functionDepths, hx]
    refine ih ?_ ?_ (typing_of_explore howners hx).2 ?_
    · intro j g hg
      rw [hshift]
      exact hfs (by simpa using hg)
    · intro i j t hi hj hpi hpj
      rw [hshift] at hpi hpj
      have := hapart (by simpa using hi) (by simpa using hj) hpi hpj
      omega
    · intro j t hj ht
      rw [hshift] at ht
      rcases hfound t with hkept | hpushed
      · rw [hkept]
        exact hfree (by simpa using hj) ht
      · -- a table that the first function has taken is not pushed by a later one
        have := hapart (i := 0) (by simp) (by simpa using hj) hpushed ht
        omega

theorem surveys_trails (hfs : ∀ f ∈ fs, f.entry < f.stop) (howners : owners.size = p.tries.size) :
    Surveys p index owners fs (trails p index owners fs) (depths? p index owners fs) := by
  induction fs generalizing index owners with
  | nil => exact .nil
  | cons f fs ih =>
    have hvisits := visits_explore index (hfs f List.mem_cons_self) howners
    unfold trails
    cases hx : explore p index f owners with
    | error e =>
      rw [hx] at hvisits
      rw [depths?_cons_error hx]
      exact .refused hvisits
    | ok x =>
      rw [hx] at hvisits
      rw [depths?_cons_ok hx]
      exact .next hvisits (ih (fun g hg => hfs g (List.mem_cons_of_mem f hg))
        (typing_of_explore howners hx).2)

/-- All surveys come to the same, and none of them takes an address twice. -/
theorem Surveys.agree {trails : List (List Nat)} {result : Option (List Nat)}
    (h : Surveys p index owners fs trails result) (hfs : ∀ f ∈ fs, f.entry < f.stop)
    (howners : owners.size = p.tries.size) :
    result = depths? p index owners fs ∧ ∀ trail ∈ trails, trail.Nodup := by
  induction h with
  | nil => exact ⟨rfl, by simp⟩
  | @refused index owners f fs trail e hvisits =>
    have hlt := hfs f List.mem_cons_self
    have hstart := ongoing_start index hlt howners
    refine ⟨?_, ?_⟩
    · cases hx : explore p index f owners with
      | error e => rw [depths?_cons_error hx]
      | ok x =>
        have hown := visits_explore index hlt howners
        rw [hx] at hown
        -- had `explore` no complaint about the function, there would be none in this order either
        obtain ⟨z, hz, -⟩ := hown.agree hstart (by rw [assignment_start hlt, if_pos rfl]) hvisits
        cases hz
    · intro trail' htrail
      rw [List.mem_singleton.1 htrail]
      exact (hvisits.trail hstart (List.pairwise_singleton _ _) [] (by simp)).1
  | @next index owners f fs trail trails x depths hvisits _ ih =>
    have hlt := hfs f List.mem_cons_self
    have hstart := ongoing_start index hlt howners
    have hown := visits_explore index hlt howners
    obtain ⟨z, hz, hstates, hsame⟩ :=
      hvisits.agree hstart (by rw [assignment_start hlt, if_pos rfl]) hown
    have hsize : x.owners.size = p.tries.size := by
      rw [← hsame]
      exact (typing_of_explore howners hz).2
    obtain ⟨hdepths, htrails⟩ := ih (fun g hg => hfs g (List.mem_cons_of_mem f hg)) hsize
    refine ⟨?_, fun trail' htrail => ?_⟩
    · rw [depths?_cons_ok hz, hdepths, hsame, maxDepth, maxDepth, hstates]
    · rcases List.mem_cons.1 htrail with rfl | htrail
      · exact (hvisits.trail hstart (List.pairwise_singleton _ _) [] (by simp)).1
      · exact htrails trail' htrail

end

theorem verify_toOption {p : Program} (h : WellFormed p) : p.verify.toOption =
    (depths? p 0 (Array.replicate p.tries.size none) p.functions.toList).map (storeDepths p) := by
  unfold Program.verify inspect depths?
  rw [checkLayout_eq_ok.2 h]
  dsimp only
  cases functionDepths p 0 (Array.replicate p.tries.size none) p.functions.toList with
  | mk depths e? => cases e? <;> rfl

theorem flowTyped_of_verify {p q : Program} (h : p.verify = .ok q) : ∃ φ, FlowTyped p φ := by
  obtain ⟨-, depths, hdepths, -⟩ := verify_eq_ok.1 h
  have hfree : (Array.replicate p.tries.size (none : Option Nat)).size = p.tries.size := by simp
  obtain ⟨hmap, hlength⟩ := functionDepths_eq hdepths
  let xs := explorations p 0 (Array.replicate p.tries.size none) p.functions.toList
  have hxs {i : Nat} (hi : i < p.functions.size) :
      ∃ f x owners, p.functions[i]? = some f ∧ xs[i]? = some x ∧ owners.size = p.tries.size ∧
        explore p i f owners = .ok x ∧ p.flowState? i = x.assignment f := by
    have hlt : i < xs.length := by
      have hsame : xs.length = depths.length := by simp [hmap, xs]
      simp only [Array.length_toList] at hlength
      omega
    obtain ⟨f, owners, hf, hsize, hexplore⟩ :=
      explorations_getElem? hfree (List.getElem?_eq_getElem hlt)
    rw [Array.getElem?_toList] at hf
    rw [Nat.zero_add] at hexplore
    refine ⟨f, xs[i], owners, hf, List.getElem?_eq_getElem hlt, hsize, hexplore, ?_⟩
    funext pc
    simp only [Program.flowState?, hf, Option.bind_eq_bind, Option.bind_some]
    rw [show (explorations p 0 _ _)[i]? = some xs[i] from List.getElem?_eq_getElem hlt]
    rfl
  refine ⟨p.flowState?, fun {i f} hf => ?_, fun {i j t} hi hj hpi hpj => ?_⟩
  · obtain ⟨g, x, owners, hg, -, hsize, hexplore, hflow⟩ :=
      hxs (Array.getElem?_eq_some_iff.1 hf).1
    rw [hf] at hg
    cases hg
    rw [hflow]
    exact (least_of_explore hsize hexplore).1.typing
  · obtain ⟨f, x, owners, -, hx, hsize, hexplore, hflow⟩ := hxs hi
    obtain ⟨g, y, owners', -, hy, hsize', hexplore', hflow'⟩ := hxs hj
    have howns : x.Owns i t := (least_of_explore hsize hexplore).2.2 t (hflow ▸ hpi)
    have howns' : y.Owns j t := (least_of_explore hsize' hexplore').2.2 t (hflow' ▸ hpj)
    -- The later of the two has kept the table for the earlier.
    rcases Nat.le_total i j with hle | hle
    · have hboth := owns_of_le hfree hx hy hle howns
      rw [Owns, howns'] at hboth
      exact (Option.some.inj hboth).symm
    · have hboth := owns_of_le hfree hy hx hle howns'
      rw [Owns, howns] at hboth
      exact Option.some.inj hboth

theorem verify_of_flowTyped {p : Program} {φ : Nat → Assignment} (hp : WellFormed p)
    (hφ : FlowTyped p φ) : ∃ q, p.verify = .ok q := by
  have hnone : (functionDepths p 0 (Array.replicate p.tries.size none) p.functions.toList).2 =
      none := by
    refine functionDepths_of_flowTypings (φ := φ) ?_ ?_ (by simp) ?_
    · intro j f hf
      rw [Array.getElem?_toList] at hf
      rw [Nat.zero_add]
      exact hφ.function hf
    · intro i j t hi hj hpi hpj
      rw [Nat.zero_add] at hpi hpj
      exact hφ.apart (by simpa using hi) (by simpa using hj) hpi hpj
    · intro j t _ _
      simp only [Array.getD_eq_getD_getElem?, Array.getElem?_replicate]
      split <;> rfl
  cases hdepths : functionDepths p 0 (Array.replicate p.tries.size none) p.functions.toList with
  | mk depths e? =>
    rw [hdepths] at hnone
    subst hnone
    exact ⟨_, verify_eq_ok.2 ⟨checkLayout_eq_ok.2 hp, depths, hdepths, rfl⟩⟩

theorem depth_of_verify {p q : Program} (h : p.verify = .ok q) {i : Nat} {f : Function}
    (hf : p.functions[i]? = some f) : ∃ φ depth, Least p f φ ∧ Deepest φ depth ∧
      q.functions[i]? = some { f with maxStackDepth := depth } := by
  obtain ⟨-, depths, hdepths, rfl⟩ := verify_eq_ok.1 h
  obtain ⟨hmap, hlength⟩ := functionDepths_eq hdepths
  have hlt : i < depths.length := by
    rw [hlength]
    simpa using (Array.getElem?_eq_some_iff.1 hf).1
  obtain ⟨x, hx⟩ : ∃ x, (explorations p 0 (Array.replicate p.tries.size none)
      p.functions.toList)[i]? = some x :=
    ⟨_, List.getElem?_eq_getElem (by simpa [hmap] using hlt)⟩
  obtain ⟨g, owners, hg, hsize, hexplore⟩ := explorations_getElem? (by simp) hx
  rw [Array.getElem?_toList, hf] at hg
  cases hg
  obtain ⟨hleast, hdeepest, -⟩ := least_of_explore hsize hexplore
  refine ⟨_, x.maxDepth, hleast, hdeepest, ?_⟩
  have hdepth : depths[i]? = some x.maxDepth := by simp [hmap, hx]
  simp [storeDepths, hf, hdepth]

/-- Verification decides its rules. Nothing of an accepted program changes but the depths, which are
those of the least typings. Whatever the order in which the worklists are worked off, no address is
taken twice and the answer is the same. -/
theorem verify_decides (p : Program) :
    ((∃ q, p.verify = .ok q) ↔ WellFormed p ∧ ∃ φ, FlowTyped p φ) ∧
    (∀ q, p.verify = .ok q →
      q = { p with functions := q.functions } ∧ q.functions.size = p.functions.size ∧
      ∀ (i : Nat) (f : Function), p.functions[i]? = some f →
      ∃ φ depth, Least p f φ ∧ Deepest φ depth ∧
        q.functions[i]? = some { f with maxStackDepth := depth }) ∧
    (WellFormed p →
      let free := Array.replicate p.tries.size none
      let fs := p.functions.toList
      Surveys p 0 free fs (trails p 0 free fs) (depths? p 0 free fs) ∧
      ∀ trails result, Surveys p 0 free fs trails result →
        (∀ trail ∈ trails, trail.Nodup) ∧ p.verify.toOption = result.map (storeDepths p)) := by
  refine ⟨⟨?_, ?_⟩, fun q hq => ⟨?_, ?_, fun i f => depth_of_verify hq⟩, fun hp => ⟨?_, ?_⟩⟩
  · rintro ⟨q, hq⟩
    exact ⟨checkLayout_eq_ok.1 (verify_eq_ok.1 hq).1, flowTyped_of_verify hq⟩
  · rintro ⟨hp, φ, hφ⟩
    exact verify_of_flowTyped hp hφ
  · obtain ⟨-, depths, -, rfl⟩ := verify_eq_ok.1 hq
    rfl
  · obtain ⟨-, depths, -, rfl⟩ := verify_eq_ok.1 hq
    simp [storeDepths]
  · exact surveys_trails (fun f hf => (hp.formed (Array.mem_toList_iff.1 hf)).nonempty) (by simp)
  · intro trails result hsurvey
    obtain ⟨hresult, htrails⟩ := hsurvey.agree
      (fun f hf => (hp.formed (Array.mem_toList_iff.1 hf)).nonempty) (by simp)
    exact ⟨htrails, by rw [hresult, verify_toOption hp]⟩

/-- A try construct with a finally block whose handler starts with the given instruction, and a jump
out of the function that control never reaches. -/
def handlerProgram (first : Instruction) : Program where
  functions := #[⟨mainName, 0, 7, 0, 0, [], 0⟩]
  tries := #[⟨[⟨noIndex, 2⟩], 4⟩]
  code := #[.of .pushTry, .of .popTry 5, first, .of .popTry 5, .of .endFinally, .of .halt,
    .of .jump 100]

/-- A handler that drops the error has a typing, and one that leaves with the error on the stack has
none. -/
theorem verify_decides_handlerProgram :
    (∃ q φ, (handlerProgram (.of .pop)).verify = .ok q ∧
      FlowTyped (handlerProgram (.of .pop)) φ ∧ q.functions[0]?.map (·.maxStackDepth) = some 1) ∧
    ¬ ∃ φ, FlowTyped (handlerProgram (.of .popTry 5)) φ := by
  have haccepted : (handlerProgram (.of .pop)).verify.toOption.any
      fun q => q.functions[0]?.map (·.maxStackDepth) = some 1 := by decide +kernel
  have hlayout : checkLayout (handlerProgram (.of .popTry 5)) = .ok () := rfl
  have hrefused : (handlerProgram (.of .popTry 5)).verify.toOption.isNone := by decide +kernel
  constructor
  · cases hq : (handlerProgram (.of .pop)).verify with
    | error e =>
      rw [hq] at haccepted
      cases haccepted
    | ok q =>
      rw [hq] at haccepted
      obtain ⟨-, φ, hφ⟩ := (verify_decides _).1.1 ⟨q, hq⟩
      exact ⟨q, φ, rfl, hφ, of_decide_eq_true haccepted⟩
  · intro hφ
    obtain ⟨q, hq⟩ := (verify_decides _).1.2 ⟨checkLayout_eq_ok.1 hlayout, hφ⟩
    rw [hq] at hrefused
    cases hrefused

end Verify
end ScriptMachine
