import ScriptMachine.Proofs.Machine.Safety
import ScriptMachine.Proofs.Meaning.Agreement
import ScriptMachine.Proofs.Verify.Decision

namespace ScriptMachine
namespace Compile
open Verify Machine

theorem typing_storeDepths {p : Program} {f : Function} {owned : Nat → Prop} {φ : Assignment}
    (depths : List Nat) (depth : Nat) (h : Typing p f owned φ) :
    Typing (storeDepths p depths) { f with maxStackDepth := depth } owned φ := by
  refine ⟨h.entry, h.within, fun {pc state} hpc => ?_⟩
  rw [demands_storeDepths]
  exact h.met hpc

section

variable {options : Options} {tree : List Stmt} {functions : Array Function} {bound : Nat → Nat}
variable {p : Program} {depths : List Nat}

theorem blockTidy_source (htidy : Meaning.blockTidy tree) {i : Nat} {s : Source}
    (hs : (sources tree functions)[i]? = some s) : Meaning.blockTidy s.body := by
  cases i with
  | zero =>
    cases hs
    exact htidy
  | succ i =>
    rw [sources_succ, Option.map_eq_some_iff] at hs
    obtain ⟨unit, hunit, rfl⟩ := hs
    exact Meaning.blockTidy_declaration (List.of_mem_zip (List.mem_of_getElem? hunit)).2 htidy

theorem Compiled.returnsOutsideCleanup (h : Compiled options tree functions bound p)
    (htidy : Meaning.blockTidy tree)
    (hverify : (storeDepths p depths).verify = .ok (storeDepths p depths)) :
    ReturnsOutsideCleanup (storeDepths p depths) := by
  intro index hindex pc _ hreturn state hstate
  obtain ⟨-, found, hfound, hstored⟩ := verify_eq_ok.1 hverify
  have hlt : index < p.functions.size := by simpa [storeDepths] using hindex
  have hf := Array.getElem?_eq_getElem hlt
  obtain ⟨depth, hdepth⟩ := Meaning.getElem?_storeDepths depths hf
  obtain ⟨x, owners, howners, hx, hflow, -⟩ :=
    exploration_of_function hfound hstored.symm hdepth
  obtain ⟨s, hs⟩ := h.source hf
  obtain ⟨L, rfl, hnames, hat⟩ := (h.placed hf hs).2 ⟨rfl, rfl, rfl, rfl⟩
  obtain ⟨φ, hφ, -, houtside⟩ := typing_of_functionAt hat (h.hosts rfl (by rw [hnames]) hat)
    (.inr (blockTidy_source htidy hs) : False ∨ Meaning.blockTidy s.body)
  have htyping := (typing_iff.1 (typing_storeDepths depths depth hφ)).1
  rw [hflow] at hstate
  have hpc := (least_of_explore howners hx).1.least htyping pc state hstate
  exact (houtside pc state hpc hreturn).resolve_left id

end

end Compile
end ScriptMachine
