import ScriptMachine.Proofs.Verify.Typing

namespace ScriptMachine
namespace Verify
namespace Exploration

/-- What comes of an address that is taken from the worklist, wherever it stands there. -/
def Takes (p : Program) (f : Function) (index : Nat) (x : Exploration) (pc : Nat)
    (result : Except VerifyError Exploration) : Prop :=
  ∃ rest state ds, x.worklist.Perm (pc :: rest) ∧ x.assignment f pc = some state ∧
    ds.Perm (demands p f pc state) ∧ meetAll f index pc { x with worklist := rest } ds = result

/-- A worklist is worked off in some order, up to the first complaint. The list is that of the
addresses that were taken. -/
inductive Visits (p : Program) (f : Function) (index : Nat) :
    Exploration → List Nat → Except VerifyError Exploration → Prop
  | done {x : Exploration} : x.worklist = [] → Visits p f index x [] (.ok x)
  | refused {x : Exploration} {pc : Nat} {e : VerifyError} :
    x.Takes p f index pc (.error e) → Visits p f index x [pc] (.error e)
  | next {x y : Exploration} {pc : Nat} {trail : List Nat}
    {result : Except VerifyError Exploration} : x.Takes p f index pc (.ok y) →
    Visits p f index y trail result → Visits p f index x (pc :: trail) result

def trail (p : Program) (f : Function) (index : Nat) : Nat → Exploration → List Nat
  | 0, _ => []
  | count + 1, x =>
    match x.worklist with
    | [] => []
    | pc :: rest =>
      match x.states.getD (pc - f.entry) none with
      | none => pc :: trail p f index count { x with worklist := rest }
      | some state =>
        match meetAll f index pc { x with worklist := rest } (demands p f pc state) with
        | .error _ => [pc]
        | .ok y => pc :: trail p f index count y

section
variable {p : Program} {f : Function} {index pc target table : Nat} {state : FlowState}
variable {x y z : Exploration} {owned : Nat → Prop} {φ : Assignment}

/-- What meeting demands can change: the demands account for every new state and owner, and an
address that enters the worklist had no state before. -/
structure Adds (f : Function) (index : Nat) (ds : List Demand) (x y : Exploration) : Prop where
  found {pc : Nat} {state : FlowState} :
    y.assignment f pc = some state → x.assignment f pc = some state ∨ .reach pc state ∈ ds
  owners (t : Nat) :
    y.owners.getD t none = x.owners.getD t none ∨ .own t ∈ ds ∧ y.Owns index t
  listed {pc : Nat} : pc ∈ y.worklist → pc ∈ x.worklist ∨ x.assignment f pc = none
  nodup : (∀ pc ∈ x.worklist, (x.assignment f pc).isSome) → x.worklist.Nodup → y.worklist.Nodup

theorem adds_own (h : x.own f index pc table = .ok y) : Adds f index [.own table] x y := by
  obtain ⟨-, rfl⟩ | ⟨-, rfl⟩ := own_cases h
  · refine ⟨.inl, fun t => ?_, .inl, fun _ => id⟩
    by_cases heq : table = t
    · subst heq
      by_cases hlt : table < x.owners.size
      · exact .inr ⟨List.mem_singleton_self _, by simp [Owns, hlt]⟩
      · exact .inl (by simp [hlt])
    · exact .inl (by simp [heq])
  · exact ⟨.inl, fun _ => .inl rfl, .inl, fun _ => id⟩

theorem adds_reach (hsize : x.states.size = f.stop - f.entry)
    (h : x.reach f pc target state = .ok y) :
    Adds f index [.reach target state] x y := by
  obtain ⟨htarget, ⟨hold, rfl⟩ | ⟨-, rfl⟩⟩ := reach_cases h
  · refine ⟨fun {pc' state'} hpc => ?_, fun _ => .inl rfl, fun {pc'} hpc => ?_, ?_⟩
    · rw [assignment_set hsize htarget] at hpc
      split at hpc
      · next heq =>
        cases hpc
        exact .inr (by simp [heq])
      · exact .inl hpc
    · rcases List.mem_cons.1 hpc with rfl | hpc
      · exact .inr hold
      · exact .inl hpc
    · intro hassigned hnodup
      refine List.nodup_cons.2 ⟨fun hmem => ?_, hnodup⟩
      simpa [hold] using hassigned target hmem
  · exact ⟨.inl, fun _ => .inl rfl, .inl, fun _ => id⟩

theorem Adds.cons {d : Demand} {ds : List Demand} (hxy : Adds f index [d] x y) (hgrow : Grows f x y)
    (hyz : Adds f index ds y z) : Adds f index (d :: ds) x z where
  found h := by
    rcases hyz.found h with h | h
    · exact (hxy.found h).imp id fun h => List.mem_cons.2 (.inl (List.mem_singleton.1 h))
    · exact .inr (List.mem_cons_of_mem d h)
  owners t := by
    rcases hyz.owners t with heq | ⟨h, howns⟩
    · rcases hxy.owners t with heq' | ⟨h, howns⟩
      · exact .inl (heq.trans heq')
      · exact .inr ⟨List.mem_cons.2 (.inl (List.mem_singleton.1 h)), heq.trans howns⟩
    · exact .inr ⟨List.mem_cons_of_mem d h, howns⟩
  listed {pc} h := by
    rcases hyz.listed h with h | h
    · exact hxy.listed h
    · cases hx : x.assignment f pc with
      | none => exact .inr rfl
      | some state => simp [hgrow.assigned hx] at h
  nodup hassigned hnodup := by
    refine hyz.nodup (fun pc hpc => ?_) (hxy.nodup hassigned hnodup)
    rcases hgrow.known hpc with hold | hnew
    · obtain ⟨state, hstate⟩ := Option.isSome_iff_exists.1 (hassigned pc hold)
      rw [hgrow.assigned hstate]
      rfl
    · exact hnew

theorem adds_meetAll {ds : List Demand} (hsize : x.states.size = f.stop - f.entry)
    (hown : ∀ table, .own table ∈ ds → table < x.owners.size)
    (h : meetAll f index pc x ds = .ok y) :
    Adds f index ds x y := by
  unfold meetAll at h
  induction ds generalizing x with
  | nil =>
    cases h
    exact ⟨.inl, fun _ => .inl rfl, .inl, fun _ => id⟩
  | cons d ds ih =>
    rw [List.foldlM_cons, bind_eq_ok] at h
    obtain ⟨z, hz, hy⟩ := h
    have hxz := (grows_meet hsize (fun table h => hown table (h ▸ List.mem_cons_self)) hz).1
    have hd : Adds f index [d] x z := by
      cases d with
      | refuse e => cases hz
      | own table => exact adds_own hz
      | reach target state => exact adds_reach hsize hz
    refine hd.cons hxz (ih (hxz.size.trans hsize) (fun table h => ?_) hy)
    rw [hxz.ownersSize]
    exact hown table (List.mem_cons_of_mem d h)

/-- What an address that was taken leaves behind. -/
structure Took (p : Program) (f : Function) (index : Nat) (x : Exploration) (pc : Nat)
    (y : Exploration) : Prop where
  ongoing : Ongoing p f index y
  assigned {pc' : Nat} {state : FlowState} :
    x.assignment f pc' = some state → y.assignment f pc' = some state
  owned {i t : Nat} : x.Owns i t → y.Owns i t
  work : y.work + 1 = x.work
  found {pc' : Nat} {state' : FlowState} : y.assignment f pc' = some state' →
    x.assignment f pc' = some state' ∨
      ∃ state, x.assignment f pc = some state ∧ .reach pc' state' ∈ demands p f pc state
  owners (t : Nat) : y.owners.getD t none = x.owners.getD t none ∨
    y.Owns index t ∧ ∃ state, x.assignment f pc = some state ∧ .own t ∈ demands p f pc state
  listed {pc' : Nat} : x.worklist.Nodup → pc' ∈ y.worklist →
    pc' ∈ x.worklist ∧ pc' ≠ pc ∨ x.assignment f pc' = none
  nodup : x.worklist.Nodup → y.worklist.Nodup

theorem Ongoing.takes (hx : Ongoing p f index x) (h : x.Takes p f index pc (.ok y)) :
    Took p f index x pc y := by
  obtain ⟨rest, state, ds, hlist, hpc, hds, hmeet⟩ := h
  obtain ⟨hongoing, hgrow⟩ := hx.meetAll hlist hpc hds hmeet
  have hown (table : Nat) (ht : .own table ∈ ds) : table < x.owners.size := by
    rw [hx.ownersSize]
    exact lt_of_own_mem (hds.mem_iff.1 ht)
  have hadds := adds_meetAll (x := { x with worklist := rest }) hx.size hown hmeet
  refine ⟨hongoing, hgrow.assigned, hgrow.owned, ?_, fun h => ?_, fun t => ?_, fun hnodup h => ?_,
    fun hnodup => ?_⟩
  · have hwork := hgrow.work
    have hlength := hlist.length_eq
    simp only [Exploration.work, List.length_cons] at hwork hlength ⊢
    omega
  · exact (hadds.found h).imp id fun h => ⟨state, hpc, hds.mem_iff.1 h⟩
  · exact (hadds.owners t).imp id fun h => ⟨h.2, state, hpc, hds.mem_iff.1 h.1⟩
  · refine (hadds.listed h).imp (fun h => ⟨hlist.mem_iff.2 (List.mem_cons_of_mem pc h), ?_⟩) id
    rintro rfl
    exact (List.nodup_cons.1 (hlist.nodup_iff.1 hnodup)).1 h
  · refine hadds.nodup (fun pc' hpc' => ?_) (List.nodup_cons.1 (hlist.nodup_iff.1 hnodup)).2
    exact hx.listed (hlist.mem_iff.2 (List.mem_cons_of_mem pc hpc'))

theorem Takes.mem {result : Except VerifyError Exploration} (h : x.Takes p f index pc result) :
    pc ∈ x.worklist ∧ f.contains pc := by
  obtain ⟨rest, state, ds, hlist, hpc, -⟩ := h
  exact ⟨hlist.mem_iff.2 List.mem_cons_self, contains_of_assignment hpc⟩

theorem Visits.trail {trail : List Nat} {result : Except VerifyError Exploration}
    (h : Visits p f index x trail result) (hx : Ongoing p f index x) (hnodup : x.worklist.Nodup)
    (seen : List Nat) (hseen : ∀ pc ∈ seen, (x.assignment f pc).isSome ∧ pc ∉ x.worklist) :
    trail.Nodup ∧ ∀ pc ∈ trail, f.contains pc ∧ pc ∉ seen := by
  induction h generalizing seen with
  | done => simp
  | refused htake =>
    simp only [List.mem_singleton, forall_eq]
    exact ⟨List.pairwise_singleton _ _, htake.mem.2, fun h => (hseen _ h).2 htake.mem.1⟩
  | @next x y pc trail result htake _ ih =>
    obtain ⟨hmem, hin⟩ := htake.mem
    have htook := hx.takes htake
    -- an address that was taken has a state, and so it never enters the worklist again
    have hseen' : ∀ pc' ∈ pc :: seen, (y.assignment f pc').isSome ∧ pc' ∉ y.worklist := by
      intro pc' hpc'
      have hsome : (x.assignment f pc').isSome := by
        rcases List.mem_cons.1 hpc' with rfl | hpc'
        · exact hx.listed hmem
        · exact (hseen pc' hpc').1
      obtain ⟨state, hstate⟩ := Option.isSome_iff_exists.1 hsome
      refine ⟨by simp [htook.assigned hstate], fun hlisted => ?_⟩
      rcases htook.listed hnodup hlisted with ⟨hold, hne⟩ | hnone
      · exact (hseen pc' ((List.mem_cons.1 hpc').resolve_left hne)).2 hold
      · simp [hnone] at hstate
    obtain ⟨htrail, hall⟩ := ih htook.ongoing (htook.nodup hnodup) (pc :: seen) hseen'
    refine ⟨List.nodup_cons.2 ⟨fun h => (hall pc h).2 List.mem_cons_self, htrail⟩, ?_⟩
    intro pc' hpc'
    rcases List.mem_cons.1 hpc' with rfl | hpc'
    · exact ⟨hin, fun h => (hseen _ h).2 hmem⟩
    · exact ⟨(hall pc' hpc').1, fun h => (hall pc' hpc').2 (List.mem_cons_of_mem pc h)⟩

/-- What a worklist that was worked off leaves behind. -/
structure Explored (p : Program) (f : Function) (index : Nat) (x y : Exploration) : Prop where
  ongoing : Ongoing p f index y
  empty : y.worklist = []
  assigned {pc : Nat} {state : FlowState} :
    x.assignment f pc = some state → y.assignment f pc = some state
  owned {i t : Nat} : x.Owns i t → y.Owns i t
  owners (t : Nat) : y.owners.getD t none = x.owners.getD t none ∨ y.Owns index t ∧
    ∃ pc state, y.assignment f pc = some state ∧ .own t ∈ demands p f pc state
  least {owned : Nat → Prop} {φ : Assignment} : Typing p f owned φ →
    (∀ pc state, x.assignment f pc = some state → φ pc = some state) →
    ∀ pc state, y.assignment f pc = some state → φ pc = some state

theorem Visits.explored {trail : List Nat} (h : Visits p f index x trail (.ok y))
    (hx : Ongoing p f index x) :
    Explored p f index x y := by
  generalize hresult : Except.ok y = result at h
  induction h with
  | done hempty =>
    cases hresult
    exact ⟨hx, hempty, id, id, fun _ => .inl rfl, fun _ h => h⟩
  | refused => cases hresult
  | @next x z pc trail result htake _ ih =>
    have htook := hx.takes htake
    have hrest := ih htook.ongoing hresult
    refine ⟨hrest.ongoing, hrest.empty, fun h => hrest.assigned (htook.assigned h),
      fun h => hrest.owned (htook.owned h), fun t => ?_, fun hφ hbelow => hrest.least hφ ?_⟩
    · rcases hrest.owners t with heq | h
      · rcases htook.owners t with heq' | ⟨howns, state, hstate, hown⟩
        · exact .inl (heq.trans heq')
        · exact .inr ⟨heq.trans howns, pc, state,
            hrest.assigned (htook.assigned hstate), hown⟩
      · exact .inr h
    · intro pc' state' hpc'
      rcases htook.found hpc' with hold | ⟨state, hstate, hreach⟩
      · exact hbelow pc' state' hold
      · exact (hφ.met (hbelow pc state hstate) _ hreach).2

theorem Explored.typing (h : Explored p f index x y)
    (hentry : x.assignment f f.entry = some ⟨0, []⟩) :
    Typing p f (y.Owns index) (y.assignment f) := by
  refine ⟨h.assigned hentry, contains_of_assignment, fun {pc state} hpc => ?_⟩
  exact (h.ongoing.settled hpc).resolve_left (by simp [h.empty])

/-- An exploration that has found nothing but what a typing says, in tables the function may use. -/
structure Below (f : Function) (index : Nat) (owned : Nat → Prop) (φ : Assignment)
    (x : Exploration) : Prop where
  size : x.states.size = f.stop - f.entry
  assigned {pc : Nat} {state : FlowState} : x.assignment f pc = some state → φ pc = some state
  free {table : Nat} : owned table → x.owners.getD table none = none ∨ x.Owns index table
  listed {pc : Nat} : pc ∈ x.worklist → f.contains pc

theorem Below.own (hx : Below f index owned φ x) (h : owned table) :
    ∃ y, x.own f index pc table = .ok y ∧ Below f index owned φ y ∧
      ∀ t, y.owners.getD t none = x.owners.getD t none ∨ owned t := by
  rcases hx.free h with hnone | howns
  · refine ⟨{ x with owners := x.owners.setIfInBounds table (some index) },
      by rw [Exploration.own, hnone], ⟨hx.size, hx.assigned, ?_, hx.listed⟩, ?_⟩
    · intro t ht
      by_cases heq : table = t
      · subst heq
        by_cases hlt : table < x.owners.size
        · exact .inr (by simp [Owns, hlt])
        · exact .inl (by simp [hlt])
      · simpa [Owns, Array.getElem?_setIfInBounds, heq] using hx.free ht
    · intro t
      by_cases heq : table = t
      · exact .inr (heq ▸ h)
      · exact .inl (by simp [heq])
  · exact ⟨x, by simp [Exploration.own, show _ = some index from howns], hx, fun _ => .inl rfl⟩

theorem Below.reach (hx : Below f index owned φ x) (pc : Nat) (hin : f.contains target)
    (h : φ target = some state) :
    ∃ y, x.reach f pc target state = .ok y ∧ Below f index owned φ y ∧ y.owners = x.owners := by
  unfold Exploration.reach
  rw [if_neg (by simp [hin])]
  cases hknown : x.states.getD (target - f.entry) none with
  | none =>
    refine ⟨_, rfl, ⟨by simpa using hx.size, ?_, hx.free, ?_⟩, rfl⟩
    · intro pc' state' hpc
      rw [assignment_set hx.size hin] at hpc
      split at hpc
      · next heq => rw [heq, h, hpc]
      · exact hx.assigned hpc
    · intro pc' hpc
      rcases List.mem_cons.1 hpc with rfl | hpc
      · exact hin
      · exact hx.listed hpc
  | some known =>
    have heq : known = state := by
      have := hx.assigned (show x.assignment f target = some known by
        simp [assignment, hin, hknown])
      rw [h] at this
      cases this
      rfl
    exact ⟨x, by simp [heq], hx, rfl⟩

theorem Below.meetAll {ds : List Demand} (hx : Below f index owned φ x)
    (h : ∀ d ∈ ds, d.Met f owned φ) :
    ∃ y, meetAll f index pc x ds = .ok y ∧ Below f index owned φ y ∧
      ∀ t, y.owners.getD t none = x.owners.getD t none ∨ owned t := by
  unfold Exploration.meetAll
  induction ds generalizing x with
  | nil => exact ⟨x, rfl, hx, fun _ => .inl rfl⟩
  | cons d ds ih =>
    have hd : ∃ y, meet f index pc x d = .ok y ∧ Below f index owned φ y ∧
        ∀ t, y.owners.getD t none = x.owners.getD t none ∨ owned t := by
      have hmet := h d List.mem_cons_self
      cases d with
      | refuse e => exact hmet.elim
      | own table => exact hx.own hmet
      | reach target state =>
        obtain ⟨y, hy, hbelow, howners⟩ := hx.reach pc hmet.1 hmet.2
        exact ⟨y, hy, hbelow, fun t => .inl (by rw [howners])⟩
    obtain ⟨y, hy, hbelow, hyx⟩ := hd
    obtain ⟨z, hz, hz', hzy⟩ := ih hbelow fun d' hd' => h d' (List.mem_cons_of_mem d hd')
    refine ⟨z, by rw [List.foldlM_cons, hy]; exact hz, hz', fun t => ?_⟩
    rcases hzy t with ht | ht
    · exact (hyx t).imp ht.trans id
    · exact .inr ht

theorem Below.takes {result : Except VerifyError Exploration} (hx : Below f index owned φ x)
    (hφ : Typing p f owned φ) (h : x.Takes p f index pc result) :
    ∃ y, result = .ok y ∧ Below f index owned φ y ∧
      ∀ t, y.owners.getD t none = x.owners.getD t none ∨ owned t := by
  obtain ⟨rest, state, ds, hlist, hpc, hds, rfl⟩ := h
  have hx' : Below f index owned φ { x with worklist := rest } :=
    ⟨hx.size, hx.assigned, hx.free,
      fun h => hx.listed (hlist.mem_iff.2 (List.mem_cons_of_mem pc h))⟩
  exact hx'.meetAll fun d hd => hφ.met (hx.assigned hpc) d (hds.mem_iff.1 hd)

/-- A function that has a typing is explored without a complaint, in any order. -/
theorem Below.visits {trail : List Nat} {result : Except VerifyError Exploration}
    (hx : Below f index owned φ x) (hφ : Typing p f owned φ) (h : Visits p f index x trail result) :
    ∃ y, result = .ok y ∧ Below f index owned φ y ∧
      ∀ t, y.owners.getD t none = x.owners.getD t none ∨ owned t := by
  induction h with
  | done => exact ⟨_, rfl, hx, fun _ => .inl rfl⟩
  | refused htake =>
    obtain ⟨y, hy, -⟩ := hx.takes hφ htake
    cases hy
  | next htake _ ih =>
    obtain ⟨y, hy, hbelow, hyx⟩ := hx.takes hφ htake
    cases hy
    obtain ⟨z, hz, hz', hzy⟩ := ih hbelow
    refine ⟨z, hz, hz', fun t => ?_⟩
    rcases hzy t with ht | ht
    · exact (hyx t).imp ht.trans id
    · exact .inr ht

theorem assignment_add (hx : x.states.size = f.stop - f.entry) {i : Nat} (hi : i < x.states.size) :
    x.assignment f (f.entry + i) = x.states[i] := by
  have hin : f.contains (f.entry + i) := by
    rw [Function.contains_iff]
    omega
  simp [assignment, hin, Array.getD_eq_getD_getElem?, hi]

theorem states_ext (hx : x.states.size = f.stop - f.entry) (hy : y.states.size = f.stop - f.entry)
    (h : x.assignment f = y.assignment f) :
    x.states = y.states := by
  apply Array.ext (hx.trans hy.symm)
  intro i hi hi'
  rw [← assignment_add hx hi, ← assignment_add hy hi', h]

/-- All orders in which a worklist is worked off come to the same. -/
theorem Visits.agree {trail trail' : List Nat} {result : Except VerifyError Exploration}
    (hx : Ongoing p f index x) (hentry : x.assignment f f.entry = some ⟨0, []⟩)
    (h : Visits p f index x trail (.ok y)) (h' : Visits p f index x trail' result) :
    ∃ z, result = .ok z ∧ z.states = y.states ∧ z.owners = y.owners := by
  have hy := h.explored hx
  have hytyping := hy.typing hentry
  have hbelow : Below f index (y.Owns index) (y.assignment f) x := by
    refine ⟨hx.size, hy.assigned, fun {t} ht => ?_, fun hpc => ?_⟩
    · cases howner : x.owners.getD t none with
      | none => exact .inl rfl
      | some i =>
        have hi : y.Owns i t := hy.owned howner
        rw [Owns, ht] at hi
        cases hi
        exact .inr howner
    · obtain ⟨state, hstate⟩ := Option.isSome_iff_exists.1 (hx.listed hpc)
      exact contains_of_assignment hstate
  obtain ⟨z, rfl, hzy, -⟩ := hbelow.visits hytyping h'
  have hz := h'.explored hx
  have hztyping := hz.typing hentry
  have hsame : z.assignment f = y.assignment f := by
    funext pc
    apply Option.ext
    intro state
    exact ⟨hzy.assigned, hy.least hztyping (fun _ _ => hz.assigned) pc state⟩
  refine ⟨z, rfl, states_ext hz.ongoing.size hy.ongoing.size hsame, ?_⟩
  have hsize : z.owners.size = y.owners.size :=
    hz.ongoing.ownersSize.trans hy.ongoing.ownersSize.symm
  -- A table that one of the two has taken is demanded at a state that both have found.
  have howners (t : Nat) : z.owners.getD t none = y.owners.getD t none := by
    rcases hz.owners t with hzt | ⟨hzt, pc, state, hpc, hown⟩
    · rcases hy.owners t with hyt | ⟨hyt, pc, state, hpc, hown⟩
      · rw [hzt, hyt]
      · have hmet := hztyping.met (hsame ▸ hpc) _ hown
        exact Eq.trans hmet hyt.symm
    · have hmet := hytyping.met (hsame ▸ hpc) _ hown
      exact hzt.trans (Eq.symm hmet)
  apply Array.ext hsize
  intro t ht ht'
  simpa [Array.getD_eq_getD_getElem?, ht, ht'] using howners t

theorem Ongoing.visits_run {count : Nat} (hx : Ongoing p f index x) (hwork : x.work ≤ count) :
    Visits p f index x (x.trail p f index count) (x.run p f index count) := by
  induction count generalizing x with
  | zero =>
    simp only [Exploration.work] at hwork
    exact .done (List.length_eq_zero_iff.1 (by omega))
  | succ count ih =>
    cases hlist : x.worklist with
    | nil =>
      simp only [Exploration.run, Exploration.trail, hlist]
      exact .done hlist
    | cons pc rest =>
      obtain ⟨state, hstate⟩ := Option.isSome_iff_exists.1
        (hx.listed (hlist ▸ List.mem_cons_self))
      have hget : x.states.getD (pc - f.entry) none = some state := by
        simpa [assignment, contains_of_assignment hstate] using hstate
      have htakes : x.Takes p f index pc
          (Exploration.meetAll f index pc { x with worklist := rest } (demands p f pc state)) :=
        ⟨rest, state, _, hlist ▸ .refl _, hstate, .refl _, rfl⟩
      simp only [Exploration.run, Exploration.trail, hlist, hget]
      cases hmeet : Exploration.meetAll f index pc { x with worklist := rest }
          (demands p f pc state) with
      | error e =>
        rw [hmeet] at htakes
        exact .refused htakes
      | ok y =>
        rw [hmeet] at htakes
        have htook := hx.takes htakes
        exact .next htakes (ih htook.ongoing (by have := htook.work; omega))

theorem mem_states_of_assignment (h : x.assignment f pc = some state) :
    some state ∈ x.states.toList := by
  unfold assignment at h
  split at h
  · rw [Array.getD_eq_getD_getElem?] at h
    cases hget : x.states[pc - f.entry]? with
    | none => simp [hget] at h
    | some state? =>
      simp only [hget, Option.getD_some] at h
      rw [← h]
      exact Array.mem_toList_iff.2 (Array.mem_of_getElem? hget)
  · cases h

theorem maxDepth_greatest (h : x.states.toList ≠ []) :
    let depths := x.states.toList.map fun state? => state?.elim 0 FlowState.depth
    x.maxDepth ∈ depths ∧ ∀ d ∈ depths, d ≤ x.maxDepth := by
  intro depths
  have hdepths : depths ≠ [] := by simpa [depths] using h
  have hmax : x.maxDepth = depths.max?.getD 0 := by
    rw [maxDepth, ← Array.foldl_toList, ← List.foldl_map, List.foldl_max, Nat.zero_max]
  rw [List.max?_eq_some_max hdepths, Option.getD_some] at hmax
  exact (List.max_eq_iff hdepths).1 hmax.symm

theorem depth_le_maxDepth (h : x.assignment f pc = some state) : state.depth ≤ x.maxDepth := by
  have hmem := mem_states_of_assignment h
  exact (maxDepth_greatest (List.ne_nil_of_mem hmem)).2 _ (List.mem_map_of_mem hmem)

theorem exists_depth_eq_maxDepth (hsize : x.states.size = f.stop - f.entry)
    (h : x.assignment f pc = some state) :
    ∃ pc state, x.assignment f pc = some state ∧ state.depth = x.maxDepth := by
  have hne := List.ne_nil_of_mem (mem_states_of_assignment h)
  obtain ⟨state?, hmem, heq⟩ := List.mem_map.1 (maxDepth_greatest hne).1
  cases state? with
  | none =>
    -- an address without a state counts as empty, and then no state is deeper than that
    have hle := depth_le_maxDepth h
    exact ⟨pc, state, h, Nat.le_antisymm hle (heq ▸ Nat.zero_le _)⟩
  | some deepest =>
    obtain ⟨i, hi, hdeepest⟩ := List.mem_iff_getElem.1 hmem
    exact ⟨f.entry + i, deepest, (assignment_add hsize hi).trans hdeepest, heq⟩

def start (f : Function) (owners : Array (Option Nat)) : Exploration :=
  ⟨(Array.replicate (f.stop - f.entry) none).setIfInBounds 0 (some ⟨0, []⟩), [f.entry], owners⟩

theorem reach_start (owners : Array (Option Nat)) (h : f.entry < f.stop) :
    reach ⟨Array.replicate (f.stop - f.entry) none, [], owners⟩ f f.entry f.entry ⟨0, []⟩ =
      .ok (start f owners) := by
  have hpos : 0 < f.stop - f.entry := by omega
  simp [reach, start, Function.contains_iff, h, Array.getD_eq_getD_getElem?, hpos]

theorem assignment_start {owners : Array (Option Nat)} (h : f.entry < f.stop) (pc : Nat) :
    (start f owners).assignment f pc = if pc = f.entry then some ⟨0, []⟩ else none := by
  let blank : Exploration := ⟨Array.replicate (f.stop - f.entry) none, [], owners⟩
  have hset : (start f owners).assignment f pc =
      if pc = f.entry then some ⟨0, []⟩ else blank.assignment f pc := by
    rw [← assignment_set (by simp [blank]) (by simp [Function.contains_iff, h]), Nat.sub_self]
    rfl
  have hblank : blank.assignment f pc = none := by
    simp only [blank, assignment, Array.getD_eq_getD_getElem?, Array.getElem?_replicate]
    split
    · split <;> rfl
    · rfl
  rw [hset, hblank]

theorem ongoing_start {owners : Array (Option Nat)} (index : Nat) (h : f.entry < f.stop)
    (howners : owners.size = p.tries.size) : Ongoing p f index (start f owners) := by
  refine ⟨by simp [start], howners, fun {pc} hpc => ?_, fun {pc state} hpc => ?_⟩
  · rw [assignment_start h, if_pos (List.mem_singleton.1 hpc)]
    rfl
  · rw [assignment_start h] at hpc
    split at hpc
    · next heq => exact .inl (List.mem_singleton.2 heq)
    · cases hpc

theorem work_start {owners : Array (Option Nat)} (h : f.entry < f.stop) :
    (start f owners).work = f.stop - f.entry := by
  simpa [Exploration.work] using (grows_reach (by simp) (reach_start owners h)).1.work

end
end Exploration

open Exploration

section
variable {p : Program} {f : Function} {index : Nat} {owners : Array (Option Nat)}

theorem explore_eq (h : f.entry < f.stop) :
    explore p index f owners = (start f owners).run p f index (f.stop - f.entry) := by
  simp only [explore, reach_start owners h]
  rfl

theorem visits_explore (index : Nat) (h : f.entry < f.stop) (howners : owners.size = p.tries.size) :
    Visits p f index (start f owners) ((start f owners).trail p f index (f.stop - f.entry))
      (explore p index f owners) := by
  rw [explore_eq h]
  exact (ongoing_start index h howners).visits_run (Nat.le_of_eq (work_start h))

theorem lt_of_explore {x : Exploration} (h : explore p index f owners = .ok x) :
    f.entry < f.stop := by
  obtain ⟨start, hstart, -⟩ := bind_eq_ok.1 h
  have hin := Function.contains_iff.1 (grows_reach (by simp) hstart).2.1
  exact hin.2

theorem explored_of_explore {x : Exploration} (howners : owners.size = p.tries.size)
    (h : explore p index f owners = .ok x) : Explored p f index (start f owners) x := by
  have hlt := lt_of_explore h
  have hvisits := visits_explore index hlt howners
  rw [h] at hvisits
  exact hvisits.explored (ongoing_start index hlt howners)

theorem typing_of_explore {x : Exploration} (howners : owners.size = p.tries.size)
    (h : explore p index f owners = .ok x) :
    Typing p f (x.Owns index) (x.assignment f) ∧ x.owners.size = p.tries.size := by
  have hx := explored_of_explore howners h
  exact ⟨hx.typing (by rw [assignment_start (lt_of_explore h), if_pos rfl]), hx.ongoing.ownersSize⟩

/-- A function with a flow typing is explored without a complaint, and nothing is found but what
the typing says. -/
theorem explore_of_typing {owned : Nat → Prop} {φ : Assignment} (index : Nat)
    (hφ : Typing p f owned φ) (howners : owners.size = p.tries.size)
    (hfree : ∀ t, owned t → owners.getD t none = none) :
    ∃ x, explore p index f owners = .ok x ∧
      (∀ pc state, x.assignment f pc = some state → φ pc = some state) ∧
      ∀ t, x.owners.getD t none = owners.getD t none ∨ owned t := by
  have hlt : f.entry < f.stop := by
    have hin := Function.contains_iff.1 (hφ.within hφ.entry)
    exact hin.2
  have hstart : Below f index owned φ (start f owners) := by
    refine ⟨by simp [start], fun {pc state} h => ?_, fun h => .inl (hfree _ h), fun {pc} hpc => ?_⟩
    · rw [assignment_start hlt] at h
      split at h
      · next heq => rw [heq, hφ.entry, h]
      · cases h
    · rw [List.mem_singleton.1 hpc]
      exact hφ.within hφ.entry
  obtain ⟨x, hx, hbelow, hfound⟩ := hstart.visits hφ (visits_explore index hlt howners)
  exact ⟨x, hx, fun _ _ => hbelow.assigned, hfound⟩

end
end Verify
end ScriptMachine
