import Mathlib.Data.List.Perm.Subperm
import Mathlib.Data.List.ProdSigma
import ScriptMachine.Value.Equality

namespace ScriptMachine

namespace Value

/-- Two collections of one kind are compared by content. -/
def byContent : Value → Value → Bool
  | list _, list _ => true
  | dict _, dict _ => true
  | _, _ => false

/-- The comparison of all other pairs. -/
def sameScalar : Value → Value → Bool
  | nil, nil => true
  | number x, number y => x.equal y
  | boolean b, boolean c => b == c
  | string s, string t => s == t
  | error r, error q => r == q
  | _, _ => false

end Value

namespace Heap

/-- No dictionary holds a key twice. -/
def KeysUnique (h : Heap) : Prop := ∀ d ∈ h.dicts, (d.map Prod.fst).Nodup

instance (h : Heap) : Decidable h.KeysUnique :=
  inferInstanceAs (Decidable (∀ d ∈ h.dicts, (d.map Prod.fst).Nodup))

/-- One level of agreement: the two values have one type, scalars are the same, and what the
collections hold is related. -/
def Matches (h : Heap) (R : Value → Value → Prop) : Value → Value → Prop
  | .nil, .nil => True
  | .number x, .number y => x.equal y = true
  | .boolean b, .boolean c => b = c
  | .string s, .string t => s = t
  | .error r, .error q => r = q
  | .list r, .list q =>
    (h.items r).size = (h.items q).size ∧
      ∀ (i : Nat) v w, (h.items r)[i]? = some v → (h.items q)[i]? = some w → R v w
  | .dict r, .dict q =>
    (h.entries r).length = (h.entries q).length ∧
      ∀ key v, (key, v) ∈ h.entries r → ∃ w, (key, w) ∈ h.entries q ∧ R v w
  | _, _ => False

def Bisimulation (h : Heap) (R : Value → Value → Prop) : Prop :=
  ∀ v w, R v w → h.Matches R v w

def Bisimilar (h : Heap) (v w : Value) : Prop := ∃ R, h.Bisimulation R ∧ R v w

/-- What is compared, in this order, when two collections are opened: each value of the left one
with its counterpart, if there is one. There is nothing to compare when the sizes differ. -/
def counterparts (h : Heap) : Value → Value → Option (List (Value × Option Value))
  | .list r, .list q =>
    if (h.items r).size = (h.items q).size then
      some (((h.items r).toList.zip (h.items q).toList).map fun c => (c.1, some c.2))
    else none
  | .dict r, .dict q =>
    if (h.entries r).length = (h.entries q).length then
      some ((h.entries r).map fun e => (e.2, (h.entries q).find? e.1))
    else none
  | _, _ => none

/-- The comparison without a bound: it goes from left to right and stops at the first difference,
and a pair that is open shows no difference of its own. -/
inductive Compares (h : Heap) : List (Value × Value) → Value → Value → Bool → Prop
  | scalar {path v w} : v.byContent w = false → Compares h path v w (v.sameScalar w)
  | again {path v w} : v.byContent w = true → (v, w) ∈ path → Compares h path v w true
  | sizes {path v w} : v.byContent w = true → (v, w) ∉ path → h.counterparts v w = none →
      Compares h path v w false
  | absent {path v w before x after} : v.byContent w = true → (v, w) ∉ path →
      h.counterparts v w = some (before ++ (x, none) :: after) →
      (∀ c ∈ before, c.2.isSome) →
      (∀ x y, (x, some y) ∈ before → Compares h ((v, w) :: path) x y true) →
      Compares h path v w false
  | differs {path v w before x y after} : v.byContent w = true → (v, w) ∉ path →
      h.counterparts v w = some (before ++ (x, some y) :: after) →
      (∀ c ∈ before, c.2.isSome) →
      (∀ x y, (x, some y) ∈ before → Compares h ((v, w) :: path) x y true) →
      Compares h ((v, w) :: path) x y false → Compares h path v w false
  | same {path v w parts} : v.byContent w = true → (v, w) ∉ path →
      h.counterparts v w = some parts →
      (∀ c ∈ parts, c.2.isSome) →
      (∀ x y, (x, some y) ∈ parts → Compares h ((v, w) :: path) x y true) →
      Compares h path v w true

variable {h : Heap} {path : List (Value × Value)} {v w : Value} {depth : Nat} {b : Bool}
  {R S : Value → Value → Prop}

theorem byContent_cases (hk : v.byContent w = true) :
    (∃ r q, v = .list r ∧ w = .list q) ∨ ∃ r q, v = .dict r ∧ w = .dict q := by
  cases v <;> cases w <;> simp_all [Value.byContent]

theorem equalWithin_scalar (hk : v.byContent w = false) :
    h.equalWithin depth path v w = v.sameScalar w := by
  cases v <;> cases w <;> simp_all [Value.byContent, Value.sameScalar, equalWithin]

theorem equalWithin_again (hk : v.byContent w = true) (hm : (v, w) ∈ path) :
    h.equalWithin depth path v w = true := by
  obtain ⟨r, q, rfl, rfl⟩ | ⟨r, q, rfl, rfl⟩ := byContent_cases hk
  · unfold equalWithin
    exact if_pos hm
  · unfold equalWithin
    exact if_pos hm

theorem equalWithin_open (hk : v.byContent w = true) (hm : (v, w) ∉ path) :
    h.equalWithin (depth + 1) path v w = (h.counterparts v w).any fun parts =>
      parts.all fun c => c.2.any fun y => h.equalWithin depth ((v, w) :: path) c.1 y := by
  obtain ⟨r, q, rfl, rfl⟩ | ⟨r, q, rfl, rfl⟩ := byContent_cases hk
  · rw [equalWithin, if_neg hm]
    by_cases hs : (h.items r).size = (h.items q).size
    · simp [counterparts, hs, List.all_map, Function.comp_def]
    · simp [counterparts, hs]
  · rw [equalWithin, if_neg hm]
    by_cases hs : (h.entries r).length = (h.entries q).length
    · simp only [counterparts, hs, BEq.rfl, Bool.true_and, if_true, Option.any_some, List.all_map,
        Function.comp_def]
      congr 1
      funext e
      cases (h.entries q).find? e.1 <;> rfl
    · simp [counterparts, hs]

/-- The pairs of collections of one kind that the heap holds. -/
def openable (h : Heap) : List (Value × Value) :=
  (List.range h.lists.size ×ˢ List.range h.lists.size).map
      (fun p => (.list p.1, .list p.2)) ++
    (List.range h.dicts.size ×ˢ List.range h.dicts.size).map
      fun p => (.dict p.1, .dict p.2)

theorem length_openable (h : Heap) : h.openable.length + 1 = h.compareDepth := by
  simp [openable, compareDepth, List.length_product, Nat.pow_two]

theorem lt_of_mem_items {r : Ref} {x : Value} (hx : x ∈ (h.items r).toList) :
    r < h.lists.size := by
  by_cases hr : r < h.lists.size
  · exact hr
  · simp [items, Array.getD_eq_getD_getElem?, hr] at hx

theorem lt_of_mem_entries {r : Ref} {e : Text × Value} (he : e ∈ h.entries r) :
    r < h.dicts.size := by
  by_cases hr : r < h.dicts.size
  · exact hr
  · simp [entries, Array.getD_eq_getD_getElem?, hr] at he

theorem mem_openable {parts : List (Value × Option Value)} {c : Value × Option Value}
    (hk : v.byContent w = true) (hp : h.counterparts v w = some parts) (hc : c ∈ parts) :
    (v, w) ∈ h.openable := by
  obtain ⟨r, q, rfl, rfl⟩ | ⟨r, q, rfl, rfl⟩ := byContent_cases hk
  · obtain ⟨-, hparts⟩ := Option.ite_none_right_eq_some.1 hp
    cases hparts
    obtain ⟨⟨x, y⟩, hxy, -⟩ := List.mem_map.1 hc
    have hr : r < h.lists.size := lt_of_mem_items (List.of_mem_zip hxy).1
    have hq : q < h.lists.size := lt_of_mem_items (List.of_mem_zip hxy).2
    simp [openable, hr, hq]
  · obtain ⟨hs, hparts⟩ := Option.ite_none_right_eq_some.1 hp
    cases hparts
    obtain ⟨e, he, -⟩ := List.mem_map.1 hc
    have hr : r < h.dicts.size := lt_of_mem_entries he
    have hpos : 0 < (h.entries q).length := hs ▸ List.length_pos_of_mem he
    have hq : q < h.dicts.size := lt_of_mem_entries (List.getElem_mem hpos)
    simp [openable, hr, hq]

theorem length_lt_compareDepth (sub : path ⊆ h.openable) (nodup : path.Nodup) :
    path.length < h.compareDepth := by
  have hle : path.length ≤ h.openable.length := (nodup.subperm sub).length_le
  have hlen : h.openable.length + 1 = h.compareDepth := length_openable h
  omega

theorem compares_counterparts {parts : List (Value × Option Value)} (hk : v.byContent w = true)
    (hm : (v, w) ∉ path) (hp : h.counterparts v w = some parts) {f : Value → Value → Bool}
    (hf : ∀ x y, (x, some y) ∈ parts → h.Compares ((v, w) :: path) x y (f x y)) :
    h.Compares path v w (parts.all fun c => c.2.any fun y => f c.1 y) := by
  have hbefore : ∀ before, before ⊆ parts → (∀ c ∈ before, c.2.any (f c.1) = true) →
      (∀ c ∈ before, c.2.isSome) ∧
        ∀ x y, (x, some y) ∈ before → h.Compares ((v, w) :: path) x y true := by
    intro before hsub hall
    refine ⟨fun c hc => ?_, fun x y hxy => ?_⟩
    · obtain ⟨y, hy, -⟩ := (Option.any_eq_true _ _).1 (hall c hc)
      simp [hy]
    · have hfx : f x y = true := hall _ hxy
      exact hfx ▸ hf x y (hsub hxy)
  cases hfind : parts.find? fun c => !c.2.any fun y => f c.1 y with
  | none =>
    have hall : ∀ c ∈ parts, c.2.any (f c.1) = true := by simpa using hfind
    rw [List.all_eq_true.2 hall]
    obtain ⟨hsome, hsame⟩ := hbefore parts (List.Subset.refl _) hall
    exact .same hk hm hp hsome hsame
  | some c =>
    obtain ⟨hc, before, after, hparts, hall⟩ := List.find?_eq_some_iff_append.1 hfind
    obtain ⟨hsome, hsame⟩ := hbefore before (by simp [hparts]) (by simpa using hall)
    have hfalse : (parts.all fun c => c.2.any fun y => f c.1 y) = false := by
      refine List.all_eq_false.2 ⟨c, by simp [hparts], by simpa using hc⟩
    rw [hfalse]
    obtain ⟨x, none | y⟩ := c
    · exact .absent hk hm (hparts ▸ hp) hsome hsame
    · have hxy : f x y = false := by simpa using hc
      exact .differs hk hm (hparts ▸ hp) hsome hsame (hxy ▸ hf x y (by simp [hparts]))

theorem compares_equalWithin (sub : path ⊆ h.openable) (nodup : path.Nodup)
    (deep : h.compareDepth ≤ depth + path.length) :
    h.Compares path v w (h.equalWithin depth path v w) := by
  induction depth generalizing path v w with
  | zero =>
    -- a path of different pairs is no longer than there are pairs
    have hlt : path.length < h.compareDepth := length_lt_compareDepth sub nodup
    omega
  | succ depth ih =>
    by_cases hk : v.byContent w = true
    · by_cases hm : (v, w) ∈ path
      · rw [equalWithin_again hk hm]
        exact .again hk hm
      · rw [equalWithin_open hk hm]
        cases hp : h.counterparts v w with
        | none => exact .sizes hk hm hp
        | some parts =>
          apply compares_counterparts hk hm hp
          intro x y hxy
          apply ih
          · exact List.cons_subset.2 ⟨mem_openable hk hp hxy, sub⟩
          · exact List.nodup_cons.2 ⟨hm, nodup⟩
          · simp only [List.length_cons]
            omega
    · have hk : v.byContent w = false := by simpa using hk
      rw [equalWithin_scalar hk]
      exact .scalar hk

/-- The comparison ends, whatever cycles there are. -/
theorem compares_equal (h : Heap) (v w : Value) : h.Compares [] v w (h.equal v w) :=
  compares_equalWithin (List.nil_subset _) List.nodup_nil (Nat.le_refl _)

theorem matches_scalar (hk : v.byContent w = false) :
    h.Matches R v w ↔ v.sameScalar w = true := by
  cases v <;> cases w <;> simp_all [Value.byContent, Value.sameScalar, Matches]

theorem nodup_entries (keys : h.KeysUnique) (r : Ref) : ((h.entries r).map Prod.fst).Nodup := by
  by_cases hr : r < h.dicts.size
  · simp only [entries, Array.getD_eq_getD_getElem?, hr, Array.getElem?_eq_getElem,
      Option.getD_some]
    exact keys _ (Array.getElem_mem hr)
  · simp [entries, Array.getD_eq_getD_getElem?, hr]

theorem find?_eq_some_iff {d : Dict} (keys : (d.map Prod.fst).Nodup) {key : Text} {y : Value} :
    d.find? key = some y ↔ (key, y) ∈ d := by
  unfold Dict.find?
  induction d with
  | nil => simp
  | cons e d ih =>
    obtain ⟨k, x⟩ := e
    obtain ⟨hnot, hnodup⟩ := List.nodup_cons.1 keys
    by_cases hkey : key = k
    · subst hkey
      have hno : (key, y) ∉ d := fun hmem => hnot (List.mem_map.2 ⟨_, hmem, rfl⟩)
      simp [hno, eq_comm]
    · have hbeq : (key == k) = false := by simpa using hkey
      simp [List.lookup_cons, hbeq, ih hnodup, hkey]

theorem matches_open (keys : h.KeysUnique) (hk : v.byContent w = true) :
    h.Matches R v w ↔ ∃ parts, h.counterparts v w = some parts ∧
      ∀ c ∈ parts, ∃ y, c.2 = some y ∧ R c.1 y := by
  obtain ⟨r, q, rfl, rfl⟩ | ⟨r, q, rfl, rfl⟩ := byContent_cases hk
  · by_cases hs : (h.items r).size = (h.items q).size
    · have hzip : (∀ (i : Nat) x y, (h.items r)[i]? = some x → (h.items q)[i]? = some y → R x y) ↔
          ∀ p ∈ (h.items r).toList.zip (h.items q).toList, R p.1 p.2 := by
        constructor
        · intro hR p hp
          obtain ⟨i, hi⟩ := List.mem_iff_getElem?.1 hp
          obtain ⟨hx, hy⟩ := List.getElem?_zip_eq_some.1 hi
          exact hR i _ _ (by simpa using hx) (by simpa using hy)
        · intro hR i x y hx hy
          apply hR (x, y)
          apply List.mem_iff_getElem?.2
          exact ⟨i, List.getElem?_zip_eq_some.2 ⟨by simpa using hx, by simpa using hy⟩⟩
      simp [Matches, counterparts, hs, hzip]
    · simp [Matches, counterparts, hs]
  · by_cases hs : (h.entries r).length = (h.entries q).length
    · simp only [Matches, counterparts, hs, if_true, true_and, Option.some.injEq, exists_eq_left',
        List.forall_mem_map, find?_eq_some_iff (nodup_entries keys q)]
      exact ⟨fun hR e he => hR e.1 e.2 he, fun hR key x hx => hR (key, x) hx⟩
    · simp [Matches, counterparts, hs]

theorem Matches.mono (hR : ∀ x y, R x y → S x y) (hm : h.Matches R v w) : h.Matches S v w := by
  cases v <;> cases w <;> simp_all only [Matches]
  · exact ⟨trivial, fun i x y hx hy => hR x y (hm.2 i x y hx hy)⟩
  · refine ⟨trivial, fun key x hx => ?_⟩
    obtain ⟨y, hy, hxy⟩ := hm.2 key x hx
    exact ⟨y, hy, hR x y hxy⟩

/-- The two values show no difference to someone who looks `n` levels deep. -/
def Agrees (h : Heap) : Nat → Value → Value → Prop
  | 0, _, _ => True
  | n + 1, v, w => h.Matches (h.Agrees n) v w

theorem Agrees.of_succ {n : Nat} (ha : h.Agrees (n + 1) v w) : h.Agrees n v w := by
  induction n generalizing v w with
  | zero => trivial
  | succ n ih => exact Matches.mono (fun x y => ih) ha

theorem agrees_of_compares (keys : h.KeysUnique) {n : Nat}
    (hpath : ∀ p ∈ path, h.Agrees n p.1 p.2) (hc : h.Compares path v w true) :
    h.Agrees n v w := by
  induction n generalizing path v w with
  | zero => trivial
  | succ n ih =>
    have hpath' : ∀ p ∈ path, h.Agrees n p.1 p.2 := fun p hp => (hpath p hp).of_succ
    -- The pair that is being opened is itself taken to agree one level less deep.
    have hself : h.Agrees n v w := ih hpath' hc
    generalize hb : true = b at hc
    cases hc with
    | scalar hk => exact (matches_scalar hk).2 hb.symm
    | again hk hm => exact hpath _ hm
    | same hk hm hp hsome hsame =>
      refine (matches_open keys hk).2 ⟨_, hp, fun c hc => ?_⟩
      obtain ⟨y, hy⟩ := Option.isSome_iff_exists.1 (hsome c hc)
      refine ⟨y, hy, ih (List.forall_mem_cons.2 ⟨hself, hpath'⟩) (hsame c.1 y (hy ▸ hc))⟩
    | _ => contradiction

theorem bisimulation_agrees (keys : h.KeysUnique) :
    h.Bisimulation fun v w => ∀ n, h.Agrees n v w := by
  intro v w hall
  have hlevel : ∀ n, h.Matches (h.Agrees n) v w := fun n => hall (n + 1)
  by_cases hk : v.byContent w = true
  · simp only [matches_open keys hk] at hlevel ⊢
    obtain ⟨parts, hp, -⟩ := hlevel 0
    refine ⟨parts, hp, fun c hc => ?_⟩
    have hpart : ∀ n, ∃ y, c.2 = some y ∧ h.Agrees n c.1 y := by
      intro n
      obtain ⟨parts', hp', hall'⟩ := hlevel n
      exact hall' c (Option.some.inj (hp.symm.trans hp') ▸ hc)
    obtain ⟨y, hy, -⟩ := hpart 0
    refine ⟨y, hy, fun n => ?_⟩
    obtain ⟨y', hy', ha⟩ := hpart n
    exact Option.some.inj (hy.symm.trans hy') ▸ ha
  · have hk : v.byContent w = false := by simpa using hk
    exact (matches_scalar hk).2 ((matches_scalar hk).1 (hlevel 0))

theorem eq_true_of_compares (keys : h.KeysUnique) (hR : h.Bisimulation R) (hvw : R v w)
    (hc : h.Compares path v w b) : b = true := by
  have hparts : ∀ {v w parts}, v.byContent w = true → h.counterparts v w = some parts → R v w →
      ∀ c ∈ parts, ∃ y, c.2 = some y ∧ R c.1 y := by
    intro v w parts hk hp hvw c hc
    obtain ⟨parts', hp', hall⟩ := (matches_open keys hk).1 (hR v w hvw)
    exact hall c (Option.some.inj (hp.symm.trans hp') ▸ hc)
  induction hc with
  | scalar hk => exact (matches_scalar hk).1 (hR _ _ hvw)
  | again | same => rfl
  | sizes hk hm hp =>
    obtain ⟨parts, hp', -⟩ := (matches_open keys hk).1 (hR _ _ hvw)
    simp [hp] at hp'
  | absent hk hm hp =>
    obtain ⟨y, hy, -⟩ := hparts hk hp hvw _ (List.mem_append_right _ (List.mem_cons_self ..))
    cases hy
  | differs hk hm hp hsome hsame hd ihbefore ih =>
    obtain ⟨y, hy, hxy⟩ := hparts hk hp hvw _ (List.mem_append_right _ (List.mem_cons_self ..))
    cases hy
    exact ih hxy

theorem compares_true_iff (keys : h.KeysUnique) (hc : h.Compares [] v w b) :
    b = true ↔ h.Bisimilar v w := by
  constructor
  · intro hb
    subst hb
    exact ⟨_, bisimulation_agrees keys, fun n => agrees_of_compares keys (by simp) hc⟩
  · intro ⟨R, hR, hvw⟩
    exact eq_true_of_compares keys hR hvw hc

theorem matches_congr {h' : Heap} (hlists : h'.lists = h.lists)
    (hperm : ∀ r, (h'.entries r).Perm (h.entries r)) : h'.Matches R v w ↔ h.Matches R v w := by
  have hitems : h'.items = h.items := by
    funext r
    simp only [items, hlists]
  cases v <;> cases w <;> simp only [Matches, hitems]
  rename_i r q
  simp only [(hperm r).length_eq, (hperm q).length_eq, (hperm r).mem_iff, (hperm q).mem_iff]

theorem keysUnique_congr {h' : Heap} (keys : h.KeysUnique)
    (hperm : ∀ r, (h'.entries r).Perm (h.entries r)) : h'.KeysUnique := by
  intro d hd
  obtain ⟨r, hr, rfl⟩ := Array.mem_iff_getElem.1 hd
  have hentries : h'.entries r = h'.dicts[r] := by simp [entries, Array.getD, hr]
  rw [← hentries, ((hperm r).map Prod.fst).nodup_iff]
  exact nodup_entries keys r

theorem bisimilar_congr {h' : Heap} (hlists : h'.lists = h.lists)
    (hperm : ∀ r, (h'.entries r).Perm (h.entries r)) :
    h'.Bisimilar v w ↔ h.Bisimilar v w := by
  simp only [Bisimilar, Bisimulation, matches_congr hlists hperm]

/-- Comparing two values ends, with one answer; the answer is `true` exactly for bisimilar values,
and it stays the same when the entries of dictionaries are put into another order. -/
theorem equal_iff_bisimilar (h : Heap) (keys : h.KeysUnique) (v w : Value) :
    (∀ b, h.Compares [] v w b ↔ b = h.equal v w) ∧
      (h.equal v w = true ↔ h.Bisimilar v w) ∧
      ∀ h' : Heap, h'.lists = h.lists → (∀ r, (h'.entries r).Perm (h.entries r)) →
        h'.equal v w = h.equal v w := by
  have hiff : h.equal v w = true ↔ h.Bisimilar v w := compares_true_iff keys (compares_equal h v w)
  refine ⟨fun b => ⟨fun hc => ?_, ?_⟩, hiff, fun h' hlists hperm => ?_⟩
  · rw [Bool.eq_iff_iff, compares_true_iff keys hc, hiff]
  · intro hb
    subst hb
    exact compares_equal h v w
  · have keys' : h'.KeysUnique := keysUnique_congr keys hperm
    rw [Bool.eq_iff_iff, hiff, compares_true_iff keys' (compares_equal h' v w)]
    exact bisimilar_congr hlists hperm

/-- Two rings of a list and a dictionary each, with the entries in different orders, and a third
list that differs from them one level down. -/
def rings : Heap where
  lists := #[#[.list 1, .dict 0], #[.list 0, .dict 1], #[.list 1, .dict 2]]
  dicts := #[[("left", .list 0), ("right", .nil)], [("right", .nil), ("left", .list 1)],
    [("right", .boolean true), ("left", .list 1)]]

theorem equal_iff_bisimilar_rings : rings.KeysUnique ∧ rings.Bisimilar (.list 0) (.list 1) ∧
    ¬rings.Bisimilar (.list 0) (.list 2) := by
  have keys : rings.KeysUnique := by decide +kernel
  refine ⟨keys, ?_, ?_⟩
  · rw [← (equal_iff_bisimilar rings keys _ _).2.1]
    decide +kernel
  · rw [← (equal_iff_bisimilar rings keys _ _).2.1]
    decide +kernel

end Heap
end ScriptMachine
