import ScriptMachine.Machine.Step
import ScriptMachine.Proofs.Number.Written

namespace ScriptMachine

inductive Place where
  | item (position : Nat)
  | entry (key : Text)
deriving DecidableEq

namespace Dict

variable {d : Dict} {key k : Text} {v : Value}

def keys (d : Dict) : List Text := d.map Prod.fst

theorem find?_cons {w : Value} :
    find? key ((k, w) :: d) = if k = key then some w else find? key d := by
  unfold find?
  by_cases h : k = key
  · rw [if_pos h, h, List.lookup_cons_self]
  · have hne : (key == k) = false := beq_eq_false_iff_ne.2 (Ne.symm h)
    rw [if_neg h, List.lookup_cons, hne]

theorem find?_set : (d.set key v).find? k = if k = key then some v else d.find? k := by
  induction d with
  | nil =>
    rw [set, find?_cons]
    by_cases h : k = key
    · rw [if_pos h, if_pos h.symm]
    · rw [if_neg h, if_neg (Ne.symm h)]
  | cons e d ih =>
    obtain ⟨k', w⟩ := e
    rw [set]
    by_cases hset : k' = key
    · rw [if_pos hset, find?_cons, find?_cons, hset]
      by_cases h : k = key
      · rw [if_pos h, if_pos h.symm]
      · rw [if_neg h, if_neg (Ne.symm h), if_neg (Ne.symm h)]
    · rw [if_neg hset, find?_cons, find?_cons, ih]
      by_cases h : k' = k
      · rw [if_pos h, if_pos h, if_neg (h ▸ hset)]
      · rw [if_neg h, if_neg h]

theorem keys_set : (d.set key v).keys = if key ∈ d.keys then d.keys else d.keys ++ [key] := by
  induction d with
  | nil => rfl
  | cons e d ih =>
    obtain ⟨k', w⟩ := e
    have hkeys : keys ((k', w) :: d) = k' :: keys d := rfl
    rw [set, hkeys]
    by_cases hset : k' = key
    · rw [if_pos hset, if_pos (hset ▸ List.mem_cons_self)]
      rfl
    · have hmem : key ∈ k' :: keys d ↔ key ∈ keys d := by
        rw [List.mem_cons]
        exact or_iff_right (Ne.symm hset)
      have htail : keys ((k', w) :: set key v d) = k' :: keys (set key v d) := rfl
      rw [if_neg hset, htail, ih]
      by_cases hold : key ∈ keys d
      · rw [if_pos hold, if_pos (hmem.2 hold)]
      · rw [if_neg hold, if_neg (mt hmem.1 hold), List.cons_append]

end Dict

namespace Heap

/-- The place that an index names in a collection. A position of a list is a whole number; a
negative one is counted from the end. -/
inductive Resolves (h : Heap) : Value → Value → Place → Prop
  | fromStart {r : Ref} {x : Number} {n : Nat} : x.isFinite → x.value = n → n < (h.items r).size →
      Resolves h (.list r) (.number x) (.item n)
  | fromEnd {r : Ref} {x : Number} {n : Nat} : x.isFinite → x.value < 0 →
      x.value + (h.items r).size = n → Resolves h (.list r) (.number x) (.item n)
  | key {r : Ref} {key : Text} : Resolves h (.dict r) (.string key) (.entry key)

def Has (h : Heap) : Value → Prop
  | .list r => r < h.lists.size
  | .dict r => r < h.dicts.size
  | .error r => r < h.errors.size
  | _ => True

/-- What stands at a place of a collection. -/
def at? (h : Heap) : Value → Place → Option Value
  | .list r, .item n => (h.items r)[n]?
  | .dict r, .entry key => (h.entries r).find? key
  | _, _ => none

def put (h : Heap) (v : Value) : Value → Place → Heap
  | .list r, .item n => h.setItem r n v
  | .dict r, .entry key => h.setEntry r key v
  | _, _ => h

variable {h h' : Heap} {c i j v : Value} {r : Ref} {n : Nat} {place place' : Place}

theorem position_eq_ok_iff {length : Nat} : h.position i length = .ok n ↔
    ∃ x, i = .number x ∧ x.isFinite ∧
      ((x.value = n ∧ n < length) ∨ (x.value < 0 ∧ x.value + length = n)) := by
  cases i with
  | number x =>
    cases hinfinite : x.isInfinite with
    | true =>
      have hfinite : ¬x.isFinite := fun hx => by
        simp [Number.isInfinite_of_isFinite hx] at hinfinite
      simp [position, hinfinite, hfinite]
    | false =>
      cases hint : x.toInt? with
      | none =>
        -- a number with a fraction or without a value is neither `n` nor `n - length`
        have hfraction (z : Int) (hx : x.isFinite) : x.value ≠ z := fun hz => by
          simp [Number.toInt?_eq_some_iff.2 ⟨hx, hz⟩] at hint
        refine iff_of_false (by simp [position, hinfinite, hint]) ?_
        rintro ⟨y, hy, hx, ⟨hvalue, -⟩ | ⟨-, hvalue⟩⟩
        · cases hy
          exact hfraction n hx (by simpa using hvalue)
        · cases hy
          exact hfraction (n - length) hx (by push_cast; linarith)
      | some z =>
        obtain ⟨hx, hvalue⟩ := Number.toInt?_eq_some_iff.1 hint
        simp only [position, hinfinite, hint, Bool.false_eq_true, if_false, Value.number.injEq,
          exists_eq_left', hx, true_and, hvalue]
        norm_cast
        grind
  | _ => simp [position]

theorem resolves_list_iff : h.Resolves (.list r) i place ↔
    ∃ n, h.position i (h.items r).size = .ok n ∧ place = .item n := by
  constructor
  · rintro (⟨hx, hvalue, hlt⟩ | ⟨hx, hneg, hvalue⟩)
    · exact ⟨_, position_eq_ok_iff.2 ⟨_, rfl, hx, .inl ⟨hvalue, hlt⟩⟩, rfl⟩
    · exact ⟨_, position_eq_ok_iff.2 ⟨_, rfl, hx, .inr ⟨hneg, hvalue⟩⟩, rfl⟩
  · rintro ⟨n, hposition, rfl⟩
    obtain ⟨x, rfl, hx, ⟨hvalue, hlt⟩ | ⟨hneg, hvalue⟩⟩ := position_eq_ok_iff.1 hposition
    · exact .fromStart hx hvalue hlt
    · exact .fromEnd hx hneg hvalue

theorem resolves_dict_iff : h.Resolves (.dict r) i place ↔
    ∃ key, i = .string key ∧ place = .entry key :=
  ⟨fun hresolves => by cases hresolves with | key => exact ⟨_, rfl, rfl⟩,
    fun ⟨_, hi, hplace⟩ => hi ▸ hplace ▸ .key⟩

theorem Resolves.unique (hplace : h.Resolves c i place) (hplace' : h.Resolves c i place') :
    place = place' := by
  cases c with
  | list r =>
    obtain ⟨n, hn, rfl⟩ := resolves_list_iff.1 hplace
    obtain ⟨n', hn', rfl⟩ := resolves_list_iff.1 hplace'
    exact congrArg Place.item (Except.ok.inj (hn.symm.trans hn'))
  | dict r =>
    obtain ⟨key, rfl, rfl⟩ := resolves_dict_iff.1 hplace
    obtain ⟨key', hkey, rfl⟩ := resolves_dict_iff.1 hplace'
    rw [Value.string.inj hkey]
  | _ => cases hplace

theorem Resolves.lt_size (hplace : h.Resolves (.list r) i (.item n)) : n < (h.items r).size := by
  generalize hitem : Place.item n = place at hplace
  cases hplace with
  | fromStart _ _ hlt =>
    cases hitem
    exact hlt
  | fromEnd _ hneg hvalue =>
    cases hitem
    have hlt : (n : ℚ) < (h.items r).size := by linarith
    exact_mod_cast hlt

theorem indexGet_of_at? (hplace : h.Resolves c i place) (hat : h.at? c place = some v) :
    h.indexGet c i = .ok v := by
  cases c with
  | list r =>
    obtain ⟨n, hposition, rfl⟩ := resolves_list_iff.1 hplace
    have hitem : (h.items r)[n]? = some v := hat
    simp [indexGet, hposition, hitem, Bind.bind, Except.bind, pure, Except.pure]
  | dict r =>
    obtain ⟨key, rfl, rfl⟩ := resolves_dict_iff.1 hplace
    have hentry : (h.entries r).find? key = some v := hat
    simp [indexGet, hentry]
  | _ => cases hplace

theorem indexGet_congr (hplace : h.Resolves c i place) (hplace' : h'.Resolves c i place)
    (hat : h'.at? c place = h.at? c place) : h'.indexGet c i = h.indexGet c i := by
  cases hv : h.at? c place with
  | some v => rw [indexGet_of_at? hplace' (hat.trans hv), indexGet_of_at? hplace hv]
  | none =>
    cases c with
    | list r =>
      obtain ⟨n, -, rfl⟩ := resolves_list_iff.1 hplace
      have hlt := hplace.lt_size
      simp [at?] at hv
      omega
    | dict r =>
      obtain ⟨key, rfl, rfl⟩ := resolves_dict_iff.1 hplace
      have hentry : (h.entries r).find? key = none := hv
      have hentry' : (h'.entries r).find? key = none := hat.trans hv
      simp only [indexGet, hentry, hentry']
    | _ => cases hplace

theorem indexGet_list_isOk_iff :
    (h.indexGet (.list r) i).isOk ↔ ∃ place, h.Resolves (.list r) i place := by
  simp only [indexGet, resolves_list_iff]
  cases h.position i (h.items r).size <;> simp [Bind.bind, Except.bind, pure, Except.pure,
    Except.isOk, Except.toBool]

theorem indexSet_eq_ok_iff :
    h.indexSet c i v = .ok h' ↔ ∃ place, h.Resolves c i place ∧ h' = h.put v c place := by
  cases c with
  | list r =>
    simp only [indexSet, resolves_list_iff]
    cases h.position i (h.items r).size with
    | error e => simp [Bind.bind, Except.bind]
    | ok n => simp [Bind.bind, Except.bind, pure, Except.pure, put, eq_comm]
  | dict r =>
    simp only [resolves_dict_iff]
    cases i with
    | string key => simp [indexSet, put, eq_comm]
    | _ => simp [indexSet]
  | _ =>
    simp only [indexSet, reduceCtorEq, false_iff]
    rintro ⟨place, hplace, -⟩
    cases hplace

theorem indexSet_list_isOk_iff :
    (h.indexSet (.list r) i v).isOk ↔ ∃ place, h.Resolves (.list r) i place := by
  simp only [indexSet, resolves_list_iff]
  cases h.position i (h.items r).size <;> simp [Bind.bind, Except.bind, pure, Except.pure,
    Except.isOk, Except.toBool]

theorem items_setItem {q : Ref} :
    (h.setItem r n v).items q = if r = q then (h.items q).setIfInBounds n v else h.items q := by
  simp only [items, setItem, Array.getD_eq_getD_getElem?, Array.getElem?_modify]
  by_cases hq : r = q
  · subst hq
    rw [if_pos rfl, if_pos rfl]
    cases h.lists[r]? with
    | none => simp
    | some items => rfl
  · rw [if_neg hq, if_neg hq]

theorem entries_setEntry {q : Ref} {key : Text} (hr : r < h.dicts.size) :
    (h.setEntry r key v).entries q = if r = q then (h.entries q).set key v else h.entries q := by
  simp only [entries, setEntry, Array.getD_eq_getD_getElem?, Array.getElem?_modify]
  by_cases hq : r = q
  · subst hq
    rw [if_pos rfl, if_pos rfl, Array.getElem?_eq_getElem hr]
    rfl
  · rw [if_neg hq, if_neg hq]

theorem lists_put {r : Ref} (hc : c ≠ .list r) : (h.put v c place).lists[r]? = h.lists[r]? := by
  unfold put
  split
  · next q n =>
    have hq : q ≠ r := fun hq => hc (congrArg Value.list hq)
    simp [setItem, Array.getElem?_modify, hq]
  · rfl
  · rfl

theorem dicts_put {r : Ref} (hc : c ≠ .dict r) : (h.put v c place).dicts[r]? = h.dicts[r]? := by
  unfold put
  split
  · rfl
  · next q key =>
    have hq : q ≠ r := fun hq => hc (congrArg Value.dict hq)
    simp [setEntry, Array.getElem?_modify, hq]
  · rfl

theorem errors_put : (h.put v c place).errors = h.errors := by
  unfold put
  split <;> rfl

theorem size_lists_put : (h.put v c place).lists.size = h.lists.size := by
  unfold put
  split <;> simp [setItem, setEntry]

theorem size_dicts_put : (h.put v c place).dicts.size = h.dicts.size := by
  unfold put
  split <;> simp [setItem, setEntry]

theorem size_items_put : ((h.put v c place).items r).size = (h.items r).size := by
  unfold put
  split
  · rw [items_setItem]
    split <;> simp
  · rfl
  · rfl

theorem resolves_put {d : Value} : (h.put v c place).Resolves d j place' ↔
    h.Resolves d j place' := by
  constructor
  · rintro (⟨hx, hvalue, hlt⟩ | ⟨hx, hneg, hvalue⟩ | _)
    · exact .fromStart hx hvalue (size_items_put ▸ hlt)
    · exact .fromEnd hx hneg (size_items_put (h := h) ▸ hvalue)
    · exact .key
  · rintro (⟨hx, hvalue, hlt⟩ | ⟨hx, hneg, hvalue⟩ | _)
    · exact .fromStart hx hvalue (size_items_put.symm ▸ hlt)
    · exact .fromEnd hx hneg (size_items_put (h := h).symm ▸ hvalue)
    · exact .key

theorem at?_put (hc : h.Has c) (hplace : h.Resolves c i place) (hplace' : h.Resolves c j place') :
    (h.put v c place).at? c place' = if place' = place then some v else h.at? c place' := by
  cases c with
  | list r =>
    obtain ⟨n, -, rfl⟩ := resolves_list_iff.1 hplace
    obtain ⟨n', -, rfl⟩ := resolves_list_iff.1 hplace'
    simp only [put, at?, items_setItem, if_true, Place.item.injEq]
    by_cases heq : n' = n
    · subst heq
      simp [hplace.lt_size]
    · rw [if_neg heq, Array.getElem?_setIfInBounds_ne (Ne.symm heq)]
  | dict r =>
    obtain ⟨key, rfl, rfl⟩ := resolves_dict_iff.1 hplace
    obtain ⟨key', rfl, rfl⟩ := resolves_dict_iff.1 hplace'
    simp only [put, at?, entries_setEntry hc, if_true, Place.entry.injEq, Dict.find?_set]
  | _ => cases hplace

theorem keys_put (hc : h.Has c) (hplace : h.Resolves c i place) :
    ((h.put v c place).entries r).keys = (h.entries r).keys ∨
      ∃ key, c = .dict r ∧ i = .string key ∧ key ∉ (h.entries r).keys ∧
        ((h.put v c place).entries r).keys = (h.entries r).keys ++ [key] := by
  cases c with
  | list q =>
    obtain ⟨n, -, rfl⟩ := resolves_list_iff.1 hplace
    exact .inl rfl
  | dict q =>
    obtain ⟨key, rfl, rfl⟩ := resolves_dict_iff.1 hplace
    simp only [put, entries_setEntry hc]
    by_cases hq : q = r
    · subst hq
      rw [if_pos rfl, Dict.keys_set]
      by_cases hold : key ∈ (h.entries q).keys
      · exact .inl (if_pos hold)
      · exact .inr ⟨key, rfl, rfl, hold, if_neg hold⟩
    · exact .inl (by rw [if_neg hq])
  | _ => cases hplace

/-- What the assignment of `v` to index `i` of `c` makes of a heap. -/
structure Assigned (h h' : Heap) (c i v : Value) : Prop where
  /-- An index that names the place of `i` reads `v`, and one that names another reads what it
  did. -/
  reads : ∃ place, (∀ place', h.Resolves c i place' ↔ place' = place) ∧
    ∀ j place', h.Resolves c j place' →
      h'.indexGet c j = if place' = place then .ok v else h.indexGet c j
  resolves : ∀ d j place, h'.Resolves d j place ↔ h.Resolves d j place
  length : ∀ r, (h'.items r).size = (h.items r).size
  keys : ∀ r, (h'.entries r).keys = (h.entries r).keys ∨
    ∃ key, c = .dict r ∧ i = .string key ∧ key ∉ (h.entries r).keys ∧
      (h'.entries r).keys = (h.entries r).keys ++ [key]
  lists : h'.lists.size = h.lists.size ∧ ∀ r, c ≠ .list r → h'.lists[r]? = h.lists[r]?
  dicts : h'.dicts.size = h.dicts.size ∧ ∀ r, c ≠ .dict r → h'.dicts[r]? = h.dicts[r]?
  errors : h'.errors = h.errors

theorem indexGet_put (hc : h.Has c) (hplace : h.Resolves c i place)
    (hplace' : h.Resolves c j place') :
    (h.put v c place).indexGet c j = if place' = place then .ok v else h.indexGet c j := by
  have hat := at?_put (v := v) hc hplace hplace'
  by_cases heq : place' = place
  · rw [if_pos heq] at hat ⊢
    exact indexGet_of_at? (resolves_put.2 hplace') hat
  · rw [if_neg heq] at hat ⊢
    exact indexGet_congr hplace' (resolves_put.2 hplace') hat

theorem assigned_of_indexSet (hc : h.Has c) (hset : h.indexSet c i v = .ok h') :
    Assigned h h' c i v := by
  obtain ⟨place, hplace, rfl⟩ := indexSet_eq_ok_iff.1 hset
  exact
    { reads := ⟨place, fun _ => ⟨fun hother => hother.unique hplace, fun heq => heq ▸ hplace⟩,
        fun _ _ hplace' => indexGet_put hc hplace hplace'⟩
      resolves := fun _ _ _ => resolves_put
      length := fun _ => size_items_put
      keys := fun _ => keys_put hc hplace
      lists := ⟨size_lists_put, fun _ => lists_put⟩
      dicts := ⟨size_dicts_put, fun _ => dicts_put⟩
      errors := errors_put }

theorem indexSet_writes {p : Program} {s : Machine.State}
    (hset : s.world.heap.indexSet c i v = .ok h') :
    Machine.indexSet p (((s.push c).push i).push v) = some (.next (s.setHeap h')) := by
  simp [Machine.indexSet, Machine.pop2?, Machine.State.pop?, Machine.State.push,
    Machine.State.setHeap, hset]

theorem indexSet_raises {p : Program} {s : Machine.State} {e : ScriptError}
    (hset : s.world.heap.indexSet c i v = .error e) :
    Machine.indexSet p (((s.push c).push i).push v) = Machine.raise p s e := by
  simp [Machine.indexSet, Machine.pop2?, Machine.State.pop?, Machine.State.push, hset]

/-- Indexed assignment and reading fit together. The value `v` and the objects of the heap are
arbitrary, so they may share objects with `c` or contain it. An assignment that fails leaves the
machine to raise its error with the heap as it was, and on a list it fails just where reading
does. -/
theorem indexSet_reads_back (h : Heap) (c i v : Value) (hc : h.Has c) :
    (∀ h', h.indexSet c i v = .ok h' → h'.indexGet c i = .ok v ∧ Assigned h h' c i v ∧
        ∀ (p : Program) (s : Machine.State), s.world.heap = h →
          Machine.indexSet p (((s.push c).push i).push v) = some (.next (s.setHeap h'))) ∧
      (∀ e, h.indexSet c i v = .error e → ∀ (p : Program) (s : Machine.State), s.world.heap = h →
        Machine.indexSet p (((s.push c).push i).push v) = Machine.raise p s e) ∧
      ∀ r, c = .list r → ((h.indexSet c i v).isOk ↔ (h.indexGet c i).isOk) := by
  refine ⟨?_, ?_, ?_⟩
  · intro h' hset
    have hassigned := assigned_of_indexSet hc hset
    obtain ⟨place, hplace, hreads⟩ := hassigned.reads
    have hread : h'.indexGet c i = .ok v := by
      rw [hreads i place ((hplace place).2 rfl), if_pos rfl]
    refine ⟨hread, hassigned, ?_⟩
    rintro p s rfl
    exact indexSet_writes hset
  · rintro e hset p s rfl
    exact indexSet_raises hset
  · rintro r rfl
    rw [indexSet_list_isOk_iff, indexGet_list_isOk_iff]

/-- A list is made its own last item, by an index that counts from the end. -/
theorem indexSet_reads_back_cyclic :
    let h : Heap := { lists := #[#[.nil, .boolean true]] }
    let last : Value := .number ⟨0xbff0000000000000⟩
    ∃ h', h.indexSet (.list 0) last (.list 0) = .ok h' ∧
    h'.indexGet (.list 0) last = .ok (.list 0) ∧
      Assigned h h' (.list 0) last (.list 0) := by
  intro h last
  have hset : h.indexSet (.list 0) last (.list 0) = .ok { lists := #[#[.nil, .list 0]] } := by
    decide +kernel
  obtain ⟨hread, hassigned, -⟩ :=
    (indexSet_reads_back h (.list 0) last (.list 0) Nat.zero_lt_one).1 _ hset
  exact ⟨_, hset, hread, hassigned⟩

end Heap
end ScriptMachine
