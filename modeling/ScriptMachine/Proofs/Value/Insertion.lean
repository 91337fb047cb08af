import Mathlib.Data.List.Nodup
import ScriptMachine.Proofs.Value.Equality
import ScriptMachine.Proofs.Value.Index

namespace ScriptMachine

namespace Dict

/-- A key came with this value, and did not come again. -/
def LastValue (history : List (Text × Value)) (key : Text) (v : Value) : Prop :=
  ∃ before after, history = before ++ (key, v) :: after ∧ key ∉ after.map Prod.fst

variable {d : Dict} {history : List (Text × Value)} {key k : Text} {v w : Value}

theorem not_lastValue_nil : ¬LastValue [] key v := by
  rintro ⟨before, after, hhistory, -⟩
  simp at hhistory

theorem lastValue_concat :
    LastValue (history ++ [(key, v)]) k w ↔ if k = key then v = w else LastValue history k w := by
  constructor
  · rintro ⟨before, after, hhistory, hafter⟩
    cases after using List.reverseRecOn with
    | nil =>
      have hlast := List.append_inj_right' hhistory rfl
      simp only [List.cons.injEq, Prod.mk.injEq, and_true] at hlast
      rw [if_pos hlast.1.symm]
      exact hlast.2
    | append_singleton after e =>
      rw [← List.cons_append, ← List.append_assoc] at hhistory
      obtain ⟨rfl, he⟩ := List.append_inj' hhistory rfl
      obtain rfl := List.singleton_inj.1 he
      simp only [List.map_append, List.mem_append, List.map_cons, List.map_nil, List.mem_singleton,
        not_or] at hafter
      rw [if_neg hafter.2]
      exact ⟨before, after, rfl, hafter.1⟩
  · intro hlast
    by_cases hk : k = key
    · rw [if_pos hk] at hlast
      exact ⟨history, [], by rw [hk, hlast], List.not_mem_nil⟩
    · rw [if_neg hk] at hlast
      obtain ⟨before, after, rfl, hafter⟩ := hlast
      exact ⟨before, after ++ [(key, v)], by simp, by simp [hafter, hk]⟩

structure Records (d : Dict) (history : List (Text × Value)) : Prop where
  /-- The keys stand in the order in which they first came. -/
  keys : d.keys = (history.map Prod.fst).eraseDups
  nodup : d.keys.Nodup
  found : ∀ key v, d.find? key = some v ↔ LastValue history key v

theorem records_nil : Records [] [] where
  keys := rfl
  nodup := List.nodup_nil
  found _ _ := iff_of_false (by simp [find?]) not_lastValue_nil

theorem Records.set (hd : d.Records history) (key : Text) (v : Value) :
    (d.set key v).Records (history ++ [(key, v)]) := by
  have hmem : key ∈ d.keys ↔ key ∈ history.map Prod.fst := by rw [hd.keys, List.mem_eraseDups]
  refine ⟨?_, ?_, fun k w => ?_⟩
  · rw [keys_set, List.map_append, List.map_singleton, List.eraseDups_append, ← hd.keys]
    by_cases hold : key ∈ history.map Prod.fst
    · rw [if_pos (hmem.2 hold)]
      simp [List.removeAll, hold]
    · rw [if_neg (mt hmem.1 hold)]
      simp [List.removeAll, List.eraseDups_cons, hold]
  · rw [keys_set]
    split
    · exact hd.nodup
    · next hnew => exact List.concat_eq_append ▸ hd.nodup.concat hnew
  · rw [find?_set, lastValue_concat, ← hd.found]
    split <;> simp

theorem Records.setAll (hd : d.Records history) (sets : List (Text × Value)) :
    (sets.foldl (fun d e => d.set e.1 e.2) d).Records (history ++ sets) := by
  induction sets generalizing d history with
  | nil => rwa [List.append_nil]
  | cons e sets ih =>
    rw [List.append_cons]
    exact ih (hd.set e.1 e.2)

theorem records_ofPairs (pairs : List (Text × Value)) : (ofPairs pairs).Records pairs :=
  records_nil.setAll pairs

theorem Records.mem_iff (hd : d.Records history) : (key, v) ∈ d ↔ LastValue history key v :=
  (Heap.find?_eq_some_iff hd.nodup).symm.trans (hd.found key v)

theorem find?_eq_none_iff : d.find? key = none ↔ key ∉ d.keys := by
  simp only [find?, List.lookup_eq_none_iff, keys, List.mem_map, bne_iff_ne, ne_eq, not_exists,
    not_and]
  exact forall₂_congr fun e _ => not_congr eq_comm

theorem Records.find?_eq_none_iff (hd : d.Records history) :
    d.find? key = none ↔ key ∉ history.map Prod.fst := by
  rw [Dict.find?_eq_none_iff, hd.keys, List.mem_eraseDups]

end Dict

namespace Heap

variable {h : Heap} {r : Ref}

theorem entries_setAll (hr : r < h.dicts.size) (sets : List (Text × Value)) :
    (sets.foldl (fun h e => h.setEntry r e.1 e.2) h).entries r =
      sets.foldl (fun d e => d.set e.1 e.2) (h.entries r) := by
  induction sets generalizing h with
  | nil => rfl
  | cons e sets ih =>
    have hr' : r < (h.setEntry r e.1 e.2).dicts.size := by simpa [setEntry] using hr
    rw [List.foldl_cons, List.foldl_cons, ih hr', entries_setEntry hr, if_pos rfl]

theorem entries_newDict (h : Heap) (d : Dict) : (h.newDict d).2.entries h.dicts.size = d := by
  simp [entries, newDict]

/-- Dictionaries are maps in the order of insertion. -/
theorem entries_eq_insertions (h : Heap) (pairs sets : List (Text × Value)) :
    let history := pairs ++ sets
    ∃ r h₁, h.newDict (Dict.ofPairs pairs) = (.dict r, h₁) ∧
      let d := (sets.foldl (fun h e => h.setEntry r e.1 e.2) h₁).entries r
      d.keys = (history.map Prod.fst).eraseDups ∧ d.keys.Nodup ∧
        (∀ key v, (key, v) ∈ d ↔ Dict.LastValue history key v) ∧
        (∀ key v, d.find? key = some v ↔ Dict.LastValue history key v) ∧
        ∀ key, d.find? key = none ↔ key ∉ history.map Prod.fst := by
  intro history
  refine ⟨h.dicts.size, (h.newDict (Dict.ofPairs pairs)).2, rfl, ?_⟩
  have hr : h.dicts.size < (h.newDict (Dict.ofPairs pairs)).2.dicts.size := by simp [newDict]
  rw [entries_setAll hr, entries_newDict]
  have hrecords := (Dict.records_ofPairs pairs).setAll sets
  exact ⟨hrecords.keys, hrecords.nodup, fun _ _ => hrecords.mem_iff, hrecords.found,
    fun _ => hrecords.find?_eq_none_iff⟩

end Heap

end ScriptMachine
