import Mathlib.Data.List.Perm.Subperm
import Mathlib.Data.List.Forall2
import Mathlib.Logic.Relation
import ScriptMachine.Value.Display

namespace ScriptMachine

open Relation (ReflTransGen TransGen)

namespace Value

def isCollection : Value → Bool
  | list _ => true
  | dict _ => true
  | _ => false

/-- What stands for a collection inside itself. -/
def abbreviation : Value → Text
  | list _ => "[...]"
  | dict _ => "\x7b...\x7d"
  | _ => []

/-- A collection whose content has the text `body`. -/
def enclosed (body : Text) : Value → Text
  | list _ => Text.concat ["[", body, "]"]
  | dict _ => Text.concat ["\x7b", body, "\x7d"]
  | _ => body

end Value

namespace Heap

/-- The bytes that are not written as themselves between quotes: the quote, the backslash, the
newline, the tab and the return. -/
def escapes : List (UInt8 × Text) :=
  [(0x22, "\\\""), (0x5c, "\\\\"), (0x0a, "\\n"), (0x09, "\\t"), (0x0d, "\\r")]

def inQuotes (t : Text) : Text :=
  "\"" ++ t.flatMap (fun b => (escapes.lookup b).getD [b]) ++ "\""

/-- The text of a value that is no collection, inside a collection. -/
def scalarText (h : Heap) : Value → Text
  | .nil => "null"
  | .number x => x.format
  | .boolean b => if b then "true" else "false"
  | .string t => inQuotes t
  | .error r => (h.error r).render
  | _ => []

/-- What a collection holds, in order, each value with the text before it. -/
def content (h : Heap) : Value → List (Text × Value)
  | .list r => (h.items r).toList.map fun v => ([], v)
  | .dict r => (h.entries r).map fun e => (Text.concat [e.1, ": "], e.2)
  | _ => []

/-- The value `v` is written as the text `t` inside the collections of `path`. -/
inductive Renders (h : Heap) : List Value → Value → Text → Prop
  | scalar {path v} : v.isCollection = false → Renders h path v (h.scalarText v)
  | again {path v} : v.isCollection = true → v ∈ path → Renders h path v v.abbreviation
  | full {path v} {parts : List ((Text × Value) × Text)} : v.isCollection = true → v ∉ path →
      parts.map Prod.fst = h.content v →
      (∀ p ∈ parts, Renders h (v :: path) p.1.2 p.2) →
      Renders h path v (v.enclosed (Text.join ", " (parts.map fun p => p.1.1 ++ p.2)))

/-- The value `v` is written as the text `t`, with every collection in full. -/
inductive Spells (h : Heap) : Value → Text → Prop
  | scalar {v} : v.isCollection = false → Spells h v (h.scalarText v)
  | full {v} {parts : List ((Text × Value) × Text)} : v.isCollection = true →
      parts.map Prod.fst = h.content v →
      (∀ p ∈ parts, Spells h p.1.2 p.2) →
      Spells h v (v.enclosed (Text.join ", " (parts.map fun p => p.1.1 ++ p.2)))

/-- A string that stands by itself is written as it is, everything else as it is written inside a
collection. -/
def AtTop (nested : Value → Text → Prop) : Value → Text → Prop
  | .string s, t => t = s
  | v, t => nested v t

/-- The collection `v` holds `x`. -/
def Holds (h : Heap) (v x : Value) : Prop := ∃ label, (label, x) ∈ h.content v

/-- No value that can be reached from `v` can be reached from itself. -/
def Acyclic (h : Heap) (v : Value) : Prop :=
  ∀ u, ReflTransGen h.Holds v u → ¬TransGen h.Holds u u

variable {h : Heap} {path : List Value} {v x : Value} {t s : Text} {depth : Nat}

theorem isCollection_cases (hk : v.isCollection = true) :
    (∃ r, v = .list r) ∨ ∃ r, v = .dict r := by
  cases v <;> simp_all [Value.isCollection]

theorem escapeByte_eq_lookup (b : UInt8) :
    Text.escapeByte b = (escapes.lookup b).getD [b] := by
  unfold Text.escapeByte
  split_ifs with hquote hbackslash hnewline htab hreturn
  · rw [hquote]
    rfl
  · rw [hbackslash]
    rfl
  · rw [hnewline]
    rfl
  · rw [htab]
    rfl
  · rw [hreturn]
    rfl
  · simp [escapes, List.lookup_cons, beq_false_of_ne hquote, beq_false_of_ne hbackslash,
      beq_false_of_ne hnewline, beq_false_of_ne htab, beq_false_of_ne hreturn]

theorem quoted_eq_inQuotes (t : Text) : t.quoted = inQuotes t := by
  have hescape : Text.escapeByte = fun b => (escapes.lookup b).getD [b] := by
    funext b
    exact escapeByte_eq_lookup b
  simp [Text.quoted, inQuotes, Text.concat, hescape]

theorem displayWithin_scalar (hk : v.isCollection = false) :
    h.displayWithin depth path v = h.scalarText v := by
  cases v <;> simp_all [Value.isCollection, displayWithin, scalarText, quoted_eq_inQuotes]

theorem displayWithin_again (hk : v.isCollection = true) (hm : v ∈ path) :
    h.displayWithin depth path v = v.abbreviation := by
  obtain ⟨r, rfl⟩ | ⟨r, rfl⟩ := isCollection_cases hk
  · unfold displayWithin
    exact if_pos hm
  · unfold displayWithin
    exact if_pos hm

theorem displayWithin_full (hk : v.isCollection = true) (hm : v ∉ path) :
    h.displayWithin (depth + 1) path v = v.enclosed (Text.join ", "
      ((h.content v).map fun c => c.1 ++ h.displayWithin depth (v :: path) c.2)) := by
  obtain ⟨r, rfl⟩ | ⟨r, rfl⟩ := isCollection_cases hk
  · rw [displayWithin, if_neg hm]
    simp [Value.enclosed, content, Function.comp_def]
  · rw [displayWithin, if_neg hm]
    simp [Value.enclosed, content, Function.comp_def, Text.concat]

/-- The collections of the heap. -/
def collections (h : Heap) : List Value :=
  (List.range h.lists.size).map .list ++ (List.range h.dicts.size).map .dict

theorem length_collections (h : Heap) : h.collections.length + 1 = h.displayDepth := by
  simp [collections, displayDepth]

theorem mem_collections (hx : h.Holds v x) : v ∈ h.collections := by
  obtain ⟨label, hx⟩ := hx
  have hk : v.isCollection = true := by
    cases v <;> simp_all [content, Value.isCollection]
  obtain ⟨r, rfl⟩ | ⟨r, rfl⟩ := isCollection_cases hk
  · by_cases hr : r < h.lists.size
    · simp [collections, hr]
    · simp [content, items, Array.getD_eq_getD_getElem?, hr] at hx
  · by_cases hr : r < h.dicts.size
    · simp [collections, hr]
    · simp [content, entries, Array.getD_eq_getD_getElem?, hr] at hx

theorem length_lt_displayDepth (sub : path ⊆ h.collections) (nodup : path.Nodup) :
    path.length < h.displayDepth := by
  have hle : path.length ≤ h.collections.length := (nodup.subperm sub).length_le
  have hlen : h.collections.length + 1 = h.displayDepth := length_collections h
  omega

theorem holds_of_mem {parts : List ((Text × Value) × Text)} {p : (Text × Value) × Text}
    (hparts : parts.map Prod.fst = h.content v) (hp : p ∈ parts) : h.Holds v p.1.2 :=
  ⟨p.1.1, hparts ▸ List.mem_map_of_mem hp⟩

theorem renders_displayWithin (sub : path ⊆ h.collections) (nodup : path.Nodup)
    (deep : h.displayDepth ≤ depth + path.length) :
    h.Renders path v (h.displayWithin depth path v) := by
  induction depth generalizing path v with
  | zero =>
    -- a path of different collections is no longer than there are collections
    have hlt : path.length < h.displayDepth := length_lt_displayDepth sub nodup
    omega
  | succ depth ih =>
    by_cases hk : v.isCollection = true
    · by_cases hm : v ∈ path
      · rw [displayWithin_again hk hm]
        exact .again hk hm
      · let parts := (h.content v).map fun c => (c, h.displayWithin depth (v :: path) c.2)
        have hparts : parts.map Prod.fst = h.content v := by simp [parts, Function.comp_def]
        have hfull : h.Renders path v
            (v.enclosed (Text.join ", " (parts.map fun p => p.1.1 ++ p.2))) := by
          apply Renders.full hk hm hparts
          intro p hp
          obtain ⟨c, hc, rfl⟩ := List.mem_map.1 hp
          apply ih
          · exact List.cons_subset.2 ⟨mem_collections (holds_of_mem hparts hp), sub⟩
          · exact List.nodup_cons.2 ⟨hm, nodup⟩
          · simp only [List.length_cons]
            omega
        rw [displayWithin_full hk hm]
        simpa [parts, Function.comp_def] using hfull
    · have hk : v.isCollection = false := by simpa using hk
      rw [displayWithin_scalar hk]
      exact .scalar hk

theorem parts_unique {parts others : List ((Text × Value) × Text)}
    (heads : parts.map Prod.fst = others.map Prod.fst)
    (texts : ∀ p ∈ parts, ∀ q ∈ others, p.1 = q.1 → p.2 = q.2) : parts = others := by
  induction parts generalizing others with
  | nil => exact (List.map_eq_nil_iff.1 heads.symm).symm
  | cons p parts ih =>
    cases others with
    | nil => simp at heads
    | cons q others =>
      obtain ⟨hpq, heads⟩ := List.cons.inj heads
      have htext : p.2 = q.2 := texts p (by simp) q (by simp) hpq
      rw [Prod.ext hpq htext, ih heads fun p hp q hq => texts p (by simp [hp]) q (by simp [hq])]

theorem Renders.unique (ht : h.Renders path v t) (hs : h.Renders path v s) : t = s := by
  induction ht generalizing s with
  | scalar hk =>
    cases hs with
    | scalar => rfl
    | again hk' | full hk' => simp [hk] at hk'
  | again hk hm =>
    cases hs with
    | scalar hk' => simp [hk] at hk'
    | again => rfl
    | full hk' hm' => exact absurd hm hm'
  | full hk hm hparts hrest ih =>
    cases hs with
    | scalar hk' => simp [hk] at hk'
    | again hk' hm' => exact absurd hm' hm
    | full hk' hm' hparts' hrest' =>
      rw [parts_unique (hparts.trans hparts'.symm) fun p hp q hq hpq =>
        ih p hp (hpq ▸ hrest' q hq)]

theorem Spells.unique (ht : h.Spells v t) (hs : h.Spells v s) : t = s := by
  induction ht generalizing s with
  | scalar hk =>
    cases hs with
    | scalar => rfl
    | full hk' => simp [hk] at hk'
  | full hk hparts hrest ih =>
    cases hs with
    | scalar hk' => simp [hk] at hk'
    | full hk' hparts' hrest' =>
      rw [parts_unique (hparts.trans hparts'.symm) fun p hp q hq hpq =>
        ih p hp (hpq ▸ hrest' q hq)]

theorem spells_of_renders (hacyclic : h.Acyclic v) (hopen : ∀ p ∈ path, TransGen h.Holds p v)
    (ht : h.Renders path v t) : h.Spells v t := by
  induction ht with
  | scalar hk => exact .scalar hk
  | again hk hm => exact absurd (hopen _ hm) (hacyclic _ .refl)
  | full hk hm hparts hrest ih =>
    refine .full hk hparts fun p hp => ?_
    have hholds : h.Holds _ p.1.2 := holds_of_mem hparts hp
    apply ih p hp
    · intro u hu
      exact hacyclic u (.head hholds hu)
    · intro q hq
      obtain rfl | hq := List.mem_cons.1 hq
      · exact .single hholds
      · exact (hopen q hq).tail hholds

theorem renders_nested (h : Heap) (v : Value) :
    h.Renders [] v (h.displayWithin h.displayDepth [] v) :=
  renders_displayWithin (List.nil_subset _) List.nodup_nil (Nat.le_refl _)

theorem atTop_iff {nested : Value → Text → Prop}
    (hnested : ∀ t, nested v t ↔ t = h.displayWithin h.displayDepth [] v) :
    AtTop nested v t ↔ t = h.display v := by
  cases v <;> simp only [AtTop, display, hnested]

/-- Writing a value ends, with one text, in which a collection is abbreviated exactly where it is
open itself; and where no cycle can be reached, it is the text with every collection in full. -/
theorem display_eq_iff_renders (h : Heap) (v : Value) :
    (∀ t, AtTop (h.Renders []) v t ↔ t = h.display v) ∧
      (h.Acyclic v → ∀ t, AtTop h.Spells v t ↔ t = h.display v) := by
  have hrenders : h.Renders [] v (h.displayWithin h.displayDepth [] v) := renders_nested h v
  constructor
  · intro t
    apply atTop_iff
    intro t
    exact ⟨fun ht => ht.unique hrenders, fun ht => ht ▸ hrenders⟩
  · intro hacyclic t
    have hspells : h.Spells v (h.displayWithin h.displayDepth [] v) :=
      spells_of_renders hacyclic (by simp) hrenders
    apply atTop_iff
    intro t
    exact ⟨fun ht => ht.unique hspells, fun ht => ht ▸ hspells⟩

/-- No cycle can be reached where each collection ranks above what it holds. -/
theorem acyclic_of_rank (rank : Value → Nat) (inside : Value → Prop) (hv : inside v)
    (hstep : ∀ u x, inside u → h.Holds u x → inside x ∧ rank x < rank u) : h.Acyclic v := by
  have hreach : ∀ u, ReflTransGen h.Holds v u → inside u := by
    intro u hu
    induction hu with
    | refl => exact hv
    | tail _ hx ih => exact (hstep _ _ ih hx).1
  have hrank : ∀ u x, inside u → TransGen h.Holds u x → inside x ∧ rank x < rank u := by
    intro u x hu hx
    induction hx with
    | single hx => exact hstep _ _ hu hx
    | tail _ hx ih =>
      obtain ⟨hx, hlt⟩ := hstep _ _ ih.1 hx
      exact ⟨hx, Nat.lt_trans hlt ih.2⟩
  intro u hu hcycle
  exact Nat.lt_irrefl _ (hrank u u (hreach u hu) hcycle).2

/-- A list that is held twice, a dictionary with a string that has every escape, and a list that
holds itself beside the first one. -/
def shared : Heap where
  lists := #[#[.list 1, .list 1, .dict 0], #[.nil], #[.list 2, .list 0]]
  dicts := #[[("k", .string "a\"\\\n\t\r")]]

theorem display_eq_iff_renders_shared : shared.Acyclic (.list 0) ∧
    AtTop shared.Spells (.list 0) "[[null], [null], \x7bk: \"a\\\"\\\\\\n\\t\\r\"\x7d]" ∧
    AtTop (shared.Renders []) (.list 2)
      "[[...], [[null], [null], \x7bk: \"a\\\"\\\\\\n\\t\\r\"\x7d]]" := by
  have hacyclic : shared.Acyclic (.list 0) := by
    apply acyclic_of_rank
      (fun | .list 0 => 2 | .list 1 => 1 | .dict 0 => 1 | _ => 0) (· ≠ .list 2) (by simp)
    rintro u x hu ⟨label, hx⟩
    match u with
    | .list 0 | .list 1 | .dict 0 =>
      simp [content, items, entries, shared] at hx
      grind
    | .list 2 => exact absurd rfl hu
    | .list (n + 3) => simp [content, items, shared] at hx
    | .dict (n + 1) => simp [content, entries, shared] at hx
    | .nil | .number _ | .boolean _ | .string _ | .error _ => simp [content] at hx
  refine ⟨hacyclic, ?_, ?_⟩
  · apply ((display_eq_iff_renders shared (.list 0)).2 hacyclic _).2
    decide +kernel
  · apply ((display_eq_iff_renders shared (.list 2)).1 _).2
    decide +kernel

end Heap
end ScriptMachine
