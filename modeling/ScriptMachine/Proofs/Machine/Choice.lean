import ScriptMachine.Proofs.Machine.Callee
import ScriptMachine.Proofs.Machine.Discipline
import ScriptMachine.Proofs.Meaning.Guarded

namespace ScriptMachine

/-- The error was made from a type name, whatever its message and the calls it has recorded. -/
def ScriptError.MadeFrom (e : ScriptError) (typeName : Text) : Prop :=
  ∃ message, e.untraced = .ofTypeName typeName message

theorem ErrorKind.ne_custom_of_mem_builtin {kind : ErrorKind} (h : kind ∈ builtin) :
    kind ≠ custom := by
  rintro rfl
  exact absurd h (by decide)

theorem ScriptError.lower_typeName_ofTypeName (typeName message : Text) :
    Text.lower (ofTypeName typeName message).typeName = Text.lower typeName := by
  -- a kind that was found has a name of the same letters, and the custom kind keeps the name
  unfold ScriptError.typeName ofTypeName ErrorKind.ofName
  cases hfind : ErrorKind.builtin.find? fun kind => Text.sameIgnoringCase typeName kind.name with
  | none => rfl
  | some kind =>
    have hcustom := ErrorKind.ne_custom_of_mem_builtin (List.mem_of_find?_eq_some hfind)
    have hsame : Text.lower typeName = Text.lower kind.name := by
      simpa [Text.sameIgnoringCase] using List.find?_some hfind
    simp [hcustom, hsame]

theorem ScriptError.MadeFrom.matchesFilter {e : ScriptError} {typeName : Text}
    (h : e.MadeFrom typeName) (filter : Text) :
    e.matchesFilter filter = (Text.lower typeName == Text.lower filter) := by
  obtain ⟨message, he⟩ := h
  have hname : e.untraced.typeName = (ofTypeName typeName message).typeName := congrArg _ he
  have hname : e.typeName = (ofTypeName typeName message).typeName := hname
  rw [ScriptError.matchesFilter, hname, Text.sameIgnoringCase, lower_typeName_ofTypeName]

namespace Machine

/-- The clause names the type, in letters of any case. -/
def Names (p : Program) (typeName : Text) (c : CatchClause) : Prop :=
  c.filter ≠ noIndex ∧ ∃ filter, filterText? p c = some filter ∧
    Text.lower typeName = Text.lower filter

/-- The clause that the rule gives: the first that names the type, else the first without a
filter. -/
inductive Chosen (p : Program) (typeName : Text) (clauses : List CatchClause) :
    Option CatchClause → Prop
  | named {before after : List CatchClause} {c : CatchClause} : clauses = before ++ c :: after →
      (∀ d ∈ before, ¬Names p typeName d) → Names p typeName c → Chosen p typeName clauses (some c)
  | general {before after : List CatchClause} {c : CatchClause} : clauses = before ++ c :: after →
      (∀ d ∈ clauses, ¬Names p typeName d) → (∀ d ∈ before, d.filter ≠ noIndex) →
      c.filter = noIndex → Chosen p typeName clauses (some c)
  | none : (∀ d ∈ clauses, ¬Names p typeName d ∧ d.filter ≠ noIndex) →
      Chosen p typeName clauses none

/-- The construct of a guard lets errors of a type through: it has no finally block, and the rule
gives no clause of it or its handlers run already. -/
def Passes (p : Program) (typeName : Text) (g : Guard) : Prop :=
  ∃ t, p.tries[g.table]? = some t ∧ t.cleanup? = none ∧
    (g.phase = .body → Chosen p typeName t.clauses none)

variable {p p' : Program} {typeName typeName' : Text} {e e' : ScriptError}
  {clauses clauses' : List CatchClause}

/-- The test that the machine makes of a clause with a filter. -/
def names (p : Program) (typeName : Text) (c : CatchClause) : Bool :=
  c.filter != noIndex &&
    (filterText? p c).any fun filter => Text.lower typeName == Text.lower filter

theorem names_iff {c : CatchClause} : names p typeName c ↔ Names p typeName c := by
  simp [names, Names, Option.any_eq_true]

theorem find?_of_append {α : Type} {f : α → Bool} {before after : List α} {a : α}
    (hbefore : ∀ b ∈ before, f b = false) (ha : f a = true) :
    (before ++ a :: after).find? f = some a :=
  List.find?_eq_some_iff_append.2 ⟨ha, before, after, rfl, by simpa using hbefore⟩

theorem Chosen.eq {r : Option CatchClause} (h : Chosen p typeName clauses r) :
    (clauses.find? (names p typeName)).or (clauses.find? (·.filter == noIndex)) = r := by
  have hnone (hn : ∀ d ∈ clauses, ¬Names p typeName d) : clauses.find? (names p typeName) =
      Option.none :=
    List.find?_eq_none.2 fun d hd => mt names_iff.1 (hn d hd)
  cases h with
  | named hclauses hbefore hc =>
    rw [hclauses, find?_of_append (fun d hd => by simpa using mt names_iff.1 (hbefore d hd))
      (names_iff.2 hc), Option.some_or]
  | general hclauses hn hbefore hc =>
    rw [hnone hn, Option.none_or, hclauses]
    exact find?_of_append (fun d hd => by simpa using hbefore d hd) (by simpa using hc)
  | none h =>
    rw [hnone fun d hd => (h d hd).1, Option.none_or]
    exact List.find?_eq_none.2 fun d hd => by simpa using (h d hd).2

end Machine
end ScriptMachine
