import ScriptMachine.Proofs.Compile.Flow
import ScriptMachine.Proofs.Compile.Occurrence
import ScriptMachine.Proofs.Meaning.Evaluate

namespace ScriptMachine
namespace Compile

open Verify

theorem le_of_exprAt {L : Layout} (e : Expr) {pc pc' : Nat} (h : ExprAt L e pc pc') : pc ≤ pc' :=
  ExprAt.end_eq e h ▸ Nat.le_add_right _ _

theorem le_of_exprsAt {L : Layout} (es : List Expr) {pc pc' : Nat} (h : ExprsAt L es pc pc') :
    pc ≤ pc' :=
  ExprsAt.end_eq es h ▸ Nat.le_add_right _ _

/-- Code stands behind what comes before it in the text, and so do its tables and counters. -/
structure Mark.Le (m m' : Mark) : Prop where
  pc : m.pc ≤ m'.pc
  table : m.table ≤ m'.table
  counter : m.counter ≤ m'.counter

theorem Mark.Le.refl (m : Mark) : m.Le m := ⟨Nat.le_refl _, Nat.le_refl _, Nat.le_refl _⟩

theorem Mark.le_to (m : Mark) {pc : Nat} (h : m.pc ≤ pc) : m.Le (m.to pc) :=
  ⟨h, Nat.le_refl _, Nat.le_refl _⟩

theorem Mark.le_next (m : Mark) : m.Le (m.to (m.pc + 1)) := m.le_to (Nat.le_succ _)

theorem Mark.Le.trans {m m' m'' : Mark} (h : m.Le m') (h' : m'.Le m'') : m.Le m'' :=
  ⟨Nat.le_trans h.pc h'.pc, Nat.le_trans h.table h'.table, Nat.le_trans h.counter h'.counter⟩

mutual

theorem le_of_actionAt {L : Layout} : (a : Action) → ∀ {x m m'}, ActionAt L a x m m' → m.Le m'
  | .write e, _, m, _, ⟨_, he, _, h⟩ => h ▸ m.le_to (Nat.le_succ_of_le (le_of_exprAt e he))
  | .ask _, _, m, _, ⟨_, _, h⟩ => h ▸ m.le_to (Nat.le_add_right _ _)
  | .set _ e, _, m, _, ⟨_, he, _, h⟩ => h ▸ m.le_to (Nat.le_succ_of_le (le_of_exprAt e he))
  | .setIndex c i e, _, m, _, ⟨_, _, _, hc, hi, he, _, h⟩ => by
    have := le_of_exprAt c hc
    have := le_of_exprAt i hi
    have := le_of_exprAt e he
    exact h ▸ m.le_to (by omega)
  | .branch c yes no, _, m, _, ⟨q, hc, h⟩ => by
    have hq : m.Le (m.to (q + 1)) := m.le_to (Nat.le_succ_of_le (le_of_exprAt c hc))
    split at h
    · exact hq.trans (le_of_blockAt yes h.2)
    · obtain ⟨y, -, hyes, -, hno⟩ := h
      exact (hq.trans (le_of_blockAt yes hyes)).trans (y.le_next.trans (le_of_blockAt no hno))
  | .whileLoop c b, _, m, _, ⟨q, y, hc, _, hb, _, h⟩ => by
    have hq : m.Le (m.to (q + 1)) := m.le_to (Nat.le_succ_of_le (le_of_exprAt c hc))
    rw [h]
    exact (hq.trans (le_of_blockAt b hb)).trans y.le_next
  | .repeatLoop n b, _, m, _, ⟨slot, q, y, _, hn, _, _, _, _, _, hb, _, _, _, _, _, h⟩ => by
    have hq := le_of_exprAt n hn
    obtain ⟨hpc, htable, hcounter⟩ := le_of_blockAt b hb
    rw [h]
    dsimp only at hpc
    exact ⟨by dsimp only [Mark.to]; omega, htable, Nat.le_of_succ_le hcounter⟩
  | .exit _, _, m, _, ⟨_, _, _, _, h⟩ => h ▸ m.le_to (by omega)
  | .function _ _ _, _, m, _, h => by
    rw [show _ = m from h]
    exact Mark.Le.refl m
  | .use _ args, _, m, _, ⟨_, hargs, _, _, h⟩ => by
    have := le_of_exprsAt args hargs
    exact h ▸ m.le_to (by omega)
  | .ret none, _, m, _, ⟨_, _, h⟩ => h ▸ m.le_to (Nat.le_add_right _ _)
  | .ret (some e), _, m, _, ⟨_, he, _, h⟩ => h ▸ m.le_to (Nat.le_succ_of_le (le_of_exprAt e he))
  | .guard b hs c, _, m, _, ⟨t, y, z, _, _, hb, _, hhs, hc⟩ => by
    obtain ⟨hpc, htable, hcounter⟩ := le_of_blockAt b hb
    have hy : m.Le y := ⟨Nat.le_of_succ_le hpc, Nat.le_of_succ_le htable, hcounter⟩
    exact hy.trans (y.le_next.trans ((le_of_catchesAt hs hhs).trans (le_of_cleanupAt c hc)))
  | .throw e, _, m, _, ⟨_, he, _, h⟩ => h ▸ m.le_to (Nat.le_succ_of_le (le_of_exprAt e he))
  | .writeFile c e, _, m, _, ⟨_, _, hc, he, _, h⟩ => by
    have := le_of_exprAt c hc
    have := le_of_exprAt e he
    exact h ▸ m.le_to (by omega)

theorem le_of_handlerAt {L : Layout} :
    (h : Handler) → ∀ {x c m m'}, HandlerAt L h x c m m' → m.Le m'
  | .mk _ _ b, _, _, m, _, ⟨_, _, _, hb⟩ => m.le_next.trans (le_of_blockAt b hb)

theorem le_of_catchesAt {L : Layout} : (hs : List Handler) → ∀ {x out cs m m'},
    CatchesAt L hs x out cs m m' → m.Le m'
  | [], _, _, _, m, _, ⟨_, h⟩ => h ▸ Mark.Le.refl m
  | h :: rest, _, _, _, _, _, ⟨_, _, y, _, hh, _, hrest⟩ =>
    (le_of_handlerAt h hh).trans (y.le_next.trans (le_of_catchesAt rest hrest))

theorem le_of_cleanupAt {L : Layout} : (c : Option (List Stmt)) → ∀ {w m m'},
    CleanupAt L c w m m' → m.Le m'
  | none, _, m, _, ⟨_, h⟩ => h ▸ Mark.Le.refl m
  | some b, _, _, _, ⟨_, y, hb, _, h⟩ => by
    rw [h]
    exact (le_of_blockAt b hb).trans y.le_next

theorem le_of_blockAt {L : Layout} : (b : List Stmt) → ∀ {x m m'}, BlockAt L b x m m' → m.Le m'
  | [], _, m, _, h => by
    rw [show _ = m from h]
    exact Mark.Le.refl m
  | .mk _ a :: rest, _, _, _, ⟨y, ha, hrest⟩ => (le_of_actionAt a ha).trans
      (le_of_blockAt rest hrest)

end

section

variable {L : Layout} {f : Function} {owned : Nat → Prop} {R : List Scope → Prop}

mutual

theorem spans_expr (hf : Hosts L f) : (e : Expr) →
    ∀ {P : Assignment → Prop} {pc pc' k : Nat} {sc : List Scope},
    ExprAt L e pc pc' → Spans L.program f owned R P pc pc' ⟨k, sc⟩ ⟨k + 1, sc⟩
  | .number _, _, _, _, _, _, ⟨h, rfl⟩ => spans_loads h
  | .string _, _, _, _, _, _, ⟨h, rfl⟩ => spans_loads h
  | .boolean _, _, _, _, _, _, ⟨h, rfl⟩ => spans_loads h
  | .nil, _, _, _, _, _, ⟨h, rfl⟩ => spans_loads h
  | .identifier _, _, _, _, _, _, ⟨h, rfl⟩ => spans_reads hf h
  | .unary op e, _, _, _, _, _, ⟨q, he, hop, rfl⟩ => by
    refine (spans_expr hf e he).append ?_
    cases op
    · exact spans_plain (n := 1) (m := 1) hop ⟨rfl, rfl⟩ rfl rfl rfl
    · exact spans_plain (n := 1) (m := 1) hop ⟨rfl, rfl⟩ rfl rfl rfl
  | .binary op l r, _, _, _, k, _, ⟨q, s, hl, hr, hop, rfl⟩ => by
    refine ((spans_expr hf l hl).append (spans_expr hf r hr)).append ?_
    refine spans_plain (n := 2) (m := 1) (k := k) hop ?_ ?_ ?_ ?_
    all_goals cases op <;> first | rfl | exact ⟨rfl, rfl⟩
  | .logical op l r, P, pc, _, k, sc, ⟨q, t, s, u, hl, ht, hjump, hr, hu, hjump', hother, hend,
      hdecided, rfl⟩ => by
    refine Spans.out (Spans.trans (q := u + 3) (τ := ⟨k, sc⟩) ?_ (spans_loads hdecided))
    exact ((spans_expr hf l hl).append (spans_tests ht)).append <|
      (spans_jumpIfFalse hjump fun φ hφ => hφ.2).append <|
      ((spans_expr hf r hr).append (spans_tests hu)).append <|
      (spans_jumpIfFalse hjump' fun φ hφ => hφ.2).append <|
      (spans_loads hother).append (spans_jump hend fun φ hφ => hφ.1.2)
  | .call name args, _, _, _, k, sc, ⟨q, hargs, hcall, rfl⟩ =>
    (spans_exprs hf args hargs).append (spans_calls hf hcall)
  | .list items, _, _, _, k, _, ⟨q, hitems, hop, rfl⟩ =>
    (spans_exprs hf items hitems).append (spans_indexed (n := items.length) (m := 1) hop rfl rfl rfl
      (show (0 : Int) ≤ items.length by omega) trivial nofun nofun)
  | .dict entries, _, _, _, k, _, ⟨q, hentries, hop, rfl⟩ =>
    (spans_entries hf entries hentries).append (spans_indexed (n := entries.length * 2) (m := 1) hop rfl
      (Int.natCast_mul _ 2).symm rfl (show (0 : Int) ≤ entries.length by omega) trivial nofun nofun)
  | .index c i, _, _, _, k, _, ⟨q, s, hc, hi, hop, rfl⟩ =>
    ((spans_expr hf c hc).append (spans_expr hf i hi)).append
      (spans_plain (n := 2) (m := 1) (k := k) hop ⟨rfl, rfl⟩ rfl rfl rfl)
  | .newError typeName e, _, _, _, k, _, ⟨q, i, he, hop, hi, rfl⟩ => by
    obtain ⟨hlt, -⟩ := Array.getElem?_eq_some_iff.1 hi
    exact (spans_expr hf e he).append (spans_indexed (n := 1) (m := 1) hop rfl rfl rfl
      ⟨by omega, by omega⟩ trivial nofun (fun _ => by rw [hi]; rfl))
  | .errorMessage e, _, _, _, _, _, ⟨q, he, hop, rfl⟩ =>
    (spans_expr hf e he).append (spans_plain (n := 1) (m := 1) hop ⟨rfl, rfl⟩ rfl rfl rfl)
  | .errorType e, _, _, _, _, _, ⟨q, he, hop, rfl⟩ =>
    (spans_expr hf e he).append (spans_plain (n := 1) (m := 1) hop ⟨rfl, rfl⟩ rfl rfl rfl)
  | .fileText e, _, _, _, _, _, ⟨q, he, hop, rfl⟩ =>
    (spans_expr hf e he).append (spans_plain (n := 1) (m := 1) hop ⟨rfl, rfl⟩ rfl rfl rfl)

theorem spans_exprs (hf : Hosts L f) : (es : List Expr) → ∀ {P : Assignment → Prop} {pc pc' k : Nat}
    {sc : List Scope}, ExprsAt L es pc pc' →
    Spans L.program f owned R P pc pc' ⟨k, sc⟩ ⟨k + es.length, sc⟩
  | [], _, pc, _, k, sc, h => by
    rw [show _ = pc from h]
    exact .refl _ _
  | e :: rest, _, _, _, k, sc, ⟨q, he, hrest⟩ => by
    rw [List.length_cons, Nat.add_comm rest.length, ← Nat.add_assoc]
    exact (spans_expr hf e he).append (spans_exprs hf rest hrest)

theorem spans_entries (hf : Hosts L f) : (entries : List (Text × Expr)) → ∀ {P : Assignment → Prop}
    {pc pc' k : Nat} {sc : List Scope}, EntriesAt L entries pc pc' →
    Spans L.program f owned R P pc pc' ⟨k, sc⟩ ⟨k + entries.length * 2, sc⟩
  | [], _, pc, _, k, sc, h => by
    rw [show _ = pc from h]
    exact .refl _ _
  | (key, e) :: rest, _, _, _, k, sc, ⟨q, hkey, he, hrest⟩ => by
    rw [List.length_cons, show k + (rest.length + 1) * 2 = k + 1 + 1 + rest.length * 2 by omega]
    exact ((spans_loads hkey).append (spans_expr hf e he)).append (spans_entries hf rest hrest)

end

/-- Where the exits of a loop lead: behind the guarded constructs inside of it. -/
def Exited (P : Assignment → Prop) (sc : List Scope) (x : Option Exits) : Prop :=
  ∀ e, x = some e → ∃ inner outer, sc = inner ++ outer ∧ inner.length = e.leave ∧
    (∀ s ∈ inner, s.kind = .guarded ∧ s.depth = 0) ∧
    ∀ φ, P φ → ∀ way, φ (e.target way) = some ⟨0, outer⟩

theorem Exited.mono {P Q : Assignment → Prop} {sc : List Scope} {x : Option Exits}
    (h : Exited P sc x) (hPQ : ∀ φ, Q φ → P φ) : Exited Q sc x := by
  intro e he
  obtain ⟨inner, outer, hsc, hlength, hinner, htarget⟩ := h e he
  exact ⟨inner, outer, hsc, hlength, hinner, fun φ hφ => htarget φ (hPQ φ hφ)⟩

theorem exited_none {P : Assignment → Prop} {sc : List Scope} : Exited P sc none := nofun

theorem Exited.inTry {P : Assignment → Prop} {sc : List Scope} {x : Option Exits}
    (h : Exited P sc x) (table : Nat) :
    Exited P (⟨table, .guarded, 0⟩ :: sc) (x.map Exits.inTry) := by
  intro e he
  obtain ⟨e, rfl, rfl⟩ := Option.map_eq_some_iff.1 he
  obtain ⟨inner, outer, rfl, hlength, hinner, htarget⟩ := h e rfl
  refine ⟨_ :: inner, outer, rfl, by rw [List.length_cons, hlength]; rfl, ?_, ?_⟩
  · intro s hs
    rcases List.mem_cons.1 hs with rfl | hs
    · exact ⟨rfl, rfl⟩
    · exact hinner s hs
  · intro φ hφ way
    cases way
    · exact htarget φ hφ .stop
    · exact htarget φ hφ .skip

theorem exited_loop {P : Assignment → Prop} {sc : List Scope} {stop skip : Nat}
    (h : ∀ φ, P φ → φ stop = some ⟨0, sc⟩ ∧ φ skip = some ⟨0, sc⟩) :
    Exited P sc (some ⟨0, stop, skip⟩) := by
  rintro _ ⟨⟩
  refine ⟨[], sc, rfl, rfl, by simp, fun φ hφ way => ?_⟩
  cases way
  · exact (h φ hφ).1
  · exact (h φ hφ).2

theorem spans_leaves {P : Assignment → Prop} {inner outer : List Scope} {pc : Nat}
    (hinner : ∀ s ∈ inner, s.kind = .guarded ∧ s.depth = 0) (h : L.Leaves inner.length pc) :
    Spans L.program f owned R P pc (pc + inner.length) ⟨0, inner ++ outer⟩ ⟨0, outer⟩ := by
  induction inner generalizing pc with
  | nil => exact .refl _ _
  | cons s inner ih =>
    obtain ⟨table, kind, depth⟩ := s
    obtain ⟨rfl, rfl⟩ := hinner _ List.mem_cons_self
    have hat := h 0 (Nat.succ_pos _)
    have hrest : L.Leaves inner.length (pc + 1) := by
      intro i hi
      have := h (i + 1) (Nat.succ_lt_succ hi)
      rwa [show pc + (i + 1) = pc + 1 + i by omega] at this
    rw [List.length_cons, show pc + (inner.length + 1) = pc + 1 + inner.length by omega]
    have hleft := ih (fun s hs => hinner s (List.mem_cons_of_mem _ hs)) hrest
    exact Spans.trans (spans_popTry hat fun φ hφ => hφ.2) (hleft.mono fun _ => And.left)

theorem Layout.Filters.isSome {typeName : Text} {w : Int32} (h : L.Filters typeName w)
    (hne : w ≠ noIndex) : ((L.program.constant? w).bind Constant.string?).isSome := by
  unfold Layout.Filters at h
  split at h
  · exact absurd h hne
  · obtain ⟨i, hi, hconstant⟩ := h
    simp [Program.constant?, hi, hconstant, Constant.string?]

theorem proper_of_catchesAt : (hs : List Handler) → ∀ {x : Option Exits} {out : Nat}
    {cs : List CatchClause} {m m' : Mark}, CatchesAt L hs x out cs m m' → ∀ {c}, c ∈ cs →
    (c.filter ≠ noIndex → ((L.program.constant? c.filter).bind Constant.string?).isSome) ∧
      0 ≤ c.handler.toInt
  | [], _, _, _, _, _, ⟨h, _⟩, c, hc => by
    rw [h] at hc
    cases hc
  | .mk _ _ _ :: rest, _, _, _, _, _, ⟨clause, later, y, h, ⟨hfilter, hword, _⟩, _, hrest⟩, c,
      hc => by
    rw [h] at hc
    rcases List.mem_cons.1 hc with rfl | hc
    · exact ⟨hfilter.isSome, by rw [hword]; omega⟩
    · exact proper_of_catchesAt rest hrest hc

theorem proper_of_guard {hs : List Handler} {c : Option (List Stmt)} {x : Option Exits} {out : Nat}
    {t : TryTable} {m y z : Mark} (hhs : CatchesAt L hs x out t.clauses m y)
    (hc : CleanupAt L c t.cleanup y z) : Proper L.program t := by
  refine ⟨fun h => (proper_of_catchesAt hs hhs h).1, fun h => (proper_of_catchesAt hs hhs h).2, ?_⟩
  intro hne
  cases c with
  | none => exact absurd hc.1 hne
  | some b =>
    rw [hc.1]
    omega

/-- Scopes of a return: none is a finally block, unless they are loose. -/
def Outside (loose : Prop) (sc : List Scope) : Prop := loose ∨ ∀ s ∈ sc, s.kind = .guarded

/-- A text in some scopes has no return in a finally block, whether the block is a part of the text
or around it, unless returns are loose. -/
def Orderly (loose : Prop) (tidy returns : Bool) (sc : List Scope) : Prop :=
  loose ∨ (tidy ∧ (returns → ∀ s ∈ sc, s.kind = .guarded))

section

variable {loose : Prop} {tidy tidy' returns returns' : Bool} {sc : List Scope}

theorem Orderly.outside (h : Orderly loose tidy true sc) : Outside loose sc :=
  h.imp id fun h => h.2 rfl

theorem Orderly.left (h : Orderly loose (tidy && tidy') (returns || returns') sc) :
    Orderly loose tidy returns sc := by
  refine h.imp id fun ⟨htidy, hreturns⟩ => ?_
  simp only [Bool.and_eq_true, Bool.or_eq_true] at htidy hreturns
  exact ⟨htidy.1, fun h => hreturns (.inl h)⟩

theorem Orderly.right (h : Orderly loose (tidy && tidy') (returns || returns') sc) :
    Orderly loose tidy' returns' sc := by
  refine h.imp id fun ⟨htidy, hreturns⟩ => ?_
  simp only [Bool.and_eq_true, Bool.or_eq_true] at htidy hreturns
  exact ⟨htidy.2, fun h => hreturns (.inr h)⟩

theorem Orderly.inTry (h : Orderly loose tidy returns sc) (table : Nat) :
    Orderly loose tidy returns (⟨table, .guarded, 0⟩ :: sc) :=
  h.imp id fun h => ⟨h.1, fun hreturns => List.forall_mem_cons.2 ⟨rfl, h.2 hreturns⟩⟩

theorem Orderly.inCleanup {sc' : List Scope}
    (h : Orderly loose (tidy && tidy' && !returns') (returns || returns') sc) :
    Orderly loose tidy' returns' sc' := by
  refine h.imp id fun ⟨htidy, _⟩ => ?_
  simp only [Bool.and_eq_true, Bool.not_eq_true'] at htidy
  exact ⟨htidy.1.2, fun h => by simp [htidy.2] at h⟩

end

section

variable {loose : Prop}

open Meaning (actionTidy actionReturns handlersTidy handlersReturn cleanupTidy cleanupReturns blockTidy
  blockReturns)

mutual

theorem spans_action (hf : Hosts L f) : (a : Action) → ∀ {P : Assignment → Prop} {x : Option Exits}
    {m m' : Mark} {sc : List Scope}, ActionAt L a x m m' → Exited P sc x →
    (∀ t, m.table ≤ t → t < m'.table → owned t) →
    Orderly loose (actionTidy a) (actionReturns a) sc →
    Spans L.program f owned (Outside loose) P m.pc m'.pc ⟨0, sc⟩ ⟨0, sc⟩
  | .write e, _, _, _, _, _, ⟨q, he, hop, rfl⟩, _, _, _ =>
    (spans_expr hf e he).append (spans_plain (n := 1) (m := 0) hop ⟨rfl, rfl⟩ rfl rfl rfl)
  | .ask _, _, _, _, _, _, ⟨hop, hw, rfl⟩, _, _, _ =>
    (spans_plain (n := 0) (m := 1) (k := 0) hop ⟨rfl, rfl⟩ rfl rfl rfl).append (spans_writes hf hw)
  | .set _ e, _, _, _, _, _, ⟨q, he, hw, rfl⟩, _, _, _ =>
    (spans_expr hf e he).append (spans_writes hf hw)
  | .setIndex c i e, _, _, _, _, _, ⟨q, s, t, hc, hi, he, hop, rfl⟩, _, _, _ =>
    (((spans_expr hf c hc).append (spans_expr hf i hi)).append (spans_expr hf e he)).append
      (spans_plain (n := 3) (m := 0) (k := 0) hop ⟨rfl, rfl⟩ rfl rfl rfl)
  | .branch c yes no, P, x, m, m', sc, ⟨q, hc, h⟩, hx, ht, ho => by
    rw [actionTidy, actionReturns] at ho
    split at h
    · obtain ⟨htest, hyes⟩ := h
      exact Spans.out <| (spans_expr hf c hc).append <|
        (spans_jumpIfFalse htest fun φ hφ => hφ.2).append <|
        spans_block hf yes hyes (hx.mono fun φ hφ => hφ.1) ht ho.left
    · obtain ⟨y, htest, hyes, hjump, hno⟩ := h
      have hle := le_of_blockAt yes hyes
      have hle' := le_of_blockAt no hno
      have hfirst {Q : Assignment → Prop} (hQ : ∀ φ, Q φ → P φ) := spans_block hf yes hyes
        (hx.mono hQ) (fun t h h' => ht t h (Nat.lt_of_lt_of_le h' hle'.table)) ho.left
      have hsecond {Q : Assignment → Prop} (hQ : ∀ φ, Q φ → P φ) := spans_block hf no hno
        (hx.mono hQ) (fun t h h' => ht t (Nat.le_trans hle.table h) h') ho.right
      refine Spans.out (Spans.trans ?_ (hsecond fun φ hφ => hφ.1.1))
      exact (spans_expr hf c hc).append <| (spans_jumpIfFalse htest fun φ hφ => hφ.2).append <|
        (hfirst fun φ hφ => hφ.1.1).append (spans_jump hjump fun φ hφ => hφ.1.2)
  | .whileLoop c b, P, x, m, _, sc, ⟨q, y, hc, htest, hb, hjump, rfl⟩, hx, ht, ho => by
    rw [actionTidy, actionReturns] at ho
    refine Spans.out (Spans.again ?_)
    exact (spans_expr hf c hc).append <| (spans_jumpIfFalse htest fun φ hφ => hφ.1.2).append <|
      (spans_block hf b hb (exited_loop fun φ hφ => ⟨hφ.1.2, hφ.2⟩) ht ho).append
        (spans_jump hjump fun φ hφ => hφ.2)
  | .repeatLoop n b, P, x, m, _, sc, ⟨slot, q, y, hslot, hn, hstore, hload, hzero, hgreater, htest,
      hb, hload', hone, hsub, hstore', hjump, rfl⟩, hx, ht, ho => by
    rw [actionTidy, actionReturns] at ho
    refine Spans.out (Spans.trans ((spans_expr hf n hn).append (spans_storeLocal hf hstore hslot))
      (Spans.trans (q := y.pc) (τ := ⟨0, sc⟩) ?_ ?_))
    · exact (spans_reads hf (.inl ⟨slot, hload, hslot⟩)).append <| (spans_loads hzero).append <|
        (spans_plain (n := 2) (m := 1) (k := 0) hgreater ⟨rfl, rfl⟩ rfl rfl rfl).append <|
        (spans_jumpIfFalse htest fun φ hφ => hφ.1.1.2).append <|
        spans_block hf b hb (exited_loop fun φ hφ => ⟨hφ.1.1.2, hφ.2⟩) ht ho
    · exact (spans_reads hf (.inl ⟨slot, hload', hslot⟩)).append <| (spans_loads hone).append <|
        (spans_plain (n := 2) (m := 1) (k := 0) hsub ⟨rfl, rfl⟩ rfl rfl rfl).append <|
        (spans_storeLocal hf hstore' hslot).append (spans_jump hjump fun φ hφ => hφ.1.2)
  | .exit way, P, x, m, _, sc, ⟨e, he, hleaves, hjump, hend⟩, hx, _, _ => by
    obtain ⟨inner, outer, rfl, hlength, hinner, htarget⟩ := hx e he
    rw [← hlength] at hleaves hjump hend
    rw [hend]
    exact (spans_leaves hinner hleaves).append (spans_jump hjump fun φ hφ => htarget φ hφ way)
  | .function _ _ _, _, _, m, _, _, h, _, _, _ => by
    rw [show _ = m from h]
    exact .refl _ _
  | .use _ args, _, _, _, _, _, ⟨q, hargs, hcall, hop, rfl⟩, _, _, _ =>
    ((spans_exprs hf args hargs).append (spans_calls hf hcall)).append
      (spans_plain (n := 1) (m := 0) (k := 0) hop ⟨rfl, rfl⟩ rfl rfl rfl)
  | .ret none, _, _, _, _, _, ⟨hload, hop, rfl⟩, _, _, ho =>
    (spans_loads hload).append (spans_ret hop ho.outside)
  | .ret (some e), _, _, _, _, _, ⟨q, he, hop, rfl⟩, _, _, ho =>
    (spans_expr hf e he).append (spans_ret hop ho.outside)
  | .guard b hs c, P, x, m, m', sc, ⟨t, y, z, hpush, htable, hb, hpop, hhs, hc⟩, hx, ht, ho => by
    rw [actionTidy, actionReturns] at ho
    have hinside : Orderly loose (blockTidy b && handlersTidy hs)
        (blockReturns b || handlersReturn hs) (⟨m.table, .guarded, 0⟩ :: sc) := by
      rw [Bool.and_assoc] at ho
      exact ho.left.inTry m.table
    have hle := le_of_blockAt b hb
    have hle' := le_of_catchesAt hs hhs
    have hle'' := le_of_cleanupAt c hc
    obtain ⟨-, hy, -⟩ := hle
    obtain ⟨-, hz, -⟩ := hle'
    obtain ⟨-, hm, -⟩ := hle''
    dsimp only [Mark.to] at hy hz
    refine Spans.out (spans_cleanup hf m.table sc c hc
      (fun t h h' => ht t (by omega) h') ho.inCleanup
      (fun τ => spans_catches hf hs hhs ((hx.inTry m.table).mono fun φ hφ => hφ.1.1)
        (fun t h h' => ht t (by dsimp only [Mark.to] at h; omega) (by omega)) hinside.right
        (fun φ hφ => hφ.1.2) (fun τ => ?_) τ) ⟨0, sc⟩)
    exact (spans_pushTry hpush htable (proper_of_guard hhs hc)
        (ht m.table (Nat.le_refl _) (by omega)) fun φ hφ => ⟨hφ.2 _, hφ.1.2⟩).append <|
      (spans_block hf b hb ((hx.inTry m.table).mono fun φ hφ => hφ.1.1.1)
        (fun t h h' => ht t (by dsimp only at h; omega) (by omega)) hinside.left).append
      (spans_popTry hpop fun φ hφ => hφ.1.1.2)
  | .throw e, _, _, _, _, _, ⟨q, he, hop, rfl⟩, _, _, _ =>
      (spans_expr hf e he).append (spans_throw hop)
  | .writeFile c e, _, _, _, _, _, ⟨q, s, hc, he, hop, rfl⟩, _, _, _ =>
    ((spans_expr hf c hc).append (spans_expr hf e he)).append
      (spans_plain (n := 2) (m := 0) (k := 0) hop ⟨rfl, rfl⟩ rfl rfl rfl)

theorem spans_handler (hf : Hosts L f) : (h : Handler) → ∀ {P : Assignment → Prop}
    {x : Option Exits} {c : CatchClause} {m m' : Mark} {sc : List Scope}, HandlerAt L h x c m m' →
    Exited P sc x → (∀ t, m.table ≤ t → t < m'.table → owned t) →
    Orderly loose (handlersTidy [h]) (handlersReturn [h]) sc →
    Spans L.program f owned (Outside loose) P m.pc m'.pc ⟨1, sc⟩ ⟨0, sc⟩
  | .mk _ binder b, P, _, _, m, m', sc, ⟨_, _, htakes, hb⟩, hx, ht, ho => by
    have hfirst : Spans L.program f owned (Outside loose) P m.pc (m.pc + 1) ⟨1, sc⟩ ⟨0, sc⟩ := by
      unfold Layout.Takes at htakes
      split at htakes
      · exact spans_plain (n := 1) (m := 0) (k := 0) htakes ⟨rfl, rfl⟩ rfl rfl rfl
      · exact spans_writes hf htakes
    rw [handlersTidy, handlersReturn] at ho
    exact hfirst.append (spans_block hf b hb hx ht ho.left)

theorem spans_catches (hf : Hosts L f) : (hs : List Handler) → ∀ {P : Assignment → Prop}
    {x : Option Exits} {out : Nat} {cs : List CatchClause} {m m' : Mark} {sc : List Scope}
    {table pc : Nat} {σ : FlowState}, CatchesAt L hs x out cs m m' →
    Exited P (⟨table, .guarded, 0⟩ :: sc) x → (∀ t, m.table ≤ t → t < m'.table → owned t) →
    Orderly loose (handlersTidy hs) (handlersReturn hs) (⟨table, .guarded, 0⟩ :: sc) →
    (∀ φ, P φ → φ out = some ⟨0, sc⟩) →
    (∀ τ, Spans L.program f owned (Outside loose) (fun φ => P φ ∧ ∀ c ∈ cs,
      φ c.handler.toInt.toNat = some ⟨1, ⟨table, .guarded, 0⟩ :: sc⟩) pc m.pc σ τ) →
    ∀ τ, Spans L.program f owned (Outside loose) P pc m'.pc σ τ
  | [], _, _, _, _, m, _, _, _, _, _, ⟨h, h'⟩, _, _, _, _, hbefore, τ => by
    rw [h']
    exact (hbefore τ).mono fun φ hφ => ⟨hφ, by simp [h]⟩
  | h :: rest, P, x, out, _, m, m', sc, table, pc, σ, ⟨clause, later, y, hcs, hh, hpop, hrest⟩, hx,
      ht, ho, hout, hbefore, τ => by
    have hle := le_of_handlerAt h hh
    have hle' := le_of_catchesAt rest hrest
    have hword : clause.handler.toInt = m.pc := by
      cases h
      exact hh.2.1
    have hparts :
        Orderly loose (handlersTidy [h]) (handlersReturn [h]) (⟨table, .guarded, 0⟩ :: sc) ∧
        Orderly loose (handlersTidy rest) (handlersReturn rest) (⟨table, .guarded, 0⟩ :: sc) := by
      cases h
      simp only [handlersTidy, handlersReturn, Bool.and_true, Bool.or_false] at ho ⊢
      exact ⟨ho.left, ho.right⟩
    have hhandler {Q : Assignment → Prop} (hQ : ∀ φ, Q φ → P φ) := spans_handler hf h hh
      (hx.mono hQ) (fun t h h' => ht t h (Nat.lt_of_lt_of_le h' hle'.table)) hparts.1
    refine spans_catches hf rest hrest hx (fun t h h' =>
      ht t (Nat.le_trans hle.table h) h') hparts.2 hout (fun τ => ?_) τ
    refine Spans.trans ((hbefore _).mono ?_)
      ((hhandler fun φ hφ => hφ.1.1).append (spans_popTry hpop fun φ hφ => hout φ hφ.1.1))
    rintro φ ⟨⟨hP, hlater⟩, hstart⟩
    refine ⟨hP, fun c hc => ?_⟩
    rw [hcs] at hc
    rcases List.mem_cons.1 hc with rfl | hc
    · rw [hword]
      exact hstart
    · exact hlater c hc

theorem spans_cleanup (hf : Hosts L f) (table : Nat) (sc : List Scope) :
    (c : Option (List Stmt)) → ∀ {P : Assignment → Prop} {w : Int32} {m m' : Mark} {pc : Nat}
    {σ : FlowState}, CleanupAt L c w m m' → (∀ t, m.table ≤ t → t < m'.table → owned t) →
    Orderly loose (cleanupTidy c) (cleanupReturns c) (⟨table, .cleanup, 0⟩ :: sc) →
    (∀ τ, Spans L.program f owned (Outside loose) (fun φ => P φ ∧ (w ≠ noIndex →
      φ w.toInt.toNat = some ⟨0, ⟨table, .cleanup, 0⟩ :: sc⟩)) pc m.pc σ τ) →
    ∀ τ, Spans L.program f owned (Outside loose) P pc m'.pc σ τ
  | none, _, _, _, _, _, _, ⟨h, h'⟩, _, _, hbefore, τ => by
    rw [h']
    exact (hbefore τ).mono fun φ hφ => ⟨hφ, fun hne => absurd h hne⟩
  | some b, P, w, m, _, pc, σ, ⟨hw, y, hb, hop, rfl⟩, ht, ho, hbefore, τ => by
    rw [cleanupTidy, cleanupReturns] at ho
    refine Spans.trans ((hbefore ⟨0, ⟨table, .cleanup, 0⟩ :: sc⟩).mono fun φ hφ =>
      ⟨hφ.1, fun _ => ?_⟩) ((spans_block hf b hb exited_none ht ho).append (spans_endFinally hop))
    rw [hw]
    exact hφ.2

theorem spans_block (hf : Hosts L f) : (b : List Stmt) → ∀ {P : Assignment → Prop}
    {x : Option Exits} {m m' : Mark} {sc : List Scope}, BlockAt L b x m m' → Exited P sc x →
    (∀ t, m.table ≤ t → t < m'.table → owned t) →
    Orderly loose (blockTidy b) (blockReturns b) sc →
    Spans L.program f owned (Outside loose) P m.pc m'.pc ⟨0, sc⟩ ⟨0, sc⟩
  | [], _, _, m, _, _, h, _, _, _ => by
    rw [show _ = m from h]
    exact .refl _ _
  | .mk _ a :: rest, _, _, m, m', _, ⟨y, ha, hrest⟩, hx, ht, ho => by
    rw [blockTidy, blockReturns] at ho
    have hle := le_of_actionAt a ha
    have hle' := le_of_blockAt rest hrest
    exact (spans_action hf a ha hx (fun t h h' => ht t h (Nat.lt_of_lt_of_le h' hle'.table))
        ho.left).append
      (spans_block hf rest hrest hx (fun t h h' => ht t (Nat.le_trans hle.table h) h') ho.right)

end

end

end

end Compile
end ScriptMachine
