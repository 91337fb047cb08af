import ScriptMachine.Proofs.Compile.Placement

namespace ScriptMachine
namespace Compile

def testSize : LogicalOp → Nat
  | .and => 0
  | .or => 1

mutual

def exprSize : Expr → Nat
  | .number _ | .string _ | .boolean _ | .nil | .identifier _ => 1
  | .unary _ e => exprSize e + 1
  | .binary _ l r => exprSize l + exprSize r + 1
  | .logical op l r => exprSize l + testSize op + 1 + exprSize r + testSize op + 4
  | .call _ args => exprsSize args + 1
  | .list items => exprsSize items + 1
  | .dict entries => entriesSize entries + 1
  | .index c i => exprSize c + exprSize i + 1
  | .newError _ e => exprSize e + 1
  | .errorMessage e => exprSize e + 1
  | .errorType e => exprSize e + 1
  | .fileText e => exprSize e + 1

def exprsSize : List Expr → Nat
  | [] => 0
  | e :: rest => exprSize e + exprsSize rest

def entriesSize : List (Text × Expr) → Nat
  | [] => 0
  | (_, e) :: rest => 1 + exprSize e + entriesSize rest

end

mutual

/-- An expression whose code starts at an address, and the expressions in it, with their
addresses. -/
def exprSites (pc : Nat) : Expr → List (Nat × Expr)
  | .number x => [(pc, .number x)]
  | .string t => [(pc, .string t)]
  | .boolean b => [(pc, .boolean b)]
  | .nil => [(pc, .nil)]
  | .identifier name => [(pc, .identifier name)]
  | .unary op e => (pc, .unary op e) :: exprSites pc e
  | .binary op l r => (pc, .binary op l r) :: (exprSites pc l ++ exprSites (pc + exprSize l) r)
  | .logical op l r =>
    (pc, .logical op l r) ::
      (exprSites pc l ++ exprSites (pc + exprSize l + testSize op + 1) r)
  | .call name args => (pc, .call name args) :: exprsSites pc args
  | .list items => (pc, .list items) :: exprsSites pc items
  | .dict entries => (pc, .dict entries) :: entriesSites pc entries
  | .index c i => (pc, .index c i) :: (exprSites pc c ++ exprSites (pc + exprSize c) i)
  | .newError typeName e => (pc, .newError typeName e) :: exprSites pc e
  | .errorMessage e => (pc, .errorMessage e) :: exprSites pc e
  | .errorType e => (pc, .errorType e) :: exprSites pc e
  | .fileText e => (pc, .fileText e) :: exprSites pc e

def exprsSites (pc : Nat) : List Expr → List (Nat × Expr)
  | [] => []
  | e :: rest => exprSites pc e ++ exprsSites (pc + exprSize e) rest

/-- The key of an entry is loaded before its value. -/
def entriesSites (pc : Nat) : List (Text × Expr) → List (Nat × Expr)
  | [] => []
  | (_, e) :: rest => exprSites (pc + 1) e ++ entriesSites (pc + 1 + exprSize e) rest

end

mutual

def actionSize (leave : Nat) : Action → Nat
  | .write e => exprSize e + 1
  | .ask _ => 2
  | .set _ e => exprSize e + 1
  | .setIndex c i e => exprSize c + exprSize i + exprSize e + 1
  | .branch c yes no =>
    exprSize c + 1 + blockSize leave yes + if no.isEmpty then 0 else 1 + blockSize leave no
  | .whileLoop c b => exprSize c + 1 + blockSize 0 b + 1
  | .repeatLoop n b => exprSize n + 5 + blockSize 0 b + 5
  | .exit _ => leave + 1
  | .function _ _ _ => 0
  | .use _ args => exprsSize args + 2
  | .ret none => 2
  | .ret (some e) => exprSize e + 1
  | .guard b hs c => 1 + blockSize (leave + 1) b + 1 + handlersSize (leave + 1) hs + cleanupSize c
  | .throw e => exprSize e + 1
  | .writeFile c e => exprSize c + exprSize e + 1

def handlersSize (leave : Nat) : List Handler → Nat
  | [] => 0
  | .mk _ _ b :: rest => 1 + blockSize leave b + 1 + handlersSize leave rest

def cleanupSize : Option (List Stmt) → Nat
  | none => 0
  | some b => blockSize 0 b + 1

def blockSize (leave : Nat) : List Stmt → Nat
  | [] => 0
  | .mk _ a :: rest => actionSize leave a + blockSize leave rest

end

mutual

/-- The expressions of a statement whose code starts at an address. A call that stands alone is an
expression whose value is dropped; the body of a function stands elsewhere. -/
def actionSites (leave pc : Nat) : Action → List (Nat × Expr)
  | .write e => exprSites pc e
  | .ask _ => []
  | .set _ e => exprSites pc e
  | .setIndex c i e =>
    exprSites pc c ++ exprSites (pc + exprSize c) i ++ exprSites (pc + exprSize c + exprSize i) e
  | .branch c yes no =>
    exprSites pc c ++ blockSites leave (pc + exprSize c + 1) yes ++
      blockSites leave (pc + exprSize c + 1 + blockSize leave yes + 1) no
  | .whileLoop c b => exprSites pc c ++ blockSites 0 (pc + exprSize c + 1) b
  | .repeatLoop n b => exprSites pc n ++ blockSites 0 (pc + exprSize n + 5) b
  | .exit _ => []
  | .function _ _ _ => []
  | .use name args => exprSites pc (.call name args)
  | .ret none => []
  | .ret (some e) => exprSites pc e
  | .guard b hs c =>
    blockSites (leave + 1) (pc + 1) b ++
      handlersSites (leave + 1) (pc + 1 + blockSize (leave + 1) b + 1) hs ++
      cleanupSites (pc + 1 + blockSize (leave + 1) b + 1 + handlersSize (leave + 1) hs) c
  | .throw e => exprSites pc e
  | .writeFile c e => exprSites pc c ++ exprSites (pc + exprSize c) e

def handlersSites (leave pc : Nat) : List Handler → List (Nat × Expr)
  | [] => []
  | .mk _ _ b :: rest =>
    blockSites leave (pc + 1) b ++ handlersSites leave (pc + 1 + blockSize leave b + 1) rest

def cleanupSites (pc : Nat) : Option (List Stmt) → List (Nat × Expr)
  | none => []
  | some b => blockSites 0 pc b

def blockSites (leave pc : Nat) : List Stmt → List (Nat × Expr)
  | [] => []
  | .mk _ a :: rest => actionSites leave pc a ++ blockSites leave (pc + actionSize leave a) rest

end

mutual

/-- The names that a statement assigns, with the addresses of the instructions that store them. -/
def actionStores (leave pc : Nat) : Action → List (Nat × Text)
  | .ask name => [(pc + 1, name)]
  | .set name e => [(pc + exprSize e, name)]
  | .branch c yes no =>
    blockStores leave (pc + exprSize c + 1) yes ++
      blockStores leave (pc + exprSize c + 1 + blockSize leave yes + 1) no
  | .whileLoop c b => blockStores 0 (pc + exprSize c + 1) b
  | .repeatLoop n b => blockStores 0 (pc + exprSize n + 5) b
  | .guard b hs c =>
    blockStores (leave + 1) (pc + 1) b ++
      handlersStores (leave + 1) (pc + 1 + blockSize (leave + 1) b + 1) hs ++
      cleanupStores (pc + 1 + blockSize (leave + 1) b + 1 + handlersSize (leave + 1) hs) c
  | _ => []

/-- A handler stores the error first. -/
def handlersStores (leave pc : Nat) : List Handler → List (Nat × Text)
  | [] => []
  | .mk _ binder b :: rest =>
    (if binder.isEmpty then [] else [(pc, binder)]) ++ blockStores leave (pc + 1) b ++
      handlersStores leave (pc + 1 + blockSize leave b + 1) rest

def cleanupStores (pc : Nat) : Option (List Stmt) → List (Nat × Text)
  | none => []
  | some b => blockStores 0 pc b

def blockStores (leave pc : Nat) : List Stmt → List (Nat × Text)
  | [] => []
  | .mk _ a :: rest => actionStores leave pc a ++ blockStores leave (pc + actionSize leave a) rest

end

section

variable {L : Layout} {q : Nat} {name : Text}

theorem Layout.Tests.end_eq {op : LogicalOp} {pc pc' : Nat} (h : L.Tests op pc pc') :
    pc' = pc + testSize op := by
  cases op with
  | and => exact h
  | or => exact h.2

mutual

theorem ExprAt.end_eq : (e : Expr) → ∀ {pc pc' : Nat}, ExprAt L e pc pc' →
    pc' = pc + exprSize e
  | .number _, _, _, h => h.2
  | .string _, _, _, h => h.2
  | .boolean _, _, _, h => h.2
  | .nil, _, _, h => h.2
  | .identifier _, _, _, h => h.2
  | .unary _ e, _, _, ⟨q, he, _, hpc⟩ => by
    have := ExprAt.end_eq e he
    rw [exprSize]
    omega
  | .binary _ l r, _, _, ⟨q, s, hl, hr, _, hpc⟩ => by
    have := ExprAt.end_eq l hl
    have := ExprAt.end_eq r hr
    rw [exprSize]
    omega
  | .logical op l r, _, _, ⟨q, t, s, u, hl, htest, _, hr, htest', _, _, _, _, hpc⟩ => by
    have := ExprAt.end_eq l hl
    have := htest.end_eq
    have := ExprAt.end_eq r hr
    have := htest'.end_eq
    rw [exprSize]
    omega
  | .call _ args, _, _, ⟨q, hargs, _, hpc⟩ => by
    have := ExprsAt.end_eq args hargs
    rw [exprSize]
    omega
  | .list items, _, _, ⟨q, hitems, _, hpc⟩ => by
    have := ExprsAt.end_eq items hitems
    rw [exprSize]
    omega
  | .dict entries, _, _, ⟨q, hentries, _, hpc⟩ => by
    have := EntriesAt.end_eq entries hentries
    rw [exprSize]
    omega
  | .index c i, _, _, ⟨q, s, hc, hi, _, hpc⟩ => by
    have := ExprAt.end_eq c hc
    have := ExprAt.end_eq i hi
    rw [exprSize]
    omega
  | .newError _ e, _, _, ⟨q, _, he, _, _, hpc⟩ => by
    have := ExprAt.end_eq e he
    rw [exprSize]
    omega
  | .errorMessage e, _, _, ⟨q, he, _, hpc⟩ => by
    have := ExprAt.end_eq e he
    rw [exprSize]
    omega
  | .errorType e, _, _, ⟨q, he, _, hpc⟩ => by
    have := ExprAt.end_eq e he
    rw [exprSize]
    omega
  | .fileText e, _, _, ⟨q, he, _, hpc⟩ => by
    have := ExprAt.end_eq e he
    rw [exprSize]
    omega

theorem ExprsAt.end_eq : (es : List Expr) → ∀ {pc pc' : Nat}, ExprsAt L es pc pc' →
    pc' = pc + exprsSize es
  | [], _, _, h => h
  | e :: rest, _, _, ⟨q, he, hrest⟩ => by
    have := ExprAt.end_eq e he
    have := ExprsAt.end_eq rest hrest
    rw [exprsSize]
    omega

theorem EntriesAt.end_eq : (es : List (Text × Expr)) → ∀ {pc pc' : Nat},
    EntriesAt L es pc pc' → pc' = pc + entriesSize es
  | [], _, _, h => h
  | (_, e) :: rest, _, _, ⟨q, _, he, hrest⟩ => by
    have := ExprAt.end_eq e he
    have := EntriesAt.end_eq rest hrest
    rw [entriesSize]
    omega

end

theorem ExprAt.site_self {e x : Expr} {pc pc' : Nat} (h : ExprAt L e pc pc')
    (hx : (q, x) = (pc, e)) :
    ExprAt L x q (q + exprSize x) := by
  cases hx
  exact ExprAt.end_eq e h ▸ h

mutual

theorem ExprAt.site {x : Expr} : (e : Expr) → ∀ {pc pc' : Nat},
    ExprAt L e pc pc' → (q, x) ∈ exprSites pc e → ExprAt L x q (q + exprSize x)
  | .number n, _, _, h, hx => ExprAt.site_self h (by simpa [exprSites] using hx)
  | .string t, _, _, h, hx => ExprAt.site_self h (by simpa [exprSites] using hx)
  | .boolean b, _, _, h, hx => ExprAt.site_self h (by simpa [exprSites] using hx)
  | .nil, _, _, h, hx => ExprAt.site_self h (by simpa [exprSites] using hx)
  | .identifier name, _, _, h, hx => ExprAt.site_self h (by simpa [exprSites] using hx)
  | .unary op e, _, _, h, hx => by
    rcases List.mem_cons.1 hx with hx | hx
    · exact ExprAt.site_self h hx
    · obtain ⟨q, he, -⟩ := h
      exact ExprAt.site e he hx
  | .binary op l r, _, _, h, hx => by
    rcases List.mem_cons.1 hx with hx | hx
    · exact ExprAt.site_self h hx
    · obtain ⟨q, s, hl, hr, -⟩ := h
      rw [← ExprAt.end_eq l hl] at hx
      exact (List.mem_append.1 hx).elim (ExprAt.site l hl) (ExprAt.site r hr)
  | .logical op l r, _, _, h, hx => by
    rcases List.mem_cons.1 hx with hx | hx
    · exact ExprAt.site_self h hx
    · obtain ⟨q, t, s, u, hl, htest, -, hr, -⟩ := h
      rw [← ExprAt.end_eq l hl, ← htest.end_eq] at hx
      exact (List.mem_append.1 hx).elim (ExprAt.site l hl) (ExprAt.site r hr)
  | .call name args, _, _, h, hx => by
    rcases List.mem_cons.1 hx with hx | hx
    · exact ExprAt.site_self h hx
    · obtain ⟨q, hargs, -⟩ := h
      exact ExprsAt.site args hargs hx
  | .list items, _, _, h, hx => by
    rcases List.mem_cons.1 hx with hx | hx
    · exact ExprAt.site_self h hx
    · obtain ⟨q, hitems, -⟩ := h
      exact ExprsAt.site items hitems hx
  | .dict entries, _, _, h, hx => by
    rcases List.mem_cons.1 hx with hx | hx
    · exact ExprAt.site_self h hx
    · obtain ⟨q, hentries, -⟩ := h
      exact EntriesAt.site entries hentries hx
  | .index c i, _, _, h, hx => by
    rcases List.mem_cons.1 hx with hx | hx
    · exact ExprAt.site_self h hx
    · obtain ⟨q, s, hc, hi, -⟩ := h
      rw [← ExprAt.end_eq c hc] at hx
      exact (List.mem_append.1 hx).elim (ExprAt.site c hc) (ExprAt.site i hi)
  | .newError typeName e, _, _, h, hx => by
    rcases List.mem_cons.1 hx with hx | hx
    · exact ExprAt.site_self h hx
    · obtain ⟨q, i, he, -⟩ := h
      exact ExprAt.site e he hx
  | .errorMessage e, _, _, h, hx => by
    rcases List.mem_cons.1 hx with hx | hx
    · exact ExprAt.site_self h hx
    · obtain ⟨q, he, -⟩ := h
      exact ExprAt.site e he hx
  | .errorType e, _, _, h, hx => by
    rcases List.mem_cons.1 hx with hx | hx
    · exact ExprAt.site_self h hx
    · obtain ⟨q, he, -⟩ := h
      exact ExprAt.site e he hx
  | .fileText e, _, _, h, hx => by
    rcases List.mem_cons.1 hx with hx | hx
    · exact ExprAt.site_self h hx
    · obtain ⟨q, he, -⟩ := h
      exact ExprAt.site e he hx

theorem ExprsAt.site {x : Expr} : (es : List Expr) → ∀ {pc pc' : Nat},
    ExprsAt L es pc pc' → (q, x) ∈ exprsSites pc es → ExprAt L x q (q + exprSize x)
  | [], _, _, _, hx => by cases hx
  | e :: rest, _, _, ⟨q, he, hrest⟩, hx => by
    rw [exprsSites, ← ExprAt.end_eq e he] at hx
    exact (List.mem_append.1 hx).elim (ExprAt.site e he) (ExprsAt.site rest hrest)

theorem EntriesAt.site {x : Expr} : (es : List (Text × Expr)) →
    ∀ {pc pc' : Nat}, EntriesAt L es pc pc' → (q, x) ∈ entriesSites pc es →
    ExprAt L x q (q + exprSize x)
  | [], _, _, _, hx => by cases hx
  | (_, e) :: rest, _, _, ⟨q, _, he, hrest⟩, hx => by
    rw [entriesSites, ← ExprAt.end_eq e he] at hx
    exact (List.mem_append.1 hx).elim (ExprAt.site e he) (EntriesAt.site rest hrest)

end

/-- The loop that can be left, if there is one, is `leave` try constructs away. -/
def LeavesBy (leave : Nat) (x : Option Exits) : Prop := ∀ e, x = some e → e.leave = leave

theorem LeavesBy.inTry {leave : Nat} {x : Option Exits} (h : LeavesBy leave x) :
    LeavesBy (leave + 1) (x.map Exits.inTry) := by
  intro e he
  obtain ⟨e', he', rfl⟩ := Option.map_eq_some_iff.1 he
  exact congrArg (· + 1) (h e' he')

theorem leavesBy_loop (stop skip : Nat) : LeavesBy 0 (some ⟨0, stop, skip⟩) := by
  rintro _ ⟨⟩
  rfl

theorem leavesBy_none (leave : Nat) : LeavesBy leave none := nofun

@[simp] theorem Mark.pc_to (m : Mark) (pc : Nat) : (m.to pc).pc = pc := rfl

mutual

theorem ActionAt.end_eq : (a : Action) → ∀ {leave : Nat} {x : Option Exits} {m m' : Mark},
    ActionAt L a x m m' → LeavesBy leave x → m'.pc = m.pc + actionSize leave a
  | .write e, _, _, _, _, ⟨q, he, _, hm⟩, _ => by
    have := ExprAt.end_eq e he
    rw [hm, Mark.pc_to, actionSize]
    omega
  | .ask _, _, _, _, _, ⟨_, _, hm⟩, _ => by
    rw [hm, Mark.pc_to, actionSize]
  | .set _ e, _, _, _, _, ⟨q, he, _, hm⟩, _ => by
    have := ExprAt.end_eq e he
    rw [hm, Mark.pc_to, actionSize]
    omega
  | .setIndex c i e, _, _, _, _, ⟨q, s, t, hc, hi, he, _, hm⟩, _ => by
    have := ExprAt.end_eq c hc
    have := ExprAt.end_eq i hi
    have := ExprAt.end_eq e he
    rw [hm, Mark.pc_to, actionSize]
    omega
  | .branch c yes no, _, _, _, _, ⟨q, hc, hblocks⟩, hx => by
    have := ExprAt.end_eq c hc
    rw [actionSize]
    split at hblocks
    · next hempty =>
      have := BlockAt.end_eq yes hblocks.2 hx
      rw [if_pos hempty]
      rw [Mark.pc_to] at this
      omega
    · next hempty =>
      obtain ⟨y, -, hyes, -, hno⟩ := hblocks
      have := BlockAt.end_eq yes hyes hx
      have := BlockAt.end_eq no hno hx
      rw [if_neg hempty]
      simp only [Mark.pc_to] at *
      omega
  | .whileLoop c b, _, _, _, _, ⟨q, y, hc, _, hb, _, hm⟩, _ => by
    have := ExprAt.end_eq c hc
    have := BlockAt.end_eq b hb (leavesBy_loop _ _)
    rw [hm, actionSize]
    simp only [Mark.pc_to] at *
    omega
  | .repeatLoop n b, _, _, _, _, ⟨_, q, y, _, hn, _, _, _, _, _, hb, _, _, _, _, _, hm⟩, _ => by
    have := ExprAt.end_eq n hn
    have := BlockAt.end_eq b hb (leavesBy_loop _ _)
    rw [hm, actionSize]
    simp only [Mark.pc_to] at *
    omega
  | .exit _, _, _, _, _, ⟨e, he, _, _, hm⟩, hx => by
    have := hx e he
    rw [hm, Mark.pc_to, actionSize]
    omega
  | .function _ _ _, _, _, _, _, h, _ => congrArg Mark.pc h
  | .use _ args, _, _, _, _, ⟨q, hargs, _, _, hm⟩, _ => by
    have := ExprsAt.end_eq args hargs
    rw [hm, Mark.pc_to, actionSize]
    omega
  | .ret none, _, _, _, _, ⟨_, _, hm⟩, _ => by
    rw [hm, Mark.pc_to, actionSize]
  | .ret (some e), _, _, _, _, ⟨q, he, _, hm⟩, _ => by
    have := ExprAt.end_eq e he
    rw [hm, Mark.pc_to, actionSize]
    omega
  | .guard b hs c, _, _, _, _, ⟨t, y, z, _, _, hb, _, hcatches, hcleanup⟩, hx => by
    have := BlockAt.end_eq b hb hx.inTry
    have := CatchesAt.end_eq hs hcatches hx.inTry
    have := CleanupAt.end_eq c hcleanup
    rw [actionSize]
    simp only [Mark.pc_to] at *
    omega
  | .throw e, _, _, _, _, ⟨q, he, _, hm⟩, _ => by
    have := ExprAt.end_eq e he
    rw [hm, Mark.pc_to, actionSize]
    omega
  | .writeFile c e, _, _, _, _, ⟨q, s, hc, he, _, hm⟩, _ => by
    have := ExprAt.end_eq c hc
    have := ExprAt.end_eq e he
    rw [hm, Mark.pc_to, actionSize]
    omega

theorem CatchesAt.end_eq : (hs : List Handler) → ∀ {leave : Nat} {x : Option Exits}
    {out : Nat} {clauses : List CatchClause} {m m' : Mark}, CatchesAt L hs x out clauses m m' →
    LeavesBy leave x → m'.pc = m.pc + handlersSize leave hs
  | [], _, _, _, _, _, _, ⟨_, hm⟩, _ => congrArg Mark.pc hm
  | .mk _ _ b :: rest, _, _, _, _, _, _, ⟨_, _, y, _, ⟨_, _, _, hb⟩, _, hrest⟩, hx => by
    have := BlockAt.end_eq b hb hx
    have := CatchesAt.end_eq rest hrest hx
    rw [handlersSize]
    simp only [Mark.pc_to] at *
    omega

theorem CleanupAt.end_eq : (c : Option (List Stmt)) → ∀ {w : Int32} {m m' : Mark},
    CleanupAt L c w m m' → m'.pc = m.pc + cleanupSize c
  | none, _, _, _, ⟨_, hm⟩ => congrArg Mark.pc hm
  | some b, _, _, _, ⟨_, y, hb, _, hm⟩ => by
    have := BlockAt.end_eq b hb (leavesBy_none 0)
    rw [hm, Mark.pc_to, cleanupSize]
    omega

theorem BlockAt.end_eq : (b : List Stmt) → ∀ {leave : Nat} {x : Option Exits}
    {m m' : Mark}, BlockAt L b x m m' → LeavesBy leave x → m'.pc = m.pc + blockSize leave b
  | [], _, _, _, _, h, _ => congrArg Mark.pc h
  | .mk _ a :: rest, _, _, _, _, ⟨y, ha, hrest⟩, hx => by
    have := ActionAt.end_eq a ha hx
    have := BlockAt.end_eq rest hrest hx
    rw [blockSize]
    omega

end

mutual

theorem ActionAt.site {e : Expr} : (a : Action) → ∀ {leave : Nat}
    {x : Option Exits} {m m' : Mark}, ActionAt L a x m m' → LeavesBy leave x →
    (q, e) ∈ actionSites leave m.pc a → ExprAt L e q (q + exprSize e)
  | .write v, _, _, _, _, ⟨_, hv, _⟩, _, he => ExprAt.site v hv he
  | .ask _, _, _, _, _, _, _, he => by cases he
  | .set _ v, _, _, _, _, ⟨_, hv, _⟩, _, he => ExprAt.site v hv he
  | .setIndex c i v, _, _, _, _, ⟨_, _, _, hc, hi, hv, _⟩, _, he => by
    rw [actionSites, ← ExprAt.end_eq c hc, ← ExprAt.end_eq i hi] at he
    simp only [List.mem_append] at he
    rcases he with (he | he) | he
    · exact ExprAt.site c hc he
    · exact ExprAt.site i hi he
    · exact ExprAt.site v hv he
  | .branch c yes no, _, _, m, _, ⟨r, hc, hblocks⟩, hx, he => by
    rw [actionSites, ← ExprAt.end_eq c hc] at he
    simp only [List.mem_append] at he
    split at hblocks
    · next hempty =>
      rw [List.isEmpty_iff.1 hempty] at he
      rcases he with (he | he) | he
      · exact ExprAt.site c hc he
      · exact BlockAt.site yes hblocks.2 hx he
      · cases he
    · obtain ⟨y, -, hyes, -, hno⟩ := hblocks
      have hpc : y.pc = (m.to (r + 1)).pc + blockSize _ yes := BlockAt.end_eq yes hyes hx
      rw [Mark.pc_to] at hpc
      rw [← hpc] at he
      rcases he with (he | he) | he
      · exact ExprAt.site c hc he
      · exact BlockAt.site yes hyes hx he
      · exact BlockAt.site no hno hx he
  | .whileLoop c b, _, _, _, _, ⟨_, _, hc, _, hb, _⟩, _, he => by
    rw [actionSites, ← ExprAt.end_eq c hc] at he
    exact (List.mem_append.1 he).elim (ExprAt.site c hc) (BlockAt.site b hb (leavesBy_loop _ _))
  | .repeatLoop n b, _, _, _, _, ⟨_, _, _, _, hn, _, _, _, _, _, hb, _⟩, _, he => by
    rw [actionSites, ← ExprAt.end_eq n hn] at he
    exact (List.mem_append.1 he).elim (ExprAt.site n hn) (BlockAt.site b hb (leavesBy_loop _ _))
  | .exit _, _, _, _, _, _, _, he => by cases he
  | .function _ _ _, _, _, _, _, _, _, he => by cases he
  | .use name args, _, _, _, _, ⟨r, hargs, hcall, _⟩, _, he =>
    ExprAt.site (.call name args) ⟨r, hargs, hcall, rfl⟩ he
  | .ret none, _, _, _, _, _, _, he => by cases he
  | .ret (some v), _, _, _, _, ⟨_, hv, _⟩, _, he => ExprAt.site v hv he
  | .guard b hs c, _, _, m, _, ⟨t, y, z, _, _, hb, _, hcatches, hcleanup⟩, hx, he => by
    have hy := BlockAt.end_eq b hb hx.inTry
    have hz := CatchesAt.end_eq hs hcatches hx.inTry
    simp only [Mark.pc_to] at hy hz
    rw [actionSites, ← hy, ← hz] at he
    simp only [List.mem_append] at he
    rcases he with (he | he) | he
    · exact BlockAt.site b hb hx.inTry he
    · exact CatchesAt.site hs hcatches hx.inTry he
    · exact CleanupAt.site c hcleanup he
  | .throw v, _, _, _, _, ⟨_, hv, _⟩, _, he => ExprAt.site v hv he
  | .writeFile c v, _, _, _, _, ⟨_, _, hc, hv, _⟩, _, he => by
    rw [actionSites, ← ExprAt.end_eq c hc] at he
    exact (List.mem_append.1 he).elim (ExprAt.site c hc) (ExprAt.site v hv)

theorem CatchesAt.site {e : Expr} : (hs : List Handler) → ∀ {leave : Nat}
    {x : Option Exits} {out : Nat} {clauses : List CatchClause} {m m' : Mark},
    CatchesAt L hs x out clauses m m' → LeavesBy leave x →
    (q, e) ∈ handlersSites leave m.pc hs → ExprAt L e q (q + exprSize e)
  | [], _, _, _, _, _, _, _, _, he => by cases he
  | .mk _ _ b :: rest, _, _, _, _, m, _, ⟨_, _, y, _, ⟨_, _, _, hb⟩, _, hrest⟩, hx, he => by
    have hy := BlockAt.end_eq b hb hx
    simp only [Mark.pc_to] at hy
    rw [handlersSites, ← hy] at he
    exact (List.mem_append.1 he).elim (BlockAt.site b hb hx) (CatchesAt.site rest hrest hx)

theorem CleanupAt.site {e : Expr} : (c : Option (List Stmt)) →
    ∀ {w : Int32} {m m' : Mark}, CleanupAt L c w m m' → (q, e) ∈ cleanupSites m.pc c →
    ExprAt L e q (q + exprSize e)
  | none, _, _, _, _, he => by cases he
  | some b, _, _, _, ⟨_, _, hb, _⟩, he => BlockAt.site b hb (leavesBy_none 0) he

theorem BlockAt.site {e : Expr} : (b : List Stmt) → ∀ {leave : Nat}
    {x : Option Exits} {m m' : Mark}, BlockAt L b x m m' → LeavesBy leave x →
    (q, e) ∈ blockSites leave m.pc b → ExprAt L e q (q + exprSize e)
  | [], _, _, _, _, _, _, he => by cases he
  | .mk _ a :: rest, _, _, _, _, ⟨y, ha, hrest⟩, hx, he => by
    rw [blockSites, ← ActionAt.end_eq a ha hx] at he
    exact (List.mem_append.1 he).elim (ActionAt.site a ha hx) (BlockAt.site rest hrest hx)

end

mutual

theorem ActionAt.stores : (a : Action) → ∀ {leave : Nat}
    {x : Option Exits} {m m' : Mark}, ActionAt L a x m m' → LeavesBy leave x →
    (q, name) ∈ actionStores leave m.pc a → L.Writes q name
  | .ask _, _, _, _, _, ⟨_, hstore, _⟩, _, hq => by
    cases List.mem_singleton.1 hq
    exact hstore
  | .set _ e, _, _, _, _, ⟨_, he, hstore, _⟩, _, hq => by
    rw [actionStores, ← ExprAt.end_eq e he] at hq
    cases List.mem_singleton.1 hq
    exact hstore
  | .branch c yes no, _, _, m, _, ⟨r, hc, hblocks⟩, hx, hq => by
    rw [actionStores, ← ExprAt.end_eq c hc] at hq
    split at hblocks
    · next hempty =>
      rw [List.isEmpty_iff.1 hempty] at hq
      rcases List.mem_append.1 hq with hq | hq
      · exact BlockAt.stores yes hblocks.2 hx hq
      · cases hq
    · obtain ⟨y, -, hyes, -, hno⟩ := hblocks
      have hpc : y.pc = (m.to (r + 1)).pc + blockSize _ yes := BlockAt.end_eq yes hyes hx
      rw [Mark.pc_to] at hpc
      rw [← hpc] at hq
      exact (List.mem_append.1 hq).elim (BlockAt.stores yes hyes hx) (BlockAt.stores no hno hx)
  | .whileLoop c b, _, _, _, _, ⟨_, _, hc, _, hb, _⟩, _, hq => by
    rw [actionStores, ← ExprAt.end_eq c hc] at hq
    exact BlockAt.stores b hb (leavesBy_loop _ _) hq
  | .repeatLoop n b, _, _, _, _, ⟨_, _, _, _, hn, _, _, _, _, _, hb, _⟩, _, hq => by
    rw [actionStores, ← ExprAt.end_eq n hn] at hq
    exact BlockAt.stores b hb (leavesBy_loop _ _) hq
  | .guard b hs c, _, _, m, _, ⟨t, y, z, _, _, hb, _, hcatches, hcleanup⟩, hx, hq => by
    have hy := BlockAt.end_eq b hb hx.inTry
    have hz := CatchesAt.end_eq hs hcatches hx.inTry
    simp only [Mark.pc_to] at hy hz
    rw [actionStores, ← hy, ← hz] at hq
    simp only [List.mem_append] at hq
    rcases hq with (hq | hq) | hq
    · exact BlockAt.stores b hb hx.inTry hq
    · exact CatchesAt.stores hs hcatches hx.inTry hq
    · exact CleanupAt.stores c hcleanup hq
  | .write _, _, _, _, _, _, _, hq => by cases hq
  | .setIndex _ _ _, _, _, _, _, _, _, hq => by cases hq
  | .exit _, _, _, _, _, _, _, hq => by cases hq
  | .function _ _ _, _, _, _, _, _, _, hq => by cases hq
  | .use _ _, _, _, _, _, _, _, hq => by cases hq
  | .ret _, _, _, _, _, _, _, hq => by cases hq
  | .throw _, _, _, _, _, _, _, hq => by cases hq
  | .writeFile _ _, _, _, _, _, _, _, hq => by cases hq

theorem CatchesAt.stores : (hs : List Handler) →
    ∀ {leave : Nat} {x : Option Exits} {out : Nat} {clauses : List CatchClause} {m m' : Mark},
    CatchesAt L hs x out clauses m m' → LeavesBy leave x →
    (q, name) ∈ handlersStores leave m.pc hs → L.Writes q name
  | [], _, _, _, _, _, _, _, _, hq => by cases hq
  | .mk _ binder b :: rest, _, _, _, _, m, _, ⟨_, _, y, _, ⟨_, _, htakes, hb⟩, _, hrest⟩, hx,
      hq => by
    have hy := BlockAt.end_eq b hb hx
    simp only [Mark.pc_to] at hy
    rw [handlersStores, ← hy] at hq
    simp only [List.mem_append] at hq
    rcases hq with (hq | hq) | hq
    · unfold Layout.Takes at htakes
      split at hq
      · cases hq
      · next hbinder =>
        rw [if_neg hbinder] at htakes
        cases List.mem_singleton.1 hq
        exact htakes
    · exact BlockAt.stores b hb hx hq
    · exact CatchesAt.stores rest hrest hx hq

theorem CleanupAt.stores : (c : Option (List Stmt)) →
    ∀ {w : Int32} {m m' : Mark}, CleanupAt L c w m m' → (q, name) ∈ cleanupStores m.pc c →
    L.Writes q name
  | none, _, _, _, _, hq => by cases hq
  | some b, _, _, _, ⟨_, _, hb, _⟩, hq => BlockAt.stores b hb (leavesBy_none 0) hq

theorem BlockAt.stores : (b : List Stmt) → ∀ {leave : Nat}
    {x : Option Exits} {m m' : Mark}, BlockAt L b x m m' → LeavesBy leave x →
    (q, name) ∈ blockStores leave m.pc b → L.Writes q name
  | [], _, _, _, _, _, _, hq => by cases hq
  | .mk _ a :: rest, _, _, _, _, ⟨y, ha, hrest⟩, hx, hq => by
    rw [blockStores, ← ActionAt.end_eq a ha hx] at hq
    exact (List.mem_append.1 hq).elim (ActionAt.stores a ha hx) (BlockAt.stores rest hrest hx)

end

end

end Compile
end ScriptMachine
