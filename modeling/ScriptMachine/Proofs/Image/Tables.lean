import ScriptMachine.Proofs.Image.Format

namespace ScriptMachine

/-- An instruction with a known operation and zeros for the operands that it does not have. -/
def Instruction.Plain (ins : Instruction) : Prop :=
  ∃ op, ins.op? = some op ∧ (op.operandCount < 1 → ins.a = 0) ∧ (op.operandCount < 2 → ins.b = 0)

/-- A clause whose handler stands where a jump could lead. -/
def CatchClause.Plain (c : CatchClause) : Prop :=
  0 ≤ c.handler.toInt ∧ c.handler.toInt ≤ maxOperand

def TryTable.Plain (t : TryTable) : Prop := ∀ c ∈ t.clauses, c.Plain

/-- A function with a default entry for each parameter, before its depth has been found. -/
structure Function.Plain (f : Function) : Prop where
  arity : f.arity ≤ maxArguments
  defaults : f.defaults.length = f.arity
  depth : f.maxStackDepth = 0

/-- A program that its image says all of. -/
structure Program.Plain (p : Program) : Prop where
  version : p.version = formatVersion
  functions : ∀ f ∈ p.functions.toList, f.Plain
  tries : ∀ t ∈ p.tries.toList, t.Plain
  code : ∀ ins ∈ p.code.toList, ins.Plain

namespace Image

theorem flag_cases {flag : UInt8} (h : ¬ flag > 1) : flag = 0 ∨ flag = 1 := by
  have hle : flag.toNat ≤ 1 := by simpa [UInt8.lt_iff_toNat_lt] using h
  rcases Nat.le_one_iff_eq_zero_or_eq_one.1 hle with hzero | hone
  · exact .inl (UInt8.toNat.inj hzero)
  · exact .inr (UInt8.toNat.inj hone)

theorem format_constant : Format (fun _ => True) constant Reader.constant where
  reads := by
    intro x t _ ht
    cases x with
    | number x =>
      cases ht
      exact (format_byte.reads trivial rfl).bind ((format_number.reads trivial rfl).map _)
    | string u =>
      obtain ⟨v, hv, ⟨⟩⟩ := Verify.bind_eq_ok.1 ht
      exact (format_byte.reads trivial rfl).bind ((format_string.reads trivial hv).map _)
    | boolean b =>
      cases ht
      refine (format_byte.reads trivial rfl).bind
        ((format_byte.reads trivial rfl).bind (t := [if b then 1 else 0]) ?_)
      cases b <;> exact reads_pure _
    | nil =>
      cases ht
      exact (format_byte.reads trivial rfl).bind (reads_pure _)
  took := by
    intro x c c' h
    obtain ⟨tag, c₁, htag, h⟩ := Reader.bind_eq_ok.1 h
    obtain ⟨-, _, ⟨⟩, hc⟩ := format_byte.took htag
    refine ⟨trivial, ?_⟩
    split at h
    · next heq =>
      obtain ⟨y, c₂, hy, h⟩ := Reader.bind_eq_ok.1 h
      obtain ⟨rfl, rfl⟩ := Reader.pure_eq_ok.1 h
      obtain ⟨-, _, ⟨⟩, hc₁⟩ := format_number.took hy
      exact ⟨_, rfl, by rw [hc, hc₁, heq]; rfl⟩
    split at h
    · next heq =>
      obtain ⟨u, c₂, hu, h⟩ := Reader.bind_eq_ok.1 h
      obtain ⟨rfl, rfl⟩ := Reader.pure_eq_ok.1 h
      obtain ⟨-, v, hv, hc₁⟩ := format_string.took hu
      exact ⟨1 :: v, Verify.bind_eq_ok.2 ⟨v, hv, rfl⟩, by rw [hc, hc₁, heq]; rfl⟩
    split at h
    · next heq =>
      obtain ⟨flag, c₂, hflag, h⟩ := Reader.bind_eq_ok.1 h
      obtain ⟨-, _, ⟨⟩, hc₁⟩ := format_byte.took hflag
      split at h
      · cases h
      · next hle =>
        obtain ⟨rfl, rfl⟩ := Reader.pure_eq_ok.1 h
        refine ⟨_, rfl, ?_⟩
        rw [hc, hc₁, heq]
        rcases flag_cases hle with rfl | rfl <;> rfl
    split at h
    · next heq =>
      obtain ⟨rfl, rfl⟩ := Reader.pure_eq_ok.1 h
      exact ⟨_, rfl, by rw [hc, heq]⟩
    · cases h

theorem each_total (g : α → Text) (xs : List α) :
    each xs (fun x => .ok (g x)) = .ok (Text.concat (xs.map g)) := by
  induction xs with
  | nil => rfl
  | cons x xs ih => exact each_cons.2 ⟨_, _, rfl, ih, rfl⟩

theorem function_eq_ok {f : Function} {t : Text} (hdefaults : f.defaults.length = f.arity) :
    function f = .ok t ↔ f.entry < 2 ^ 32 ∧ f.stop < 2 ^ 32 ∧ f.arity < 2 ^ 32 ∧
      f.localCount < 2 ^ 32 ∧ ∃ name, string f.name = .ok name ∧
      t = name ++ (word f.entry ++ (word f.stop ++ (word f.arity ++ (word f.localCount ++
        Text.concat (f.defaults.map signedWord))))) := by
  have hwords : (List.range f.arity).map (fun i => signedWord (f.defaults.getD i noIndex)) =
      f.defaults.map signedWord := by
    apply List.ext_getElem?
    intro i
    by_cases hi : i < f.arity
    · simp [hi, hdefaults]
    · simp [hi, hdefaults]
  simp only [function, Verify.bind_eq_ok, size_eq_ok, hwords]
  constructor
  · rintro ⟨name, hname, _, ⟨hentry, rfl⟩, _, ⟨hstop, rfl⟩, _, ⟨harity, rfl⟩, _, ⟨hlocals, rfl⟩, ⟨⟩⟩
    exact ⟨hentry, hstop, harity, hlocals, name, hname, by simp [Text.concat]⟩
  · rintro ⟨hentry, hstop, harity, hlocals, name, hname, rfl⟩
    refine ⟨name, hname, _, ⟨hentry, rfl⟩, _, ⟨hstop, rfl⟩, _, ⟨harity, rfl⟩, _, ⟨hlocals, rfl⟩, ?_⟩
    simp [Text.concat, pure, Except.pure]

theorem format_function : Format Function.Plain function Reader.function where
  reads := by
    intro f t hf ht
    obtain ⟨hentry, hstop, harity, hlocals, name, hname, rfl⟩ := (function_eq_ok hf.defaults).1 ht
    have hdefaults := reads_repeated (fun _ => format_signedWord) 0 (fun _ _ => trivial)
      (each_total signedWord f.defaults)
    rw [hf.defaults] at hdefaults
    refine (format_string.reads trivial hname).bind ((format_word.reads hentry rfl).bind
      ((format_word.reads hstop rfl).bind ((format_word.reads harity rfl).bind
        ((format_word.reads hlocals rfl).bind ?_))))
    rw [if_neg (Nat.not_lt.2 hf.arity)]
    have hdepth := hf.depth
    obtain ⟨_, _, _, _, _, _, depth⟩ := f
    cases hdepth
    exact hdefaults.map _
  took := by
    intro f c c' h
    obtain ⟨name, c₁, hname, h⟩ := Reader.bind_eq_ok.1 h
    obtain ⟨entry, c₂, hentry, h⟩ := Reader.bind_eq_ok.1 h
    obtain ⟨stop, c₃, hstop, h⟩ := Reader.bind_eq_ok.1 h
    obtain ⟨arity, c₄, harity, h⟩ := Reader.bind_eq_ok.1 h
    obtain ⟨localCount, c₅, hlocals, h⟩ := Reader.bind_eq_ok.1 h
    split at h
    · cases h
    · next hle =>
      obtain ⟨defaults, c₆, hdefaults, h⟩ := Reader.bind_eq_ok.1 h
      obtain ⟨rfl, rfl⟩ := Reader.pure_eq_ok.1 h
      obtain ⟨-, u, hu, hc⟩ := format_string.took hname
      obtain ⟨hentry, _, ⟨⟩, hc₁⟩ := format_word.took hentry
      obtain ⟨hstop, _, ⟨⟩, hc₂⟩ := format_word.took hstop
      obtain ⟨harity, _, ⟨⟩, hc₃⟩ := format_word.took harity
      obtain ⟨hlocals, _, ⟨⟩, hc₄⟩ := format_word.took hlocals
      obtain ⟨hlength, -, v, hv, hc₅⟩ := took_repeated (fun _ => format_signedWord) hdefaults
      rw [each_total] at hv
      cases hv
      refine ⟨⟨Nat.not_lt.1 hle, hlength, rfl⟩, _,
        (function_eq_ok hlength).2 ⟨hentry, hstop, harity, hlocals, u, hu, rfl⟩, ?_⟩
      simp only [hc, hc₁, hc₂, hc₃, hc₄, hc₅, List.append_assoc]

theorem toInt_eq_toNat_cond (w : Int32) : w.toInt = if 2 * w.toUInt32.toNat < 2 ^ 32 then
    (w.toUInt32.toNat : Int) else (w.toUInt32.toNat : Int) - (2 ^ 32 : Nat) :=
  BitVec.toInt_eq_toNat_cond w.toBitVec

theorem format_clause : Format CatchClause.Plain clause Reader.clause where
  reads := by
    rintro ⟨filter, handler⟩ t ⟨hlow, hhigh⟩ ⟨⟩
    have hcond := toInt_eq_toNat_cond handler
    have hlt := handler.toUInt32.toNat_lt
    have hle : handler.toUInt32.toNat ≤ maxOperand := by
      dsimp only at hlow hhigh
      split at hcond <;> omega
    have hhandler := (format_word.reads hlt rfl).bind (u := []) (y := CatchClause.mk filter handler)
      (f := fun n => if n > maxOperand then Reader.fail (.handlerAddress n)
        else return ⟨filter, n.toUInt32.toInt32⟩) ?_
    · rw [List.append_nil] at hhandler
      exact (format_signedWord.reads trivial rfl).bind hhandler
    · rw [if_neg (Nat.not_lt.2 hle)]
      simpa using reads_pure (CatchClause.mk filter handler.toUInt32.toNat.toUInt32.toInt32)
  took := by
    intro x c c' h
    obtain ⟨filter, c₁, hfilter, h⟩ := Reader.bind_eq_ok.1 h
    obtain ⟨n, c₂, hn, h⟩ := Reader.bind_eq_ok.1 h
    obtain ⟨-, _, ⟨⟩, hc⟩ := format_signedWord.took hfilter
    obtain ⟨hlt, _, ⟨⟩, hc₁⟩ := format_word.took hn
    split at h
    · cases h
    · next hle =>
      obtain ⟨rfl, rfl⟩ := Reader.pure_eq_ok.1 h
      have hnat : n.toUInt32.toInt32.toUInt32.toNat = n := by simpa using hlt
      have hcond := toInt_eq_toNat_cond n.toUInt32.toInt32
      rw [hnat] at hcond
      refine ⟨?_, _, rfl, ?_⟩
      · unfold CatchClause.Plain
        dsimp only
        unfold maxOperand at hle ⊢
        split at hcond <;> omega
      · have hword : signedWord n.toUInt32.toInt32 = word n := by rw [signedWord, hnat]
        rw [hc, hc₁, ← hword, List.append_assoc]

theorem length_clause {x : CatchClause} {t : Text} (h : clause x = .ok t) : 8 ≤ t.length := by
  cases h
  simp [signedWord, word]

theorem format_tryTable : Format TryTable.Plain tryTable Reader.tryTable := by
  have hclauses :=
    format_table (fun _ => format_clause) length_clause "catch clauses" "catch clause"
  refine ⟨?_, ?_⟩
  · rintro ⟨clauses, cleanup⟩ t hvalid ht
    obtain ⟨u, hu, ⟨⟩⟩ := Verify.bind_eq_ok.1 ht
    exact (format_signedWord.reads trivial rfl).bind ((hclauses.reads hvalid hu).map _)
  · intro x c c' h
    obtain ⟨cleanup, c₁, hcleanup, h⟩ := Reader.bind_eq_ok.1 h
    obtain ⟨clauses, c₂, htable, h⟩ := Reader.bind_eq_ok.1 h
    obtain ⟨rfl, rfl⟩ := Reader.pure_eq_ok.1 h
    obtain ⟨-, _, ⟨⟩, hc⟩ := format_signedWord.took hcleanup
    obtain ⟨hvalid, u, hu, hc₁⟩ := hclauses.took htable
    exact ⟨hvalid, _, Verify.bind_eq_ok.2 ⟨u, hu, rfl⟩, by rw [hc, hc₁, List.append_assoc]⟩

def extended (a : BitVec 24) : Int32 := .ofBitVec (a.signExtend 32)

theorem toInt_extended (a : BitVec 24) : (extended a).toInt = a.toInt :=
  BitVec.toInt_signExtend_of_le (by decide)

theorem isOperand_extended (a : BitVec 24) : Reader.isOperand (extended a) := by
  have hlow := BitVec.le_toInt a
  have hhigh := BitVec.toInt_lt (x := a)
  simp only [Reader.isOperand, toInt_extended, maxOperand, Bool.and_eq_true, decide_eq_true_eq]
  omega

theorem extended_ofInt {w : Int32} (h : Reader.isOperand w) :
    extended (BitVec.ofInt 24 w.toInt) = w := by
  have hrange : -(maxOperand : Int) - 1 ≤ w.toInt ∧ w.toInt ≤ maxOperand := by
    simpa [Reader.isOperand] using h
  unfold maxOperand at hrange
  apply Int32.toInt_inj.1
  rw [toInt_extended, BitVec.toInt_ofInt]
  apply Int.bmod_eq_of_le
  all_goals omega

theorem format_operand (present : Bool) : Format (fun w => present ∨ w = 0)
    (fun w => .ok (if present then signedWord w else [])) (Reader.operand present) := by
  cases present with
  | true => exact ⟨fun _ h => format_signedWord.reads trivial h,
      fun h => ⟨.inl rfl, (format_signedWord.took h).2⟩⟩
  | false =>
    refine ⟨?_, ?_⟩
    · rintro w t (⟨⟨⟩⟩ | rfl) ⟨⟩
      exact reads_pure 0
    · intro w c c' h
      obtain ⟨rfl, rfl⟩ := Reader.pure_eq_ok.1 h
      exact ⟨.inr rfl, [], rfl, rfl⟩

theorem instruction_eq_ok {ins : Instruction} {t : Text} : instruction ins = .ok t ↔
    ∃ op, ins.op? = some op ∧ t = [ins.code] ++
      ((if decide (0 < op.operandCount) then signedWord (extended ins.a) else []) ++
        (if decide (1 < op.operandCount) then signedWord (extended ins.b) else [])) := by
  have hcount (op : Opcode) : Text.concat ([operand ins.a, operand ins.b].take op.operandCount) =
      (if decide (0 < op.operandCount) then signedWord (extended ins.a) else []) ++
        (if decide (1 < op.operandCount) then signedWord (extended ins.b) else []) := by
    have hcases : op.operandCount = 0 ∨ op.operandCount = 1 ∨ op.operandCount = 2 := by
      unfold Opcode.operandCount
      split
      · exact .inr (.inr rfl)
      · split
        · exact .inr (.inl rfl)
        · exact .inl rfl
    rcases hcases with h | h | h <;> simp [h, Text.concat] <;> rfl
  unfold instruction Instruction.op
  cases ins.op? with
  | none => simp
  | some op => simp [hcount, eq_comm]

theorem format_instruction (index : Nat) :
    Format Instruction.Plain instruction (Reader.instruction index) where
  reads := by
    rintro ⟨code, a, b⟩ t ⟨op, hop, ha, hb⟩ ht
    obtain ⟨op', hop', rfl⟩ := instruction_eq_ok.1 ht
    rw [hop] at hop'
    cases hop'
    -- an operand that the operation does not have is zero, and it is not written
    have habsent {n : Nat} {x : BitVec 24} (hx : op.operandCount < n + 1 → x = 0) :
        decide (n < op.operandCount) ∨ extended x = 0 := by
      by_cases h : n < op.operandCount
      · exact .inl (decide_eq_true h)
      · rw [hx (by omega)]
        exact .inr rfl
    have hfirst := (format_operand (0 < op.operandCount)).reads (habsent ha) rfl
    have hsecond := (format_operand (1 < op.operandCount)).reads (habsent hb) rfl
    have hmade := hsecond.bind (u := []) (y := Instruction.mk code a b) (f := fun w =>
      if Reader.isOperand (extended a) && Reader.isOperand w then
        return Instruction.make code (extended a).toInt w.toInt
      else Reader.fail (.operand index)) ?_
    · rw [List.append_nil] at hmade
      refine (format_byte.reads trivial rfl).bind ?_
      simp only [show Opcode.ofCode? code = some op from hop]
      exact hfirst.bind hmade
    · rw [isOperand_extended, isOperand_extended, toInt_extended, toInt_extended]
      simpa [Instruction.make] using reads_pure (Instruction.mk code a b)
  took := by
    intro ins c c' h
    obtain ⟨code, c₁, hcode, h⟩ := Reader.bind_eq_ok.1 h
    obtain ⟨-, _, ⟨⟩, hc⟩ := format_byte.took hcode
    cases hop : Opcode.ofCode? code with
    | none =>
      simp only [hop] at h
      cases h
    | some op =>
      simp only [hop] at h
      obtain ⟨a, c₂, htakeA, h⟩ := Reader.bind_eq_ok.1 h
      obtain ⟨b, c₃, htakeB, h⟩ := Reader.bind_eq_ok.1 h
      obtain ⟨ha, _, ⟨⟩, hc₁⟩ := (format_operand _).took htakeA
      obtain ⟨hb, _, ⟨⟩, hc₂⟩ := (format_operand _).took htakeB
      split at h
      · next hrange =>
        obtain ⟨rfl, rfl⟩ := Reader.pure_eq_ok.1 h
        obtain ⟨hrangeA, hrangeB⟩ := Bool.and_eq_true_iff.1 hrange
        refine ⟨⟨op, hop, ?_, ?_⟩, _, instruction_eq_ok.2 ⟨op, hop, rfl⟩, ?_⟩
        · intro hcount
          obtain rfl := ha.resolve_left (by simpa using hcount)
          rfl
        · intro hcount
          obtain rfl := hb.resolve_left (by simp; omega)
          rfl
        · rw [hc, hc₁, hc₂]
          simp only [Instruction.make, extended_ofInt hrangeA, extended_ofInt hrangeB,
            List.append_assoc]
      · cases h

theorem length_string {t u : Text} (h : string t = .ok u) : 4 ≤ u.length := by
  obtain ⟨-, rfl⟩ := string_eq_ok.1 h
  simp [word]

theorem length_table {α : Type} {write : α → Written} {xs : List α} {what t : Text}
    (h : table xs what write = .ok t) : 4 ≤ t.length := by
  obtain ⟨-, u, -, rfl⟩ := table_eq_ok.1 h
  simp [word]

theorem format_lines : Format (fun _ => True)
    (fun lines : List UInt32 => table lines "line entries" fun line => .ok (word line.toNat))
    (Reader.table 4 "line entry" fun _ => do return (← Reader.word).toUInt32) := by
  refine format_tableOfAny (fun _ => format_unsigned) ?_ "line entries" "line entry"
  rintro line t ⟨⟩
  simp [word]

theorem format_names : Format (fun _ => True)
    (fun names : Array Text => table names.toList "local names" string)
    (do return (← Reader.table 4 "local name" fun _ => Reader.string).toArray) := by
  refine (format_tableOfAny (fun _ => format_string) length_string "local names" "local name").iso
    List.toArray Array.toList ?_ ?_
  · intro names _
    exact ⟨trivial, by simp, rfl⟩
  · intro names _
    exact ⟨trivial, by simp⟩

theorem format_locals : Format (fun _ => True)
    (fun locals : List (Array Text) => table locals "local name tables" fun names =>
      table names.toList "local names" string)
    (Reader.table 4 "local name table" fun _ => do
      return (← Reader.table 4 "local name" fun _ => Reader.string).toArray) :=
  format_tableOfAny (fun _ => format_names) length_table "local name tables" "local name table"

theorem format_debugInfo : Format (fun _ => True) debugInfo Reader.debugInfo where
  reads := by
    intro info t _ ht
    cases info with
    | none =>
      cases ht
      exact (format_byte.reads trivial rfl).bind (reads_pure none)
    | some debug =>
      obtain ⟨source, hsource, ht⟩ := Verify.bind_eq_ok.1 ht
      obtain ⟨lines, hlines, ht⟩ := Verify.bind_eq_ok.1 ht
      obtain ⟨locals, hlocals, ⟨⟩⟩ := Verify.bind_eq_ok.1 ht
      rw [show 1 :: Text.concat [source, lines, locals] = [1] ++ (source ++ (lines ++ locals)) by
        simp [Text.concat]]
      refine (format_byte.reads trivial rfl).bind ((format_string.reads trivial hsource).bind ?_)
      refine (format_lines.reads trivial hlines).bind ?_
      exact (format_locals.reads trivial hlocals).map fun locals =>
        some (DebugInfo.mk debug.source debug.lines.toList.toArray locals.toArray)
  took := by
    intro info c c' h
    obtain ⟨flag, c₁, hflag, h⟩ := Reader.bind_eq_ok.1 h
    obtain ⟨-, _, ⟨⟩, hc⟩ := format_byte.took hflag
    refine ⟨trivial, ?_⟩
    split at h
    · cases h
    · next hle =>
      split at h
      · next heq =>
        obtain ⟨rfl, rfl⟩ := Reader.pure_eq_ok.1 h
        exact ⟨[0], rfl, by rw [hc, heq]⟩
      · next hne =>
        obtain ⟨source, c₂, hsource, h⟩ := Reader.bind_eq_ok.1 h
        obtain ⟨lines, c₃, hlines, h⟩ := Reader.bind_eq_ok.1 h
        obtain ⟨locals, c₄, hlocals, h⟩ := Reader.bind_eq_ok.1 h
        obtain ⟨rfl, rfl⟩ := Reader.pure_eq_ok.1 h
        obtain ⟨-, t, ht, hc₁⟩ := format_string.took hsource
        obtain ⟨-, u, hu, hc₂⟩ := format_lines.took hlines
        obtain ⟨-, v, hv, hc₃⟩ := format_locals.took hlocals
        refine ⟨1 :: Text.concat [t, u, v], ?_, ?_⟩
        · exact Verify.bind_eq_ok.2 ⟨t, ht, Verify.bind_eq_ok.2 ⟨u, hu,
            Verify.bind_eq_ok.2 ⟨v, hv, rfl⟩⟩⟩
        · rw [hc, (flag_cases hle).resolve_left hne, hc₁, hc₂, hc₃]
          simp [Text.concat]

theorem length_constant {x : Constant} {t : Text} (h : constant x = .ok t) : 1 ≤ t.length := by
  cases x with
  | string u =>
    obtain ⟨v, -, ⟨⟩⟩ := Verify.bind_eq_ok.1 h
    simp
  | number x | boolean b | nil =>
    cases h
    simp

theorem length_function {f : Function} {t : Text} (h : function f = .ok t) : 20 ≤ t.length := by
  simp only [function, Verify.bind_eq_ok, size_eq_ok] at h
  obtain ⟨name, hname, _, ⟨-, rfl⟩, _, ⟨-, rfl⟩, _, ⟨-, rfl⟩, _, ⟨-, rfl⟩, ⟨⟩⟩ := h
  have := length_string hname
  simp [Text.concat, word]
  omega

theorem length_tryTable {x : TryTable} {t : Text} (h : tryTable x = .ok t) : 8 ≤ t.length := by
  obtain ⟨u, hu, ⟨⟩⟩ := Verify.bind_eq_ok.1 h
  have := length_table hu
  simp [signedWord, word]
  omega

theorem length_instruction {ins : Instruction} {t : Text} (h : instruction ins = .ok t) :
    1 ≤ t.length := by
  obtain ⟨op, -, rfl⟩ := instruction_eq_ok.1 h
  simp

theorem format_constants : Format (fun _ => True) (fun xs => table xs "constants" constant)
    (Reader.table 1 "constant" fun _ => Reader.constant) :=
  format_tableOfAny (fun _ => format_constant) length_constant "constants" "constant"

theorem format_globals : Format (fun _ => True) (fun xs => table xs "global names" string)
    (Reader.table 4 "global name" fun _ => Reader.string) :=
  format_tableOfAny (fun _ => format_string) length_string "global names" "global name"

theorem format_functions : Format (fun xs => ∀ f ∈ xs, f.Plain)
    (fun xs => table xs "functions" function)
    (Reader.table 20 "function" fun _ => Reader.function) :=
  format_table (fun _ => format_function) length_function "functions" "function"

theorem format_tries : Format (fun xs => ∀ t ∈ xs, t.Plain)
    (fun xs => table xs "try tables" tryTable)
    (Reader.table 8 "try table" fun _ => Reader.tryTable) :=
  format_table (fun _ => format_tryTable) length_tryTable "try tables" "try table"

theorem format_code : Format (fun xs => ∀ ins ∈ xs, ins.Plain)
    (fun xs => table xs "instructions" instruction)
    (Reader.table 1 "instruction" Reader.instruction) :=
  format_table format_instruction length_instruction "instructions" "instruction"

theorem format_program : Format Program.Plain write Reader.program where
  reads := by
    rintro p t ⟨hversion, hfunctions, htries, hcode⟩ ht
    obtain ⟨constants, hconstants, ht⟩ := Verify.bind_eq_ok.1 ht
    obtain ⟨globals, hglobals, ht⟩ := Verify.bind_eq_ok.1 ht
    obtain ⟨functions, hwritten, ht⟩ := Verify.bind_eq_ok.1 ht
    obtain ⟨tries, htables, ht⟩ := Verify.bind_eq_ok.1 ht
    obtain ⟨code, hinstructions, ht⟩ := Verify.bind_eq_ok.1 ht
    obtain ⟨debug, hdebug, ⟨⟩⟩ := Verify.bind_eq_ok.1 ht
    rw [show Text.concat [magic, word p.version.toNat, constants, globals, functions, tries, code,
        debug] = magic ++ (word p.version.toNat ++ (constants ++ (globals ++ (functions ++ (tries ++
          (code ++ debug)))))) by simp [Text.concat]]
    refine ((format_bytes 4).reads rfl rfl).bind ?_
    rw [if_neg (not_not_intro rfl)]
    refine (format_word.reads p.version.toNat_lt rfl).bind ?_
    rw [show p.version.toNat.toUInt32 = p.version by simp, if_neg (not_not_intro hversion)]
    refine (format_constants.reads trivial hconstants).bind ?_
    refine (format_globals.reads trivial hglobals).bind ?_
    refine (format_functions.reads hfunctions hwritten).bind ?_
    refine (format_tries.reads htries htables).bind ?_
    refine (format_code.reads hcode hinstructions).bind ?_
    exact (format_debugInfo.reads trivial hdebug).map fun debug => Program.mk p.version
      p.constants.toList.toArray p.globals.toList.toArray p.functions.toList.toArray
      p.tries.toList.toArray p.code.toList.toArray debug
  took := by
    intro p c c' h
    obtain ⟨start, c₁, hstart, h⟩ := Reader.bind_eq_ok.1 h
    obtain ⟨-, _, ⟨⟩, hc⟩ := (format_bytes 4).took hstart
    split at h
    · cases h
    next hmagic =>
    obtain ⟨version, c₂, hword, h⟩ := Reader.bind_eq_ok.1 h
    obtain ⟨hlt, _, ⟨⟩, hc₁⟩ := format_word.took hword
    split at h
    · cases h
    next hversion =>
    obtain ⟨constants, c₃, hconstants, h⟩ := Reader.bind_eq_ok.1 h
    obtain ⟨globals, c₄, hglobals, h⟩ := Reader.bind_eq_ok.1 h
    obtain ⟨functions, c₅, hfunctions, h⟩ := Reader.bind_eq_ok.1 h
    obtain ⟨tries, c₆, htries, h⟩ := Reader.bind_eq_ok.1 h
    obtain ⟨code, c₇, hcode, h⟩ := Reader.bind_eq_ok.1 h
    obtain ⟨debug, c₈, hdebug, h⟩ := Reader.bind_eq_ok.1 h
    obtain ⟨rfl, rfl⟩ := Reader.pure_eq_ok.1 h
    obtain ⟨-, t, ht, hc₂⟩ := format_constants.took hconstants
    obtain ⟨-, u, hu, hc₃⟩ := format_globals.took hglobals
    obtain ⟨hplain, v, hv, hc₄⟩ := format_functions.took hfunctions
    obtain ⟨hplain', w, hw, hc₅⟩ := format_tries.took htries
    obtain ⟨hplain'', x, hx, hc₆⟩ := format_code.took hcode
    obtain ⟨-, y, hy, hc₇⟩ := format_debugInfo.took hdebug
    refine ⟨⟨Decidable.not_not.1 hversion, hplain, hplain', hplain''⟩,
      Text.concat [magic, word version, t, u, v, w, x, y], ?_, ?_⟩
    · have hnat : version.toUInt32.toNat = version := by simpa using hlt
      simp only [write, Verify.bind_eq_ok]
      refine ⟨t, ht, u, hu, v, hv, w, hw, x, hx, y, hy, ?_⟩
      rw [hnat]
      rfl
    · rw [hc, Decidable.not_not.1 hmagic, hc₁, hc₂, hc₃, hc₄, hc₅, hc₆, hc₇]
      simp [Text.concat]

end Image
end ScriptMachine
