import ScriptMachine.Listing
import ScriptMachine.Proofs.Compile.Assembled
import ScriptMachine.Proofs.Verify.Rules
import ScriptMachine.Proofs.Machine.Safety

namespace ScriptMachine

def Function.addresses (f : Function) : List Nat := List.range' f.entry (f.stop - f.entry)

theorem Function.mem_addresses {f : Function} {address : Nat} :
    address ∈ f.addresses ↔ f.contains address := by
  simp only [addresses, contains, List.mem_range'_1, Bool.and_eq_true, decide_eq_true_eq]
  omega

namespace Compile

section adjoin

variable {functions : List Function} {start stop : Nat}

theorem Adjoin.le (h : Adjoin start functions stop) : start ≤ stop := by
  induction functions generalizing start with
  | nil => exact Nat.le_of_eq h.symm
  | cons f rest ih =>
    obtain ⟨rfl, hlt, hrest⟩ := h
    exact Nat.le_trans (Nat.le_of_lt hlt) (ih hrest)

theorem Adjoin.flatMap_addresses (h : Adjoin start functions stop) :
    functions.flatMap Function.addresses = List.range' start (stop - start) := by
  induction functions generalizing start with
  | nil =>
    obtain rfl : stop = start := h
    simp
  | cons f rest ih =>
    obtain ⟨rfl, hlt, hrest⟩ := h
    have hle := hrest.le
    rw [List.flatMap_cons, ih hrest, Function.addresses,
      show f.stop = f.entry + (f.stop - f.entry) by omega, Nat.add_sub_cancel_left,
      List.range'_append_1]
    congr 1
    omega

theorem Adjoin.findIdx?_contains (h : Adjoin start functions stop) {i : Nat} {f : Function}
    (hf : functions[i]? = some f) {address : Nat} :
    functions.findIdx? (·.contains address) = some i ↔ f.contains address := by
  induction functions generalizing start i with
  | nil => simp at hf
  | cons g rest ih =>
    obtain ⟨rfl, hlt, hrest⟩ := h
    cases i with
    | zero =>
      cases hf
      by_cases hin : f.contains address
      · simp [List.findIdx?_cons, hin]
      · simp [List.findIdx?_cons, hin]
    | succ i =>
      have hrest' := ih hrest hf
      have hbehind : f.contains address → g.contains address = false := by
        intro hin
        have hmem : address ∈ rest.flatMap Function.addresses :=
          List.mem_flatMap.2 ⟨f, List.mem_of_getElem? hf, Function.mem_addresses.2 hin⟩
        rw [hrest.flatMap_addresses, List.mem_range'_1] at hmem
        simp only [Function.contains, Bool.and_eq_false_iff, decide_eq_false_iff_not]
        omega
      rw [List.findIdx?_cons]
      by_cases hin : g.contains address
      · simp only [hin, if_true, Option.some.injEq]
        constructor
        · intro hzero
          cases hzero
        · intro hf'
          rw [hbehind hf'] at hin
          cases hin
      · simpa [hin] using hrest'

end adjoin

theorem adjoin_of_checkFunctions {p : Program} {functions : List Function} {start stop : Nat}
    (h : Verify.checkFunctions p start functions = .ok stop) : Adjoin start functions stop := by
  induction functions generalizing start with
  | nil => exact (Except.ok.inj h).symm
  | cons f rest ih =>
    obtain ⟨_, hf, hrest⟩ := Verify.bind_eq_ok.1 h
    obtain ⟨hentry, hformed⟩ := Verify.checkFunction_eq_ok.1 hf
    exact ⟨hentry, hformed.nonempty, ih hrest⟩

theorem adjoin_of_verify {p q : Program} (h : p.verify = .ok q) :
    Adjoin 0 p.functions.toList p.code.size := by
  obtain ⟨hlayout, -⟩ := Verify.verify_eq_ok.1 h
  obtain ⟨-, -, hlayout⟩ := Verify.bind_eq_ok.1 hlayout
  obtain ⟨-, -, hlayout⟩ := Verify.bind_eq_ok.1 hlayout
  obtain ⟨stop, hfunctions, hlayout⟩ := Verify.bind_eq_ok.1 hlayout
  obtain ⟨_, hstop, -⟩ := Verify.bind_eq_ok.1 hlayout
  simp only [Verify.require_eq_ok, decide_eq_true_eq] at hstop
  exact hstop ▸ adjoin_of_checkFunctions hfunctions

end Compile

namespace Listing

/-- The source line that is announced in front of an instruction, unless it is unknown or the line
of the instruction before. -/
def marker (line before : UInt32) : Text :=
  if line ≠ 0 ∧ line ≠ before then Text.concat ["  ; line ", Text.decimal line.toNat, "\n"] else []

/-- The line of the instruction before in the same function, and none for the first. -/
def lineBefore (p : Program) (f : Function) (address : Nat) : UInt32 :=
  if address = f.entry then 0 else p.lineAt (address - 1)

/-- An instruction of a function with its marker, given the texts of the instructions. -/
def entry (p : Program) (texts : Nat → Text) (f : Function) (address : Nat) : Text :=
  Text.concat [marker (p.lineAt address) (lineBefore p f address), texts address, "\n"]

/-- The label of a function and its instructions. -/
def part (p : Program) (texts : Nat → Text) (f : Function) : Text :=
  Text.concat [f.name, ":\n", f.addresses.flatMap (entry p texts f)]

theorem part_congr {p : Program} {texts others : Nat → Text} {f : Function}
    (h : ∀ address ∈ f.addresses, texts address = others address) :
    part p texts f = part p others f := by
  have hentries : f.addresses.flatMap (entry p texts f) =
      f.addresses.flatMap (entry p others f) := by
    apply List.flatMap_congr
    intro address haddress
    rw [entry, entry, h address haddress]
  rw [part, part, hentries]

/-- The first of the functions that follow starts at an address. -/
def StartsAt (functions : List Function) (address : Nat) : Prop :=
  ∀ f, functions.head? = some f → f.entry = address

theorem startsAt_of_adjoin {functions : List Function} {start stop : Nat}
    (h : Compile.Adjoin start functions stop) : StartsAt functions start := by
  cases functions with
  | nil => nofun
  | cons f rest =>
    rintro _ ⟨⟩
    exact h.1

theorem labels_of_lt {functions : List Function} {address start : Nat}
    (h : StartsAt functions start) (hlt : address < start) :
    labels address functions = ([], functions) := by
  cases functions with
  | nil => rfl
  | cons f rest => rw [labels, if_neg (by rw [h f rfl]; omega)]

theorem labels_entry {f : Function} {rest : List Function} (hrest : StartsAt rest f.stop)
    (hlt : f.entry < f.stop) :
    labels f.entry (f :: rest) = (Text.concat [f.name, ":\n"], rest) := by
  rw [labels, if_pos rfl, labels_of_lt hrest hlt]
  rfl

theorem map_append_append (xs ys : Text) (rest : Except ε Text) :
    (xs ++ ·) <$> (ys ++ ·) <$> rest = (xs ++ ys ++ ·) <$> rest := by
  rw [Functor.map_map]
  simp only [List.append_assoc]

section code

variable {p : Program} {texts : Nat → Text}

theorem code_drop {address : Nat} (hlt : address < p.code.size)
    (htexts : ∀ ins, p.code[address]? = some ins → instruction p address ins = .ok (texts address))
    (functions : List Function) (before : UInt32) :
    code p address functions before (p.code.toList.drop address) =
      (Text.concat [(labels address functions).1,
        marker (p.lineAt address) (if (labels address functions).1.isEmpty then before else 0),
        texts address, "\n"] ++ ·) <$>
      code p (address + 1) (labels address functions).2 (p.lineAt address)
        (p.code.toList.drop (address + 1)) := by
  have hdrop : p.code.toList.drop address =
      p.code[address] :: p.code.toList.drop (address + 1) := by
    rw [List.drop_eq_getElem_cons (by simpa using hlt), Array.getElem_toList]
  rw [hdrop, code, htexts _ (Array.getElem?_eq_getElem hlt)]
  rfl

variable (htexts : ∀ address ins, p.code[address]? = some ins →
  instruction p address ins = .ok (texts address))
include htexts

theorem code_within {f : Function} {later : List Function} (hlater : StartsAt later f.stop)
    (hsize : f.stop ≤ p.code.size) {count address : Nat} (hentry : f.entry < address)
    (hstop : address + count = f.stop) :
    code p address later (p.lineAt (address - 1)) (p.code.toList.drop address) =
      ((List.range' address count).flatMap (entry p texts f) ++ ·) <$>
        code p f.stop later (p.lineAt (f.stop - 1)) (p.code.toList.drop f.stop) := by
  induction count generalizing address with
  | zero =>
    obtain rfl : address = f.stop := hstop
    exact (id_map _).symm
  | succ count ih =>
    have hbefore : lineBefore p f address = p.lineAt (address - 1) := if_neg (by omega)
    have hrest := ih (by omega : f.entry < address + 1) (by omega)
    rw [Nat.add_sub_cancel] at hrest
    rw [code_drop (by omega) (htexts address), labels_of_lt hlater (by omega), hrest,
      map_append_append, List.range'_succ, List.flatMap_cons, entry, hbefore]
    rfl

theorem code_part {f : Function} {later : List Function} (hlater : StartsAt later f.stop)
    (hsize : f.stop ≤ p.code.size) (hlt : f.entry < f.stop) (before : UInt32) :
    code p f.entry (f :: later) before (p.code.toList.drop f.entry) =
      (part p texts f ++ ·) <$>
        code p f.stop later (p.lineAt (f.stop - 1)) (p.code.toList.drop f.stop) := by
  have hbefore : lineBefore p f f.entry = 0 := if_pos rfl
  have haddresses : f.addresses = f.entry :: List.range' (f.entry + 1)
      (f.stop - (f.entry + 1)) := by
    rw [Function.addresses, show f.stop - f.entry = f.stop - (f.entry + 1) + 1 by omega,
      List.range'_succ]
  have hrest := code_within htexts hlater hsize (Nat.lt_add_one f.entry)
    (by omega : f.entry + 1 + (f.stop - (f.entry + 1)) = f.stop)
  rw [Nat.add_sub_cancel] at hrest
  -- the label is not empty, so no line counts as the one before
  have hlabel : (Text.concat [f.name, ":\n"]).isEmpty = false := by
    have hcolon : Text.ofString ":\n" ≠ [] := by decide
    simp [Text.concat, hcolon]
  rw [code_drop (by omega) (htexts f.entry), labels_entry hlater hlt, hrest, map_append_append,
    hlabel]
  simp [part, entry, haddresses, hbefore, Text.concat]

theorem code_parts {functions : List Function} {start : Nat}
    (h : Compile.Adjoin start functions p.code.size) (before : UInt32) :
    code p start functions before (p.code.toList.drop start) =
      .ok (functions.flatMap (part p texts)) := by
  induction functions generalizing start before with
  | nil =>
    obtain rfl : p.code.size = start := h
    rw [List.drop_of_length_le (by simp), code]
    rfl
  | cons f later ih =>
    obtain ⟨rfl, hlt, hlater⟩ := h
    rw [code_part htexts (startsAt_of_adjoin hlater) hlater.le hlt, ih hlater]
    rfl

end code

end Listing

/-- The code of a verified program with known operations is listed function by function, in the
order of the table. The parts have every address of the code once, and each of them those addresses
at which its function is found. -/
theorem listing_sections {p q : Program} (hverify : p.verify = .ok q)
    (hvalid : ∀ ins ∈ p.code, ins.op?.isSome) : ∃ texts : Nat → Text,
      (∀ address ins, p.code[address]? = some ins →
        Listing.instruction p address ins = .ok (texts address)) ∧
      p.listing = .ok (Text.concat [Listing.tables p, "code ", Text.decimal p.code.size, "\n",
        p.functions.toList.flatMap (Listing.part p texts)]) ∧
      p.functions.toList.flatMap Function.addresses = List.range p.code.size ∧
      ∀ index f, p.functions[index]? = some f → ∀ address,
        p.functionAt address = .ok index ↔ address ∈ f.addresses := by
  have hadjoin := Compile.adjoin_of_verify hverify
  let texts (address : Nat) : Text :=
    ((p.code[address]?).bind fun ins => (Listing.instruction p address ins).toOption).getD []
  have htexts (address : Nat) (ins : Instruction) (hins : p.code[address]? = some ins) :
      Listing.instruction p address ins = .ok (texts address) := by
    obtain ⟨op, hop⟩ := Option.isSome_iff_exists.1 (hvalid ins (Array.mem_of_getElem? hins))
    have hlisted : ∃ text, Listing.instruction p address ins = .ok text := by
      refine ⟨_, Verify.bind_eq_ok.2 ⟨op, ?_, rfl⟩⟩
      simp [Instruction.op, hop]
    obtain ⟨text, htext⟩ := hlisted
    simp [texts, hins, htext, Except.toOption]
  refine ⟨texts, htexts, ?_, ?_, ?_⟩
  · have hcode := Listing.code_parts htexts hadjoin 0
    rw [List.drop_zero] at hcode
    rw [Program.listing, hcode]
    rfl
  · rw [hadjoin.flatMap_addresses, List.range_eq_range', Nat.sub_zero]
  · intro index f hf address
    rw [Function.mem_addresses, ← hadjoin.findIdx?_contains (by simpa using hf),
      ← List.findIdx?_toArray, Array.toArray_toList, Program.functionAt, Program.functionAt?]
    cases p.functions.findIdx? (·.contains address) with
    | none => simp
    | some i => simp

namespace Listing

/-- The last function of the program below. -/
def callee : Function := ⟨[0x66], 6, 8, 0, 0, [], 1⟩

/-- The second line of the program calls a function that is on the same line. -/
def calledOnce : Program where
  constants := #[.nil]
  functions := #[⟨mainName, 0, 6, 0, 0, [], 1⟩, callee]
  code := #[.of .loadConst, .of .print, .of .call 1, .of .pop, .of .loadConst, .of .ret,
    .of .loadConst, .of .ret]
  debug := some ⟨[], #[1, 1, 2, 2, 0, 0, 2, 2], #[#[], #[]]⟩

end Listing

/-- The line of the call is announced again under the label of the function. -/
theorem listing_sections_calledOnce : Listing.calledOnce.verify = .ok Listing.calledOnce ∧
    (∀ ins ∈ Listing.calledOnce.code, ins.op?.isSome) ∧
    Listing.calledOnce.listing = .ok (Text.concat [Listing.tables Listing.calledOnce, "code 8\n",
      "<main>:\n",
      "  ; line 1\n",
      "  0000 LOAD_CONST 0 ; nil\n",
      "  0001 PRINT\n",
      "  ; line 2\n",
      "  0002 CALL 1 0 ; f/0\n",
      "  0003 POP\n",
      "  0004 LOAD_CONST 0 ; nil\n",
      "  0005 RETURN\n",
      "f:\n",
      "  ; line 2\n",
      "  0006 LOAD_CONST 0 ; nil\n",
      "  0007 RETURN\n"]) ∧
    Listing.calledOnce.functionAt 6 = .ok 1 := by
  have hverify : Listing.calledOnce.verify = .ok Listing.calledOnce :=
    Machine.eq_ok_of_toOption (by decide +kernel)
  have hvalid : ∀ ins ∈ Listing.calledOnce.code, ins.op?.isSome := by decide
  obtain ⟨texts, htexts, hlisting, -, hat⟩ := listing_sections hverify hvalid
  let lines : List Text := ["  0000 LOAD_CONST 0 ; nil", "  0001 PRINT", "  0002 CALL 1 0 ; f/0",
    "  0003 POP", "  0004 LOAD_CONST 0 ; nil", "  0005 RETURN", "  0006 LOAD_CONST 0 ; nil",
    "  0007 RETURN"]
  have hlines : ∀ address < 8, ((Listing.calledOnce.code[address]?).bind fun ins =>
      (Listing.instruction Listing.calledOnce address ins).toOption) =
        some (lines.getD address []) := by decide +kernel
  have hsame : ∀ address < 8, texts address = lines.getD address [] := by
    intro address hlt
    have hins := @Array.getElem?_eq_getElem _ Listing.calledOnce.code address hlt
    have hline := hlines address hlt
    rw [hins, Option.bind_some, htexts address _ hins] at hline
    exact Option.some.inj hline
  have hparts : Listing.calledOnce.functions.toList.flatMap
        (Listing.part Listing.calledOnce texts) =
      Listing.calledOnce.functions.toList.flatMap
        (Listing.part Listing.calledOnce (lines.getD · [])) := by
    refine List.flatMap_congr fun f hf => Listing.part_congr fun address haddress => ?_
    have hwithin : ∀ f ∈ Listing.calledOnce.functions.toList, ∀ address ∈ f.addresses,
        address < 8 := by decide
    exact hsame address (hwithin f hf address haddress)
  refine ⟨hverify, hvalid, ?_, (hat 1 _ rfl 6).2 (by decide)⟩
  rw [hlisting, hparts]
  exact congrArg Except.ok (by decide +kernel)

end ScriptMachine
