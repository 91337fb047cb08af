import ScriptMachine.Listing
import ScriptMachine.Proofs.Image.Tables
import ScriptMachine.Proofs.Verify.Refused

namespace ScriptMachine
namespace Image

/-- Parsing accepts what writing produces, and nothing else. -/
theorem parse_eq_ok {image : Text} {p : Program} :
    parse image = .ok p ↔ p.Plain ∧ write p = .ok image := by
  unfold parse
  constructor
  · intro h
    split at h
    · cases h
    split at h
    · cases h
    next c hread =>
    split at h
    · next hempty =>
      cases h
      obtain ⟨hplain, t, ht, hrest⟩ := format_program.took hread
      dsimp only at hrest
      rw [hrest, List.isEmpty_iff.1 hempty, List.append_nil]
      exact ⟨hplain, ht⟩
    · cases h
  · rintro ⟨hplain, hwrite⟩
    have hread := format_program.reads hplain hwrite [] 0
    rw [List.append_nil] at hread
    have hlength : ¬ image.length < 4 := by
      simp only [write, Verify.bind_eq_ok] at hwrite
      obtain ⟨_, -, _, -, _, -, _, -, _, -, _, -, ⟨⟩⟩ := hwrite
      have hmagic : magic.length = 4 := rfl
      simp [Text.concat, hmagic]
    rw [if_neg hlength, hread]
    rfl

theorem table_map {α β : Type} {g : α → β} {w : β → Written} {w' : α → Written}
    (h : ∀ x, w (g x) = w' x) (xs : List α) (what : Text) :
    table (xs.map g) what w = table xs what w' := by
  have heach : each (xs.map g) w = each xs w' := by
    rw [each, each, List.mapM_map, show w ∘ g = w' from funext h]
  rw [table, table, heach, List.length_map]

theorem write_storeDepths (p : Program) (depths : List Nat) :
    write (Verify.storeDepths p depths) = write p := by
  have hfunctions : table (Verify.storeDepths p depths).functions.toList "functions" function =
      table p.functions.toList "functions" function := by
    have hbare (fs : List Function) :
        table (fs.map Function.bare) "functions" function = table fs "functions" function :=
      table_map (fun _ => rfl) fs "functions"
    rw [← hbare, Verify.map_bare_storeDepths, hbare]
  simp only [write, hfunctions]
  rfl

theorem read_eq_ok {image : Text} {p : Program} :
    read image = .ok p ↔ ∃ q, q.Plain ∧ write q = .ok image ∧ q.verify = .ok p := by
  simp only [read, Verify.bind_eq_ok, parse_eq_ok]
  constructor
  · rintro ⟨q, ⟨hplain, hwrite⟩, h⟩
    cases hverify : q.verify with
    | error e => simp [hverify] at h
    | ok verified =>
      simp only [hverify, Except.ok.injEq] at h
      exact ⟨q, hplain, hwrite, h ▸ hverify⟩
  · rintro ⟨q, hplain, hwrite, hverify⟩
    exact ⟨q, ⟨hplain, hwrite⟩, by rw [hverify]⟩

theorem write_of_read {image : Text} {p : Program} (h : read image = .ok p) :
    write p = .ok image ∧ p.verify = .ok p ∧ ∀ ins ∈ p.code.toList, ins.Plain := by
  obtain ⟨q, hplain, hwrite, hverify⟩ := read_eq_ok.1 h
  obtain ⟨-, depths, -, rfl⟩ := Verify.verify_eq_ok.1 hverify
  exact ⟨by rw [write_storeDepths, hwrite], Verify.verify_of_verify hverify, hplain.code⟩

end Image

theorem Listing.code_isOk (p : Program) (address : Nat) (functions : List Function) (line : UInt32)
    {code : List Instruction} (hcode : ∀ ins ∈ code, ins.Plain) :
    ∃ text, Listing.code p address functions line code = .ok text := by
  induction code generalizing address functions line with
  | nil => exact ⟨[], rfl⟩
  | cons ins code ih =>
    obtain ⟨op, hop, -⟩ := hcode ins List.mem_cons_self
    obtain ⟨more, hmore⟩ := ih (address + 1) (labels address functions).2
      (p.lineAt address) fun ins' hins => hcode ins' (List.mem_cons_of_mem ins hins)
    have hins : ∃ text, Listing.instruction p address ins = .ok text := by
      refine ⟨_, Verify.bind_eq_ok.2 ⟨op, ?_, rfl⟩⟩
      simp [Instruction.op, hop]
    obtain ⟨text, htext⟩ := hins
    exact ⟨_, Verify.bind_eq_ok.2 ⟨text, htext, Verify.bind_eq_ok.2 ⟨more, hmore, rfl⟩⟩⟩

theorem listing_isOk {p : Program} (hcode : ∀ ins ∈ p.code.toList, ins.Plain) :
    ∃ text, p.listing = .ok text := by
  obtain ⟨code, hlisted⟩ := Listing.code_isOk p 0 p.functions.toList 0 hcode
  exact ⟨_, Verify.bind_eq_ok.2 ⟨code, hlisted, rfl⟩⟩

namespace Image

/-- An image that loads is the one its program is written as, so no two images load to the same
program. -/
theorem read_canonical {image : Text} {p : Program} (h : read image = .ok p) :
    write p = .ok image ∧ ∀ other, read other = .ok p → other = image := by
  refine ⟨(write_of_read h).1, fun other hother => ?_⟩
  have hsame := (write_of_read hother).1
  rw [(write_of_read h).1] at hsame
  exact (Except.ok.inj hsame).symm

/-- An image of a halt with a jump behind it that leads nowhere, and a try table that nothing
uses. -/
def strayTables : Text :=
  magic ++ [1, 0, 0, 0, 0, 0, 0, 0, 0, 0, 0, 0,
    1, 0, 0, 0, 1, 0, 0, 0, 0x6d, 0, 0, 0, 0, 2, 0, 0, 0, 0, 0, 0, 0, 0, 0, 0, 0,
    1, 0, 0, 0, 0xf9, 0xff, 0xff, 0xff, 1, 0, 0, 0, 0xfb, 0xff, 0xff, 0xff, 0xff, 0xff, 0x7f, 0,
    2, 0, 0, 0, 38, 18, 0, 0, 0x80, 0xff, 0]

/-- Operands and addresses that no check looks at are written back as they were. -/
theorem read_canonical_strayTables : ∃ p, read strayTables = .ok p ∧ p.code.size = 2 ∧
    p.tries = #[⟨[⟨-5, 8388607⟩], -7⟩] ∧ write p = .ok strayTables ∧
    ∀ other, read other = .ok p → other = strayTables := by
  have hloads : (read strayTables).toOption.any fun p =>
      p.code.size = 2 ∧ p.tries = #[⟨[⟨-5, 8388607⟩], -7⟩] := by decide +kernel
  cases hread : read strayTables with
  | error e => simp [hread, Except.toOption] at hloads
  | ok p =>
    simp only [hread, Except.toOption, Option.any_some, decide_eq_true_eq] at hloads
    exact ⟨p, rfl, hloads.1, hloads.2, read_canonical hread⟩

/-- A failure that the bytes of an image are the reason for. -/
def OfBytes : LoadError → Prop
  | .verification _ | .file _ | .content _ => False
  | _ => True

/-- A reader that only fails on account of the bytes. -/
def Sincere (r : Reader α) : Prop := ∀ c e, r c = .error e → OfBytes e

theorem sincere_pure (x : α) : Sincere (pure x : Reader α) := nofun

theorem sincere_fail {e : LoadError} (he : OfBytes e) : Sincere (Reader.fail e : Reader α) := by
  rintro c _ ⟨⟩
  exact he

theorem Sincere.bind {r : Reader α} {f : α → Reader β} (hr : Sincere r)
    (hf : ∀ a, Sincere (f a)) : Sincere (r >>= f) := by
  intro c e h
  change StateT.bind r f c = .error e at h
  unfold StateT.bind at h
  cases hrun : r c with
  | error e' =>
    rw [hrun] at h
    cases h
    exact hr c e hrun
  | ok result =>
    rw [hrun] at h
    exact hf result.1 result.2 e h

theorem Sincere.ite {c : Prop} [Decidable c] {r s : Reader α} (hr : Sincere r) (hs : Sincere s) :
    Sincere (if c then r else s) := by
  split
  · exact hr
  · exact hs

theorem sincere_bytes (n : Nat) : Sincere (Reader.bytes n) := by
  intro c e h
  simp only [Reader.bytes] at h
  split at h
  · cases h
    trivial
  · cases h

theorem sincere_byte : Sincere Reader.byte := (sincere_bytes 1).bind fun _ => sincere_pure _

theorem sincere_word : Sincere Reader.word := (sincere_bytes 4).bind fun _ => sincere_pure _

theorem sincere_signedWord : Sincere Reader.signedWord := sincere_word.bind fun _ => sincere_pure _

theorem sincere_number : Sincere Reader.number := (sincere_bytes 8).bind fun _ => sincere_pure _

theorem sincere_string : Sincere Reader.string := sincere_word.bind fun n => sincere_bytes n

theorem sincere_repeated {item : Nat → Reader α} (hitem : ∀ i, Sincere (item i)) (index n : Nat) :
    Sincere (Reader.repeated item index n) := by
  induction n generalizing index with
  | zero => exact sincere_pure []
  | succ n ih => exact (hitem index).bind fun _ => (ih (index + 1)).bind fun _ => sincere_pure _

theorem sincere_table {item : Nat → Reader α} (hitem : ∀ i, Sincere (item i)) (least : Nat)
    (what : Text) : Sincere (Reader.table least what item) := by
  have hcount : Sincere (Reader.count least what) := by
    refine sincere_word.bind fun n => Sincere.bind (r := get) nofun fun c => ?_
    exact Sincere.ite (sincere_fail trivial) (sincere_pure n)
  exact hcount.bind fun n => sincere_repeated hitem 0 n

theorem sincere_constant : Sincere Reader.constant := by
  refine sincere_byte.bind fun tag => ?_
  refine (sincere_number.bind fun _ => sincere_pure _).ite ?_
  refine (sincere_string.bind fun _ => sincere_pure _).ite ?_
  refine Sincere.ite (sincere_byte.bind fun flag => ?_) ?_
  · exact Sincere.ite (sincere_fail trivial) (sincere_pure _)
  · exact (sincere_pure _).ite (sincere_fail trivial)

theorem sincere_function : Sincere Reader.function := by
  refine sincere_string.bind fun name => sincere_word.bind fun _ => sincere_word.bind fun _ =>
    sincere_word.bind fun arity => sincere_word.bind fun _ => ?_
  refine Sincere.ite (sincere_fail trivial) ?_
  exact (sincere_repeated (fun _ => sincere_signedWord) 0 arity).bind fun _ => sincere_pure _

theorem sincere_tryTable : Sincere Reader.tryTable := by
  refine sincere_signedWord.bind fun _ => (sincere_table (fun _ => ?_) 8 _).bind fun _ =>
    sincere_pure _
  refine sincere_signedWord.bind fun _ => sincere_word.bind fun n => ?_
  exact Sincere.ite (sincere_fail trivial) (sincere_pure _)

theorem sincere_instruction (index : Nat) : Sincere (Reader.instruction index) := by
  refine sincere_byte.bind fun code => ?_
  have hoperand (present : Bool) : Sincere (Reader.operand present) :=
    sincere_signedWord.ite (sincere_pure 0)
  cases Opcode.ofCode? code with
  | none => exact sincere_fail trivial
  | some op =>
    refine (hoperand _).bind fun a => (hoperand _).bind fun b => ?_
    exact (sincere_pure _).ite (sincere_fail trivial)

theorem sincere_debugInfo : Sincere Reader.debugInfo := by
  refine sincere_byte.bind fun flag =>
    Sincere.ite (sincere_fail trivial) ((sincere_pure none).ite ?_)
  refine sincere_string.bind fun _ => ?_
  refine (sincere_table (fun _ => sincere_word.bind fun _ => sincere_pure _) 4 _).bind fun _ => ?_
  refine (sincere_table (fun _ => ?_) 4 _).bind fun _ => sincere_pure _
  exact (sincere_table (fun _ => sincere_string) 4 _).bind fun _ => sincere_pure _

theorem sincere_program : Sincere Reader.program := by
  refine (sincere_bytes 4).bind fun _ => Sincere.ite (sincere_fail trivial) ?_
  refine sincere_word.bind fun _ => Sincere.ite (sincere_fail trivial) ?_
  refine (sincere_table (fun _ => sincere_constant) 1 _).bind fun _ => ?_
  refine (sincere_table (fun _ => sincere_string) 4 _).bind fun _ => ?_
  refine (sincere_table (fun _ => sincere_function) 20 _).bind fun _ => ?_
  refine (sincere_table (fun _ => sincere_tryTable) 8 _).bind fun _ => ?_
  refine (sincere_table sincere_instruction 1 _).bind fun _ => ?_
  exact sincere_debugInfo.bind fun _ => sincere_pure _

theorem ofBytes_of_parse {image : Text} {e : LoadError} (h : parse image = .error e) :
    OfBytes e := by
  unfold parse at h
  split at h
  · cases h
    trivial
  split at h
  · next hread =>
    cases h
    exact sincere_program _ _ hread
  split at h
  · cases h
  · cases h
    trivial

/-- Loading has two outcomes. What it returns has passed verification, and can be written and listed
again. What it refuses, it refuses as an image: every code was looked up before verification, so
none without a meaning is found there. -/
theorem read_outcome (image : Text) :
    match read image with
    | .ok p => p.verify = .ok p ∧ (∃ bytes, write p = .ok bytes) ∧ ∃ text, p.listing = .ok text
    | .error e => OfBytes e ∨ ∃ v, e = .verification v ∧ ∀ u, v ≠ .unknownOpcode u := by
  cases hread : read image with
  | ok p =>
    obtain ⟨hwrite, hverify, hcode⟩ := write_of_read hread
    exact ⟨hverify, ⟨image, hwrite⟩, listing_isOk hcode⟩
  | error e =>
    unfold read at hread
    cases hparse : parse image with
    | error e' =>
      rw [hparse] at hread
      cases hread
      exact .inl (ofBytes_of_parse hparse)
    | ok q =>
      rw [hparse] at hread
      cases hverify : q.verify with
      | ok verified => simp [hverify, bind, Except.bind] at hread
      | error v =>
        simp only [hverify, bind, Except.bind, Except.error.injEq] at hread
        refine .inr ⟨v, hread.symm, fun u hu => ?_⟩
        have hcode : ∀ ins ∈ q.code.toList, ins.op?.isSome := by
          intro ins hins
          obtain ⟨op, hop, -⟩ := (parse_eq_ok.1 hparse).1.code ins hins
          rw [hop]
          rfl
        exact Verify.lawful_verify hcode u (hu ▸ hverify)

end Image
end ScriptMachine
