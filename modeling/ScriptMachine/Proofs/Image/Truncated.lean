import ScriptMachine.Proofs.Image.Loading

namespace ScriptMachine

theorem Text.untilZero_append {s : Text} (hs : 0 ∉ s) (t : Text) :
    (s ++ t).untilZero = s ++ t.untilZero := by
  unfold untilZero
  apply List.takeWhile_append_of_pos
  intro b hb
  have hne : b ≠ 0 := ne_of_mem_of_not_mem hb hs
  simpa using hne

theorem Text.zero_not_mem_decimal (n : Nat) : 0 ∉ decimal n := by
  unfold decimal
  intro h
  obtain ⟨c, hc, hzero⟩ := List.mem_map.1 h
  have hdigit := Nat.isDigit_of_mem_toDigits (by decide) (by decide) hc
  have hnat := congrArg UInt8.toNat hzero
  simp only [Char.isDigit, Bool.and_eq_true, decide_eq_true_eq] at hdigit
  have hlow : 48 ≤ c.toNat := hdigit.1
  have hhigh : c.toNat ≤ 57 := hdigit.2
  simp only [digit, Nat.toUInt8, UInt8.toNat_ofNat', UInt8.toNat_zero] at hnat
  omega

namespace Image

/-- A failure for want of bytes: a field that is cut, or a table with more elements than the bytes
that are left can hold. -/
def WantsBytes : LoadError → Prop
  | .truncated _ | .count _ _ => True
  | _ => False

theorem message_of_wantsBytes {e : LoadError} (h : WantsBytes e) :
    ("Truncated bytecode" : Text) <+: e.message := by
  cases e with
  | truncated offset =>
    have hwording : (LoadError.truncated offset).wording =
        ("Truncated bytecode" : Text) ++ ((" at offset " : Text) ++ Text.decimal offset) := by
      simp only [LoadError.wording, Text.concat, List.flatten_cons, List.flatten_nil,
        List.append_nil, ← List.append_assoc]
      congr 1
    rw [LoadError.message, hwording, Text.untilZero_append (by decide)]
    apply List.prefix_append
  | count what n =>
    have hwording : (LoadError.count what n).wording = ("Truncated bytecode" : Text) ++
        ((": " : Text) ++ Text.concat [what, " count ", Text.decimal n, " exceeds remaining data"]) := by
      rw [← List.append_assoc]
      simp only [LoadError.wording, Text.concat, List.flatten_cons]
      congr 1
    rw [LoadError.message, hwording, Text.untilZero_append (by decide)]
    apply List.prefix_append
  | _ => exact h.elim

namespace Reader

theorem bind_of_ok {r : Reader α} (f : α → Reader β) {c c' : Cursor} {x : α}
    (h : r c = .ok (x, c')) : (r >>= f) c = f x c' := by
  show StateT.bind r f c = _
  rw [StateT.bind, h]
  rfl

theorem bind_of_error {r : Reader α} (f : α → Reader β) {c : Cursor} {e : LoadError}
    (h : r c = .error e) : (r >>= f) c = .error e := by
  show StateT.bind r f c = _
  rw [StateT.bind, h]
  rfl

end Reader

/-- Every proper beginning of the text has too few bytes for the reader. -/
def Starves (r : Reader α) (t : Text) : Prop :=
  ∀ u, u <+: t → u ≠ t → ∀ offset, ∃ e, r ⟨u, offset⟩ = .error e ∧ WantsBytes e

theorem Starves.bind {r : Reader α} {f : α → Reader β} {t u : Text} {x : α} (ht : Starves r t)
    (hx : Reads r t x) (hu : Starves (f x) u) : Starves (r >>= f) (t ++ u) := by
  intro v hv hne offset
  by_cases hfirst : v <+: t ∧ v ≠ t
  · obtain ⟨e, he, hwants⟩ := ht v hfirst.1 hfirst.2 offset
    exact ⟨e, Reader.bind_of_error f he, hwants⟩
  · have hle : t <+: v := by
      rcases List.prefix_or_prefix_of_prefix hv (List.prefix_append t u) with hvt | htv
      · have heq : v = t := Decidable.byContradiction fun h => hfirst ⟨hvt, h⟩
        exact heq ▸ List.prefix_refl v
      · exact htv
    obtain ⟨w, rfl⟩ := hle
    have hw : w <+: u := (List.prefix_append_right_inj t).1 hv
    have hwne : w ≠ u := fun h => hne (by rw [h])
    rw [Reader.bind_of_ok f (hx w offset)]
    exact hu w hw hwne _

/-- A reader that needs the bytes it takes, and no others. -/
def Exacting (r : Reader α) : Prop :=
  ∀ c x c', r c = .ok (x, c') → ∃ t, c.rest = t ++ c'.rest ∧ Reads r t x ∧ Starves r t

theorem exacting_pure (x : α) : Exacting (pure x : Reader α) := by
  intro c y c' h
  obtain ⟨rfl, rfl⟩ := Reader.pure_eq_ok.1 h
  refine ⟨[], rfl, reads_pure y, ?_⟩
  intro u hu hne
  exact absurd (List.prefix_nil.1 hu) hne

theorem exacting_fail (e : LoadError) : Exacting (Reader.fail e : Reader α) := nofun

theorem Exacting.bind {r : Reader α} {f : α → Reader β} (hr : Exacting r)
    (hf : ∀ x, Exacting (f x)) : Exacting (r >>= f) := by
  intro c y c₂ h
  obtain ⟨x, c₁, hx, hy⟩ := Reader.bind_eq_ok.1 h
  obtain ⟨t, ht, hreads, hstarves⟩ := hr c x c₁ hx
  obtain ⟨u, hu, hreads', hstarves'⟩ := hf x c₁ y c₂ hy
  refine ⟨t ++ u, ?_, hreads.bind hreads', hstarves.bind hreads hstarves'⟩
  rw [ht, hu, List.append_assoc]

theorem Exacting.map {r : Reader α} (hr : Exacting r) (g : α → β) :
    Exacting (do return g (← r)) := hr.bind fun x => exacting_pure (g x)

theorem Exacting.ite {c : Prop} [Decidable c] {r s : Reader α} (hr : Exacting r)
    (hs : Exacting s) : Exacting (if c then r else s) := by
  split
  · exact hr
  · exact hs

theorem exacting_bytes (n : Nat) : Exacting (Reader.bytes n) := by
  intro c t c' h
  obtain ⟨hlength, _, ⟨⟩, hrest⟩ := (format_bytes n).took h
  refine ⟨t, hrest, (format_bytes n).reads hlength rfl, ?_⟩
  intro u hu hne offset
  have hlt : u.length < n := by
    have hle := hu.length_le
    have hcut : u.length ≠ t.length := fun h => hne (hu.eq_of_length h)
    omega
  refine ⟨.truncated offset, ?_, trivial⟩
  simp only [Reader.bytes, List.length_take]
  rw [if_pos (by omega)]

theorem exacting_byte : Exacting Reader.byte := (exacting_bytes 1).map _

theorem exacting_word : Exacting Reader.word := (exacting_bytes 4).map _

theorem exacting_signedWord : Exacting Reader.signedWord := exacting_word.map _

theorem exacting_number : Exacting Reader.number := (exacting_bytes 8).map _

theorem exacting_string : Exacting Reader.string := exacting_word.bind exacting_bytes

theorem exacting_repeated {item : Nat → Reader α} (hitem : ∀ i, Exacting (item i))
    (index n : Nat) : Exacting (Reader.repeated item index n) := by
  induction n generalizing index with
  | zero => exact exacting_pure []
  | succ n ih => exact (hitem index).bind fun x => (ih (index + 1)).map (x :: ·)

theorem table_eq_bind (least : Nat) (what : Text) (item : Nat → Reader α) :
    Reader.table least what item = Reader.word >>= fun n =>
      get >>= fun c => if n * least > c.rest.length then Reader.fail (.count what n)
        else Reader.repeated item 0 n := by
  simp only [Reader.table, Reader.count, bind_assoc]
  congr
  funext n
  congr
  funext c
  split
  · rfl
  · rw [pure_bind]

/-- The number of elements is compared with bytes that are not taken yet. In a cut table it may be
refused before any element is read. -/
theorem exacting_table {valid : List α → Prop} {write : List α → Written} {least : Nat}
    {what : Text} {item : Nat → Reader α}
    (hformat : Format valid write (Reader.table least what item))
    (hitem : ∀ i, Exacting (item i)) : Exacting (Reader.table least what item) := by
  intro c xs c' h
  obtain ⟨hvalid, t, ht, hrest⟩ := hformat.took h
  refine ⟨t, hrest, hformat.reads hvalid ht, ?_⟩
  rw [table_eq_bind] at h ⊢
  obtain ⟨n, c₁, hn, h⟩ := Reader.bind_eq_ok.1 h
  obtain ⟨_, _, ⟨⟩, h⟩ := Reader.bind_eq_ok.1 h
  split at h
  · cases h
  · obtain ⟨head, hhead, hreads, hstarves⟩ := exacting_word c n c₁ hn
    obtain ⟨body, hbody, -, hshort⟩ := exacting_repeated hitem 0 n c₁ xs c' h
    have hsplit : t = head ++ body := by
      rw [hhead, hbody, ← List.append_assoc] at hrest
      exact (List.append_cancel_right hrest).symm
    rw [hsplit]
    apply hstarves.bind hreads
    intro u hu hne offset
    have hget : (get : Reader Cursor) ⟨u, offset⟩ = .ok (⟨u, offset⟩, ⟨u, offset⟩) := rfl
    rw [Reader.bind_of_ok _ hget]
    split
    · exact ⟨.count what n, rfl, trivial⟩
    · exact hshort u hu hne offset

theorem exacting_constant : Exacting Reader.constant := by
  apply exacting_byte.bind
  intro tag
  apply (exacting_number.map _).ite
  apply (exacting_string.map _).ite
  apply Exacting.ite
  · apply exacting_byte.bind
    intro flag
    exact (exacting_fail _).ite (exacting_pure _)
  · exact (exacting_pure _).ite (exacting_fail _)

theorem exacting_function : Exacting Reader.function := by
  apply exacting_string.bind
  intro name
  refine exacting_word.bind fun _ => exacting_word.bind fun _ => exacting_word.bind fun arity =>
    exacting_word.bind fun _ => ?_
  apply (exacting_fail _).ite
  exact (exacting_repeated (fun _ => exacting_signedWord) 0 arity).map _

theorem exacting_clause : Exacting Reader.clause := by
  refine exacting_signedWord.bind fun _ => exacting_word.bind fun handler => ?_
  exact (exacting_fail _).ite (exacting_pure _)

theorem exacting_tryTable : Exacting Reader.tryTable := by
  apply exacting_signedWord.bind
  intro cleanup
  have hformat := format_table (fun _ => format_clause) length_clause "catch clauses" "catch clause"
  exact (exacting_table hformat fun _ => exacting_clause).map _

theorem exacting_instruction (index : Nat) : Exacting (Reader.instruction index) := by
  have hoperand (present : Bool) : Exacting (Reader.operand present) :=
    exacting_signedWord.ite (exacting_pure 0)
  apply exacting_byte.bind
  intro code
  cases Opcode.ofCode? code with
  | none => exact exacting_fail _
  | some op =>
    refine (hoperand _).bind fun a => (hoperand _).bind fun b => ?_
    exact (exacting_pure _).ite (exacting_fail _)

theorem exacting_debugInfo : Exacting Reader.debugInfo := by
  apply exacting_byte.bind
  intro flag
  apply (exacting_fail _).ite
  apply (exacting_pure none).ite
  have hlines := exacting_table format_lines fun _ => exacting_word.map _
  have hnames := exacting_table
    (format_tableOfAny (fun _ => format_string) length_string "local names" "local name")
    fun _ => exacting_string
  have hlocals := exacting_table format_locals fun _ => hnames.map _
  exact exacting_string.bind fun _ => hlines.bind fun _ => hlocals.map _

theorem exacting_program : Exacting Reader.program := by
  apply (exacting_bytes 4).bind
  intro start
  apply (exacting_fail _).ite
  apply exacting_word.bind
  intro version
  apply (exacting_fail _).ite
  refine (exacting_table format_constants fun _ => exacting_constant).bind fun _ => ?_
  refine (exacting_table format_globals fun _ => exacting_string).bind fun _ => ?_
  refine (exacting_table format_functions fun _ => exacting_function).bind fun _ => ?_
  refine (exacting_table format_tries fun _ => exacting_tryTable).bind fun _ => ?_
  refine (exacting_table format_code exacting_instruction).bind fun _ => ?_
  exact exacting_debugInfo.map _

theorem program_of_read {image : Text} {p : Program} (h : read image = .ok p) :
    4 ≤ image.length ∧ Starves Reader.program image ∧ ∃ q, Reads Reader.program image q := by
  obtain ⟨q, hplain, hwrite, -⟩ := read_eq_ok.1 h
  have hreads := format_program.reads hplain hwrite
  have hlong : 4 ≤ image.length := by
    have hparse := parse_eq_ok.2 ⟨hplain, hwrite⟩
    unfold parse at hparse
    split at hparse
    · cases hparse
    · omega
  have hwhole := hreads [] 0
  obtain ⟨t, ht, -, hstarves⟩ := exacting_program _ _ _ hwhole
  simp only [List.append_nil] at ht
  exact ⟨hlong, ht ▸ hstarves, q, hreads⟩

theorem read_of_parse_error {image : Text} {e : LoadError} (h : parse image = .error e) :
    read image = .error e := by
  rw [read, h]
  rfl

/-- An image that loads cannot be cut or extended: a beginning of it lacks bytes, or even the
header, and bytes behind it are counted and refused. -/
theorem read_exact {image : Text} {p : Program} (h : read image = .ok p) :
    (∀ u, u <+: image → u ≠ image → 4 ≤ u.length →
      ∃ e, read u = .error e ∧ ("Truncated bytecode" : Text) <+: e.message) ∧
    (∀ u, u <+: image → u.length < 4 →
      ∃ e, read u = .error e ∧ e.message = "Invalid bytecode header") ∧
    (∀ more, 1 ≤ more.length → ∃ e, read (image ++ more) = .error e ∧
      e.message = ("Trailing bytes after bytecode: " : Text) ++ Text.decimal more.length) ∧
    ∀ other q, read other = .ok q → other <+: image → other = image := by
  obtain ⟨hlong, hstarves, q, hreads⟩ := program_of_read h
  have hcut (u : Text) (hu : u <+: image) (hne : u ≠ image) (hlength : 4 ≤ u.length) :
      ∃ e, read u = .error e ∧ WantsBytes e := by
    obtain ⟨e, he, hwants⟩ := hstarves u hu hne 0
    refine ⟨e, read_of_parse_error ?_, hwants⟩
    rw [parse, if_neg (by omega), he]
  refine ⟨?_, ?_, ?_, ?_⟩
  · intro u hu hne hlength
    obtain ⟨e, he, hwants⟩ := hcut u hu hne hlength
    exact ⟨e, he, message_of_wantsBytes hwants⟩
  · intro u _ hshort
    refine ⟨.header, read_of_parse_error ?_, by decide⟩
    rw [parse, if_pos hshort]
  · intro more hmore
    refine ⟨.trailing more.length, read_of_parse_error ?_, ?_⟩
    · have hnonempty : more.isEmpty = false := by
        cases more with
        | nil => simp at hmore
        | cons b more => rfl
      rw [parse, if_neg (by simp only [List.length_append]; omega), hreads more 0]
      simp [hnonempty]
    · have hdecimal : (Text.decimal more.length).untilZero = Text.decimal more.length := by
        have := Text.untilZero_append (Text.zero_not_mem_decimal more.length) []
        simpa [Text.untilZero] using this
      simp only [LoadError.message, LoadError.wording, Text.concat, List.flatten_cons,
        List.flatten_nil, List.append_nil]
      rw [Text.untilZero_append (by decide), hdecimal]
  · intro other r hother hprefix
    -- a true beginning of the image would lack bytes
    apply Decidable.byContradiction
    intro hne
    obtain ⟨e, he, -⟩ := hcut other hprefix hne (program_of_read hother).1
    rw [hother] at he
    cases he

/-- Cuts of an image inside its code and behind its first table, its bare start, and one byte
more. -/
theorem read_exact_strayTables : (read strayTables).isOk ∧
    (∃ e, read (strayTables.take 60) = .error e ∧ ("Truncated bytecode" : Text) <+: e.message) ∧
    (∃ e, read (strayTables.take 12) = .error e ∧ ("Truncated bytecode" : Text) <+: e.message) ∧
    (∃ e, read (strayTables.take 3) = .error e ∧ e.message = "Invalid bytecode header") ∧
    ∃ e, read (strayTables ++ [0]) = .error e ∧ e.message = "Trailing bytes after bytecode: 1" := by
  have hloads : (read strayTables).isOk := by decide +kernel
  cases hread : read strayTables with
  | error e => simp [hread, Except.isOk, Except.toBool] at hloads
  | ok p =>
    obtain ⟨hcut, hstart, hmore, -⟩ := read_exact hread
    refine ⟨rfl, hcut _ (List.take_prefix _ _) (by decide) (by decide),
      hcut _ (List.take_prefix _ _) (by decide) (by decide),
      hstart _ (List.take_prefix _ _) (by decide), ?_⟩
    exact hmore [0] (by decide)

end Image
end ScriptMachine
