import Mathlib.Data.List.TakeWhile
import ScriptMachine.Proofs.Number.Significant

namespace ScriptMachine
namespace Text

def isDigit (b : UInt8) : Bool := 0x30 ≤ b && b ≤ 0x39

def digitsValue (t : Text) : Nat := t.foldl (fun n b => 10 * n + (b.toNat - 0x30)) 0

def natural? (t : Text) : Option Nat :=
  if t ≠ [] ∧ t.all isDigit then some (digitsValue t) else none

/-- Digits, or digits on both sides of a point. -/
def positional? (t : Text) : Option ℚ :=
  let whole := t.takeWhile (· ≠ 0x2e)
  match t.dropWhile (· ≠ 0x2e) with
  | [] => (natural? whole).map fun n : Nat => (n : ℚ)
  | _ :: places =>
    (natural? whole).bind fun w : Nat =>
      (natural? places).map fun n : Nat => (w + n / 10 ^ places.length : ℚ)

def power? : Text → Option Int
  | 0x2d :: t => (natural? t).map fun n : Nat => -(n : Int)
  | 0x2b :: t => (natural? t).map fun n : Nat => (n : Int)
  | t => (natural? t).map fun n : Nat => (n : Int)

/-- A positional text, or one with a power of ten after the letter e. -/
def unsigned? (t : Text) : Option ℚ :=
  let digits := t.takeWhile (· ≠ 0x65)
  match t.dropWhile (· ≠ 0x65) with
  | [] => positional? digits
  | _ :: power =>
    (positional? digits).bind fun v => (power? power).map fun k => v * 10 ^ k

/-- The exact value of a decimal text. -/
def value? : Text → Option ℚ
  | 0x2d :: t => (unsigned? t).map fun v => -v
  | t => unsigned? t

section digits

variable {s t : Text}

theorem foldl_digits (t : Text) (init : Nat) :
    t.foldl (fun n b => 10 * n + (b.toNat - 0x30)) init = init * 10 ^ t.length + digitsValue t := by
  induction t generalizing init with
  | nil => simp [digitsValue]
  | cons b t ih =>
    have hvalue : digitsValue (b :: t) = (10 * 0 + (b.toNat - 0x30)) * 10 ^ t.length +
        digitsValue t :=
      ih _
    rw [List.foldl_cons, ih, hvalue, List.length_cons]
    ring

theorem digitsValue_append (s t : Text) :
    digitsValue (s ++ t) = digitsValue s * 10 ^ t.length + digitsValue t := by
  rw [digitsValue, List.foldl_append, foldl_digits]
  rfl

@[simp] theorem digitsValue_zeros (n : Nat) : digitsValue (List.replicate n 0x30) = 0 := by
  induction n with
  | zero => rfl
  | succ n ih =>
    rw [List.replicate_succ', digitsValue_append, ih]
    rfl

theorem isDigit_digit {c : Char} (h : c.isDigit) :
    isDigit (digit c) ∧ (digit c).toNat - 0x30 = c.toNat - '0'.toNat := by
  simp only [Char.isDigit, Bool.and_eq_true, decide_eq_true_eq] at h
  have hlow : 48 ≤ c.toNat := h.1
  have hhigh : c.toNat ≤ 57 := h.2
  have hnat : (digit c).toNat = c.toNat := by
    simp only [digit, Nat.toUInt8, UInt8.toNat_ofNat']
    omega
  constructor
  · simp only [isDigit, Bool.and_eq_true, decide_eq_true_eq, UInt8.le_iff_toNat_le, hnat]
    exact ⟨hlow, hhigh⟩
  · rw [hnat]
    rfl

theorem digitsValue_map_digit {cs : List Char} (h : ∀ c ∈ cs, c.isDigit) (init : Nat) :
    (cs.map digit).foldl (fun n b => 10 * n + (b.toNat - 0x30)) init =
    Nat.ofDigitChars 10 cs init := by
  induction cs generalizing init with
  | nil => rfl
  | cons c cs ih =>
    rw [List.forall_mem_cons] at h
    rw [List.map_cons, List.foldl_cons, (isDigit_digit h.1).2, ih h.2, Nat.ofDigitChars_cons]

theorem all_isDigit_decimal (n : Nat) : (decimal n).all isDigit := by
  rw [decimal, List.all_map, List.all_eq_true]
  exact fun c hc =>
    (isDigit_digit (Nat.isDigit_of_mem_toDigits (by decide) (by decide) hc)).1

theorem digitsValue_decimal (n : Nat) : digitsValue (decimal n) = n := by
  have hdigits : ∀ c ∈ Nat.toDigits 10 n, c.isDigit := fun c hc =>
    Nat.isDigit_of_mem_toDigits (by decide) (by decide) hc
  rw [digitsValue, decimal, digitsValue_map_digit hdigits, Nat.ofDigitChars_ten_toDigits]

theorem natural?_of_digits (hne : t ≠ []) (h : t.all isDigit) : natural? t = some (digitsValue t) :=
  if_pos ⟨hne, h⟩

theorem all_isDigit_zeros (n : Nat) : (List.replicate n (0x30 : UInt8)).all isDigit := by
  rw [List.all_replicate]
  split <;> rfl

theorem natural?_padLeft (n : Nat) : natural? (padLeft 2 0x30 (decimal n)) = some n := by
  have hne : padLeft 2 0x30 (decimal n) ≠ [] :=
    List.append_ne_nil_of_right_ne_nil _ (List.ne_nil_of_length_pos (Decimal.length_decimal_pos n))
  rw [natural?_of_digits hne, padLeft, digitsValue_append, digitsValue_zeros, digitsValue_decimal,
    Nat.zero_mul, Nat.zero_add]
  rw [padLeft, List.all_append, all_isDigit_zeros, all_isDigit_decimal]
  rfl

theorem ne_of_isDigit {b : UInt8} (h : isDigit b) : b ≠ 0x2e ∧ b ≠ 0x65 ∧ b ≠ 0x2d := by
  refine ⟨?_, ?_, ?_⟩ <;> rintro rfl <;> cases h

theorem positional?_of_digits (hne : t ≠ []) (h : t.all isDigit) :
    positional? t = some (digitsValue t : ℚ) := by
  have hall : ∀ b ∈ t, decide (b ≠ 0x2e) = true := fun b hb =>
    decide_eq_true (ne_of_isDigit (List.all_eq_true.1 h b hb)).1
  unfold positional?
  dsimp only
  rw [List.takeWhile_eq_self_iff.2 hall, List.dropWhile_eq_nil_iff.2 hall,
    natural?_of_digits hne h]
  rfl

theorem positional?_of_point (hs : s ≠ []) (hs' : s.all isDigit) (ht : t ≠ [])
    (ht' : t.all isDigit) : positional? (s ++ 0x2e :: t) =
    some ((digitsValue (s ++ t) : ℚ) / 10 ^ t.length) := by
  have hall : ∀ b ∈ s, decide (b ≠ 0x2e) = true := fun b hb =>
    decide_eq_true (ne_of_isDigit (List.all_eq_true.1 hs' b hb)).1
  unfold positional?
  dsimp only
  rw [List.takeWhile_append_of_pos hall, List.dropWhile_append_of_pos hall,
    List.takeWhile_cons_of_neg (by decide), List.dropWhile_cons_of_neg (by decide), List.append_nil]
  dsimp only
  rw [natural?_of_digits hs hs', natural?_of_digits ht ht', digitsValue_append]
  rw [Option.bind_some, Option.map_some, Option.some.injEq]
  push_cast
  field_simp

end digits

theorem unsigned?_append {s t : Text} (hs : 0x65 ∉ s) :
    unsigned? s = positional? s ∧ unsigned? (s ++ 0x65 :: t) =
      (positional? s).bind fun v => (power? t).map fun k => v * 10 ^ k := by
  have hall : ∀ b ∈ s, decide (b ≠ 0x65) = true := fun b hb =>
    decide_eq_true (ne_of_mem_of_not_mem hb hs)
  unfold unsigned?
  dsimp only
  rw [List.takeWhile_append_of_pos hall, List.dropWhile_append_of_pos hall,
    List.takeWhile_cons_of_neg (by decide), List.dropWhile_cons_of_neg (by decide), List.append_nil,
    List.takeWhile_eq_self_iff.2 hall, List.dropWhile_eq_nil_iff.2 hall]
  exact ⟨rfl, rfl⟩

theorem value?_of_unsigned {t : Text} {v : ℚ} (h : unsigned? t = some v) : value? t = some v := by
  cases t with
  | nil => exact h
  | cons b t =>
    by_cases hb : b = 0x2d
    · subst hb
      have hnone : positional? (0x2d :: t.takeWhile (· ≠ 0x65)) = none := by
        unfold positional?
        dsimp only
        rw [List.takeWhile_cons_of_pos (by decide), List.dropWhile_cons_of_pos (by decide)]
        have hnatural (w : Text) : natural? (0x2d :: w) = none := if_neg (by simp [isDigit])
        rw [hnatural]
        split <;> rfl
      unfold unsigned? at h
      dsimp only at h
      rw [List.takeWhile_cons_of_pos (by decide), List.dropWhile_cons_of_pos (by decide),
        hnone] at h
      split at h <;> cases h
    · rw [← h]
      unfold value?
      split
      · next heq => exact absurd (List.cons.inj heq).1 hb
      · rfl

end Text

namespace Decimal

theorem dropTrailingZeros_append (t : Text) :
    ∃ n, t = dropTrailingZeros t ++ List.replicate n 0x30 := by
  have hzeros : ∀ b ∈ t.reverse.takeWhile (· = 0x30), b = 0x30 := by
    intro b hb
    simpa using List.mem_takeWhile_imp hb
  refine ⟨(t.reverse.takeWhile (· = 0x30)).length, ?_⟩
  have hsplit := congrArg List.reverse
    (List.takeWhile_append_dropWhile (p := (· = 0x30)) (l := t.reverse))
  rw [List.reverse_append, List.reverse_reverse, List.eq_replicate_of_mem hzeros,
    List.reverse_replicate] at hsplit
  exact hsplit.symm

theorem positional?_withPoint {whole : Nat} {t : Text} (hwhole : 0 < whole) (hne : t ≠ [])
    (h : t.all Text.isDigit) :
    Text.positional? (withPoint whole t) =
        some ((Text.digitsValue t : ℚ) * 10 ^ ((whole : Int) - t.length)) ∧
      0x65 ∉ withPoint whole t := by
  have hdigit {b : UInt8} (hb : b ∈ t) : b ≠ 0x65 :=
    (Text.ne_of_isDigit (List.all_eq_true.1 h b hb)).2.1
  unfold withPoint
  split
  · next hle =>
    constructor
    · -- the point would stand behind the digits, and zeros fill up the places to it
      have hall : (t ++ List.replicate (whole - t.length) 0x30).all Text.isDigit := by
        rw [List.all_append, h, Text.all_isDigit_zeros]
        rfl
      rw [Text.positional?_of_digits (List.append_ne_nil_of_left_ne_nil hne _) hall,
        Text.digitsValue_append, Text.digitsValue_zeros, List.length_replicate, ← Nat.cast_sub hle,
        zpow_natCast]
      push_cast
      rw [add_zero]
    · intro hmem
      rcases List.mem_append.1 hmem with hmem | hmem
      · exact hdigit hmem rfl
      · cases List.eq_of_mem_replicate hmem
  · next hlt =>
    have hpoint : Text.concat [".", t.drop whole] = 0x2e :: t.drop whole := by
      simp only [Text.concat, List.flatten_cons, List.flatten_nil, List.append_nil]
      rfl
    have htake : t.take whole ≠ [] := by
      rw [ne_eq, List.take_eq_nil_iff]
      exact not_or.2 ⟨hwhole.ne', hne⟩
    have hdrop : t.drop whole ≠ [] := by
      rw [ne_eq, List.drop_eq_nil_iff]
      exact hlt
    have hparts : (t.take whole).all Text.isDigit ∧ (t.drop whole).all Text.isDigit := by
      rw [← Bool.and_eq_true, ← List.all_append, List.take_append_drop]
      exact h
    rw [hpoint]
    constructor
    · rw [Text.positional?_of_point htake hparts.1 hdrop hparts.2, List.take_append_drop,
        List.length_drop, ← zpow_natCast, div_eq_mul_inv, ← zpow_neg,
        show -((t.length - whole : Nat) : Int) = whole - t.length by omega]
    · intro hmem
      rcases List.mem_append.1 hmem with hmem | hmem
      · exact hdigit (List.mem_of_mem_take hmem) rfl
      · rcases List.mem_cons.1 hmem with heq | hmem
        · cases heq
        · exact hdigit (List.mem_of_mem_drop hmem) rfl

theorem length_decimal_eq {precision n : Nat} (hp : 0 < precision) (hlow : 10 ^ (precision - 1) ≤ n)
    (hhigh : n < 10 ^ precision) : (Text.decimal n).length = precision := by
  obtain ⟨hlow', hhigh'⟩ := length_decimal_bounds (Nat.lt_of_lt_of_le (by positivity) hlow)
  have hpos := length_decimal_pos n
  have hlt := (Nat.pow_lt_pow_iff_right (by decide)).1 (Nat.lt_of_le_of_lt hlow hhigh')
  have hlt' := (Nat.pow_lt_pow_iff_right (by decide)).1 (Nat.lt_of_le_of_lt hlow' hhigh)
  omega

theorem unsigned?_withPoint {whole : Nat} {t : Text} (hwhole : 0 < whole) (hne : t ≠ [])
    (h : t.all Text.isDigit) :
    Text.unsigned? (withPoint whole t) =
      some ((Text.digitsValue t : ℚ) * 10 ^ ((whole : Int) - t.length)) := by
  obtain ⟨hposition, hnot⟩ := positional?_withPoint hwhole hne h
  rw [(Text.unsigned?_append (t := []) hnot).1, hposition]

theorem unsigned?_places (zeros : Nat) {t : Text} (hne : t ≠ []) (h : t.all Text.isDigit) :
    Text.unsigned? (Text.concat ["0.", List.replicate zeros 0x30, t]) =
      some ((Text.digitsValue t : ℚ) * 10 ^ (-(zeros + t.length : Int))) := by
  have htext : Text.concat ["0.", List.replicate zeros 0x30, t] =
      [0x30] ++ 0x2e :: (List.replicate zeros 0x30 ++ t) := by
    simp only [Text.concat, List.flatten_cons, List.flatten_nil, List.append_nil]
    rfl
  have hall : (List.replicate zeros 0x30 ++ t).all Text.isDigit := by
    rw [List.all_append, Text.all_isDigit_zeros, h]
    rfl
  have hnot : (0x65 : UInt8) ∉ [0x30] ++ 0x2e :: (List.replicate zeros 0x30 ++ t) := by
    intro hmem
    rcases List.mem_cons.1 hmem with heq | hmem
    · cases heq
    · rcases List.mem_cons.1 hmem with heq | hmem
      · cases heq
      · exact (Text.ne_of_isDigit (List.all_eq_true.1 hall _ hmem)).2.1 rfl
  rw [htext, (Text.unsigned?_append (t := []) hnot).1, Text.positional?_of_point (by simp) rfl
    (List.append_ne_nil_of_right_ne_nil _ hne) hall, Option.some.injEq, ← List.append_assoc,
    Text.digitsValue_append, List.singleton_append, ← List.replicate_succ, Text.digitsValue_zeros,
    Nat.zero_mul, Nat.zero_add, ← zpow_natCast, div_eq_mul_inv, ← zpow_neg, List.length_append,
    List.length_replicate]
  push_cast
  rfl

theorem power?_signed (k : Int) :
    Text.power? ((if k < 0 then [0x2d] else [0x2b]) ++
      Text.padLeft 2 0x30 (Text.decimal k.natAbs)) = some k := by
  split
  · rw [List.singleton_append, Text.power?, Text.natural?_padLeft, Option.map_some,
      Option.some.injEq]
    omega
  · rw [List.singleton_append, Text.power?, Text.natural?_padLeft, Option.map_some,
      Option.some.injEq]
    omega

theorem unsigned?_withPower (k : Int) {t : Text} (hne : t ≠ []) (h : t.all Text.isDigit) :
    Text.unsigned? (Text.concat [withPoint 1 t, if k < 0 then "e-" else "e+",
        Text.padLeft 2 0x30 (Text.decimal k.natAbs)]) =
      some ((Text.digitsValue t : ℚ) * 10 ^ (1 - t.length + k : Int)) := by
  obtain ⟨hposition, hnot⟩ := positional?_withPoint Nat.one_pos hne h
  have htext (sign : Text) (power : Text) : Text.concat [withPoint 1 t, 0x65 :: sign, power] =
      withPoint 1 t ++ 0x65 :: (sign ++ power) := by
    simp [Text.concat]
  have hmark : (if k < 0 then ("e-" : Text) else "e+") =
      0x65 :: (if k < 0 then [0x2d] else [0x2b]) := by
    split <;> rfl
  rw [hmark, htext, (Text.unsigned?_append hnot).2, hposition, power?_signed, Option.bind_some,
    Option.map_some, Option.some.injEq, mul_assoc, ← zpow_add₀ (by norm_num), Nat.cast_one]

theorem unsigned?_layout {precision : Nat} {d : Decimal} (hp : 0 < precision)
    (hlow : 10 ^ (precision - 1) ≤ d.digits) (hhigh : d.digits < 10 ^ precision) :
    Text.unsigned? (layout precision d) = some d.value := by
  have hpositive : 0 < d.digits := Nat.lt_of_lt_of_le (by positivity) hlow
  obtain ⟨n, hzeros⟩ := dropTrailingZeros_append (Text.decimal d.digits)
  have hall := Text.all_isDigit_decimal d.digits
  have hvalue := Text.digitsValue_decimal d.digits
  rw [hzeros, List.all_append, Bool.and_eq_true] at hall
  rw [hzeros, Text.digitsValue_append, Text.digitsValue_zeros, List.length_replicate] at hvalue
  have hcount := congrArg List.length hzeros
  rw [length_decimal_eq hp hlow hhigh, List.length_append, List.length_replicate] at hcount
  unfold layout
  dsimp only
  generalize dropTrailingZeros (Text.decimal d.digits) = t at hall hvalue hcount
  have hne : t ≠ [] := by
    rintro rfl
    simp [Text.digitsValue] at hvalue
    omega
  have hmoved (e : Int) (he : e = d.exponent + n) :
      some ((Text.digitsValue t : ℚ) * 10 ^ e) = some d.value := by
    have hcast : (d.digits : ℚ) = Text.digitsValue t * 10 ^ n := by exact_mod_cast hvalue.symm
    rw [value, hcast, he, add_comm, zpow_add₀ (by norm_num), zpow_natCast, mul_assoc]
  split
  · rw [unsigned?_withPower _ hne hall.1]
    exact hmoved _ (by omega)
  · split
    · rw [unsigned?_places _ hne hall.1]
      exact hmoved _ (by omega)
    · rw [unsigned?_withPoint (Nat.succ_pos _) hne hall.1]
      exact hmoved _ (by omega)

end Decimal

namespace Number

theorem value?_integer (i : Int) : Text.value? (Text.integer i) = some (i : ℚ) := by
  have hne (n : Nat) : Text.decimal n ≠ [] :=
    List.ne_nil_of_length_pos (Decimal.length_decimal_pos n)
  have hunsigned (n : Nat) : Text.unsigned? (Text.decimal n) = some (n : ℚ) := by
    have hnot : 0x65 ∉ Text.decimal n := fun hmem =>
      (Text.ne_of_isDigit (List.all_eq_true.1 (Text.all_isDigit_decimal n) _ hmem)).2.1 rfl
    rw [(Text.unsigned?_append (t := []) hnot).1,
      Text.positional?_of_digits (hne n) (Text.all_isDigit_decimal n), Text.digitsValue_decimal]
  unfold Text.integer
  split
  · next hi =>
    rw [Text.value?, hunsigned, Option.map_some, Option.some.injEq]
    obtain ⟨n, hn⟩ := Int.eq_ofNat_of_zero_le (show 0 ≤ -i by omega)
    obtain rfl : i = -(n : Int) := by omega
    simp
  · next hi =>
    obtain ⟨n, rfl⟩ := Int.eq_ofNat_of_zero_le (Int.not_lt.1 hi)
    exact Text.value?_of_unsigned (hunsigned n)

theorem value?_scientific {x : Number} (hzero : x.value ≠ 0) :
    Text.value? x.scientific = some ((if x.negative then -1 else 1) * x.written.value) := by
  obtain ⟨hp, hlow, hhigh⟩ := written_bounds hzero
  have hlayout := Decimal.unsigned?_layout hp hlow hhigh
  unfold scientific
  dsimp only
  change Text.value? (if x.negative then 0x2d :: Decimal.layout x.significantDigits x.written
    else Decimal.layout x.significantDigits x.written) = _
  split
  · rw [Text.value?, hlayout, Option.map_some, neg_one_mul]
  · rw [one_mul]
    exact Text.value?_of_unsigned hlayout

theorem isInfinite_of_isFinite {x : Number} (hx : x.isFinite) : x.isInfinite = false := by
  simp only [isFinite, isInfinite, decide_eq_true_eq, beq_eq_false_iff_ne] at hx ⊢
  omega

theorem format_of_isFinite {x : Number} (hx : x.isFinite) :
    x.format = match x.toInt? with
      | some i => if i.natAbs < 10 ^ 15 then Text.integer i else x.scientific
      | none => x.scientific := by
  rw [format, isNaN_of_isFinite hx, isInfinite_of_isFinite hx, if_neg (by decide)]
  exact if_neg (by decide)

/-- The text of a finite number has a value to which the number is nearest. -/
theorem nearest_format {x : Number} (hx : x.isFinite) :
    ∃ q, Text.value? x.format = some q ∧ Nearest q x := by
  have hself : Nearest x.value x := nearest_of_close (isNaN_of_isFinite hx) fun y hne => by
    rw [sub_self, abs_zero, mul_zero]
    exact abs_pos.2 (sub_ne_zero.2 hne)
  have hscientific (hzero : x.value ≠ 0) : ∃ q, Text.value? x.scientific = some q ∧ Nearest q x :=
    ⟨_, value?_scientific hzero, nearest_written hx hzero⟩
  rw [format_of_isFinite hx]
  split
  · next i hint =>
    have hvalue := (toInt?_eq_some_iff.1 hint).2
    split
    · exact ⟨i, value?_integer i, hvalue ▸ hself⟩
    · next hlarge =>
      apply hscientific
      rw [hvalue]
      intro hzero
      apply hlarge
      rw [Int.cast_eq_zero.1 hzero]
      decide
  · next hint =>
    apply hscientific
    intro hzero
    have hsome := toInt?_eq_some_iff.2 ⟨hx, hzero.trans Int.cast_zero.symm⟩
    rw [hint] at hsome
    cases hsome

theorem format_of_value_eq_zero {x : Number} (hx : x.isFinite) (hzero : x.value = 0) :
    x.format = "0" := by
  have hint := toInt?_eq_some_iff.2 ⟨hx, hzero.trans Int.cast_zero.symm⟩
  rw [format_of_isFinite hx, hint]
  rfl

theorem eq_of_value_eq {x y : Number} (h : x.value = y.value) (hzero : x.value ≠ 0) : x = y := by
  have hrank := value_eq_iff.1 h
  have hne : x.rank ≠ 0 := by
    intro heq
    apply hzero
    rw [value_eq_point, heq, point, if_neg (by decide)]
    exact gridSize_zero
  have hmagnitude : x.magnitude = y.magnitude := by rw [← natAbs_rank, ← natAbs_rank, hrank]
  have hsign : x.negative = y.negative := by
    unfold rank at hrank hne
    cases hx : x.negative <;> cases hy : y.negative <;> simp only [hx, hy] at hrank hne ⊢ <;>
      simp only [if_true, Bool.false_eq_true, if_false] at hrank hne <;> omega
  obtain ⟨a⟩ := x
  obtain ⟨b⟩ := y
  rw [magnitude_eq_mod, magnitude_eq_mod] at hmagnitude
  rw [Bool.eq_iff_iff, negative_iff, negative_iff] at hsign
  have ha := a.toNat_lt
  have hb := b.toNat_lt
  congr 1
  apply UInt64.toNat_inj.1
  dsimp only at hmagnitude hsign
  omega

theorem format_congr {x y : Number} (hx : x.isFinite) (hy : y.isFinite) (h : x.value = y.value) :
    x.format = y.format := by
  by_cases hzero : x.value = 0
  · rw [format_of_value_eq_zero hx hzero, format_of_value_eq_zero hy (h ▸ hzero)]
  · rw [eq_of_value_eq h hzero]

theorem value?_format_eq_none {x : Number} (hx : x.isFinite = false) :
    Text.value? x.format = none := by
  unfold format
  split
  · rfl
  · next hnan =>
    have hinfinite : x.isInfinite = true := by
      simp only [isFinite, isNaN, isInfinite, decide_eq_true_eq, decide_eq_false_iff_not,
        beq_iff_eq] at hx hnan ⊢
      omega
    rw [if_pos hinfinite]
    split <;> rfl

/-- The text of a finite number is a decimal whose value, rounded to the nearest number, gives the
number back, as zero where it is one. Finite numbers have the same text if and only if they are
equal, and none has the text of a NaN or an infinity. -/
theorem format_reads_back {x : Number} (hx : x.isFinite) :
    (∃ q, Text.value? x.format = some q ∧ ∀ y : Number, Nearest q y ↔ y.equal x) ∧
      (x.isZero → x.format = "0") ∧
      (∀ y : Number, y.isFinite → (x.format = y.format ↔ x.equal y)) ∧
      ∀ y : Number, y.isFinite = false → x.format ≠ y.format := by
  obtain ⟨q, hvalue, hnearest⟩ := nearest_format hx
  refine ⟨⟨q, hvalue, fun y => hnearest.iff_equal⟩, fun hzero => ?_, fun y hy => ?_,
    fun y hy h => ?_⟩
  · have hrank : x.rank = 0 := by rwa [← Int.natAbs_eq_zero, natAbs_rank, ← beq_iff_eq]
    apply format_of_value_eq_zero hx
    rw [value_eq_point, hrank, point, if_neg (by decide)]
    exact gridSize_zero
  · constructor
    · intro h
      obtain ⟨q', hvalue', hnearest'⟩ := nearest_format hy
      rw [← h, hvalue] at hvalue'
      cases hvalue'
      exact hnearest'.iff_equal.1 hnearest
    · exact fun h => format_congr hx hy (equal_iff.1 h).2.2
  · rw [h, value?_format_eq_none hy] at hvalue
    cases hvalue

/-- The largest number is out of reach of fifteen digits, which would stand for an infinity; with
seventeen it comes back. -/
theorem format_reads_back_largest :
    (Number.mk 0x7fefffffffffffff).isFinite ∧
      (Number.mk 0x7fefffffffffffff).format = "1.7976931348623157e+308" ∧
      ∃ q, Text.value? "1.7976931348623157e+308" = some q ∧
        ∀ y : Number, Nearest q y ↔ y.equal ⟨0x7fefffffffffffff⟩ := by
  have hfinite : (Number.mk 0x7fefffffffffffff).isFinite := by decide
  have hformat : (Number.mk 0x7fefffffffffffff).format = "1.7976931348623157e+308" := by
    decide +kernel
  exact ⟨hfinite, hformat, hformat ▸ (format_reads_back hfinite).1⟩

end Number
end ScriptMachine
