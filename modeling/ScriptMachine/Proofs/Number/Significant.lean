import Mathlib.Tactic.NormNum
import ScriptMachine.Proofs.Number.Nearest

namespace ScriptMachine
namespace Decimal

def value (d : Decimal) : ℚ := d.digits * 10 ^ d.exponent

theorem length_decimal (n : Nat) : (Text.decimal n).length = (Nat.toDigits 10 n).length :=
  List.length_map ..

theorem length_decimal_pos (n : Nat) : 0 < (Text.decimal n).length := by
  rw [length_decimal]
  exact Nat.length_toDigits_pos

theorem length_decimal_bounds {n : Nat} (hn : 0 < n) :
    10 ^ ((Text.decimal n).length - 1) ≤ n ∧ n < 10 ^ ((Text.decimal n).length - 1 + 1) := by
  have hpos : 0 < (Nat.toDigits 10 n).length := Nat.length_toDigits_pos
  rw [length_decimal, Nat.sub_add_cancel hpos]
  refine ⟨?_, (Nat.length_toDigits_le_iff (by decide) hpos).1 (Nat.le_refl _)⟩
  rcases Nat.eq_zero_or_pos ((Nat.toDigits 10 n).length - 1) with hone | hmore
  · rw [hone]
    exact hn
  · have hlt := mt (Nat.length_toDigits_le_iff (n := n) (b := 10) (by decide) hmore).2
    exact Nat.le_of_not_lt (hlt (by omega))

theorem leadingPower_bounds {num den : Nat} (hnum : 0 < num) (hden : 0 < den) :
    (10 : ℚ) ^ leadingPower num den ≤ num / den ∧
      (num : ℚ) / den < 10 ^ (leadingPower num den + 1) := by
  obtain ⟨hnum', hnum''⟩ := length_decimal_bounds hnum
  obtain ⟨hden', hden''⟩ := length_decimal_bounds hden
  have hlengths :
      (((Text.decimal num).length - 1 : Nat) : Int) - ((Text.decimal den).length - 1 : Nat) =
        ((Text.decimal num).length : Int) - (Text.decimal den).length := by
    have hnumpos := length_decimal_pos num
    have hdenpos := length_decimal_pos den
    omega
  have hbounds := leading_bounds (by decide) hnum' hnum'' hden' hden'' rfl
  rw [hlengths] at hbounds
  simpa only [leadingPower, Nat.cast_ofNat] using hbounds

theorem scaleFraction_bounds {precision num den : Nat} (hp : 0 < precision) (hnum : 0 < num)
    (hden : 0 < den) {e : Int} (he : e = leadingPower num den - precision + 1)
    {scaled : Nat × Nat} (hscaled : scaleFraction 10 (-e) num den = scaled) :
    0 < scaled.2 ∧ (num : ℚ) / den = scaled.1 / scaled.2 * 10 ^ e ∧
      ((10 ^ (precision - 1) : Nat) : ℚ) ≤ scaled.1 / scaled.2 ∧
      (scaled.1 : ℚ) / scaled.2 < (10 ^ precision : Nat) := by
  obtain ⟨hlow, hhigh⟩ := leadingPower_bounds hnum hden
  have hunit : (0 : ℚ) < 10 ^ e := by positivity
  have hpos := scaleFraction_den_pos (by decide : 0 < 10) (-e) num hden
  have hratio := ratio_scaleFraction (by decide : 0 < 10) (-e) num den
  rw [hscaled] at hpos hratio
  rw [Nat.cast_ofNat, zpow_neg, ← div_eq_mul_inv] at hratio
  refine ⟨hpos, by rw [hratio, div_mul_cancel₀ _ hunit.ne'], ?_, ?_⟩
  · rw [hratio, le_div_iff₀ hunit, Nat.cast_pow, Nat.cast_ofNat, ← zpow_natCast,
      ← zpow_add₀ (by norm_num)]
    refine le_trans (le_of_eq ?_) hlow
    congr 1
    omega
  · rw [hratio, div_lt_iff₀ hunit, Nat.cast_pow, Nat.cast_ofNat, ← zpow_natCast,
      ← zpow_add₀ (by norm_num)]
    refine lt_of_lt_of_le hhigh (le_of_eq ?_)
    congr 1
    omega

/-- Rounding to a number of digits gives that many digits, and misses the value by no more than half
a unit of the last one. -/
theorem ofQuotient_bounds {precision num den : Nat} (hp : 0 < precision) (hnum : 0 < num)
    (hden : 0 < den) :
    10 ^ (precision - 1) ≤ (ofQuotient precision num den).digits ∧
      (ofQuotient precision num den).digits < 10 ^ precision ∧
      |(ofQuotient precision num den).value - num / den| ≤
        1 / 2 * 10 ^ (leadingPower num den - precision + 1) := by
  unfold ofQuotient
  dsimp only
  generalize he : leadingPower num den - precision + 1 = e
  generalize hscaled : scaleFraction 10 (-e) num den = scaled
  obtain ⟨hpos, hvalue, hge, hlt⟩ := scaleFraction_bounds hp hnum hden he.symm hscaled
  obtain ⟨hlow, hhigh⟩ := roundQuotient_between hpos hge hlt
  have hunit : (0 : ℚ) < 10 ^ e := by positivity
  have hnear : |(roundQuotient scaled.1 scaled.2 : ℚ) * 10 ^ e - num / den| ≤ 1 / 2 * 10 ^ e := by
    rw [hvalue, ← sub_mul, abs_mul, abs_of_pos hunit]
    exact mul_le_mul_of_nonneg_right (abs_roundQuotient_sub_le scaled.1 hpos) hunit.le
  generalize roundQuotient scaled.1 scaled.2 = r at hlow hhigh hnear ⊢
  split
  · next hfull =>
    have hpow : (10 : Nat) ^ precision = 10 ^ (precision - 1) * 10 := by
      rw [← Nat.pow_succ, Nat.succ_eq_add_one, Nat.sub_add_cancel hp]
    have hsame : value ⟨10 ^ (precision - 1), e + 1⟩ = r * 10 ^ e := by
      rw [hfull, hpow, value, zpow_add₀ (by norm_num) _ 1, zpow_one]
      push_cast
      ring
    rw [hsame]
    exact ⟨Nat.le_refl _, Nat.pow_lt_pow_right (by decide) (by omega), hnear⟩
  · next hfull =>
    exact ⟨hlow, by dsimp only; omega, hnear⟩

theorem nearest_toNumber (negative : Bool) (d : Decimal) :
    Number.Nearest ((if negative then -1 else 1) * d.value) (d.toNumber negative) := by
  have hratio := ratio_scaleFraction (by decide : 0 < 10) d.exponent d.digits 1
  have hpos := scaleFraction_den_pos (by decide : 0 < 10) d.exponent d.digits Nat.one_pos
  rw [Nat.cast_one, div_one, Nat.cast_ofNat] at hratio
  have hnearest := Number.nearest_ofQuotient negative
    (scaleFraction 10 d.exponent d.digits 1).1 hpos
  rw [hratio] at hnearest
  exact hnearest

end Decimal

namespace Number

theorem gridSize_succ_le (m : Nat) :
    gridSize (m + 1) ≤ 2 ^ 53 * (gridSize (m + 1) - gridSize m) := by
  obtain ⟨k, r, hm, hr, hk⟩ := exists_mantissa m
  rw [hm, Nat.add_assoc, gridSize_eq hr.le hk, gridSize_eq (by omega) (by omega)]
  have hstep : ((r + 1 : Nat) : ℚ) * 2 ^ ((k : Int) - 1074) - r * 2 ^ ((k : Int) - 1074) =
      2 ^ ((k : Int) - 1074) := by
    push_cast
    ring
  rw [hstep]
  have hle : ((r + 1 : Nat) : ℚ) ≤ 2 ^ 53 := by exact_mod_cast hr
  exact mul_le_mul_of_nonneg_right hle (by positivity)

theorem abs_value_le {x y : Number} (h : y.value ≠ x.value) :
    |x.value| ≤ 2 ^ 53 * |y.value - x.value| := by
  suffices hplaces : ∀ (m : Nat) (rank : Int), rank ≠ m →
      gridSize m ≤ 2 ^ 53 * |point rank - gridSize m| by
    have hne : y.rank ≠ x.rank := fun heq => h (value_eq_iff.2 heq)
    have hnonneg (m : Nat) : 0 ≤ gridSize m := by
      simpa using gridSize_strictMono.monotone (Nat.zero_le m)
    rw [value_eq_point, value_eq_point]
    rcases le_total 0 x.rank with hx | hx
    · obtain ⟨m, hm⟩ := Int.eq_ofNat_of_zero_le hx
      rw [hm, point_natCast, abs_of_nonneg (hnonneg m)]
      exact hplaces m y.rank (hm ▸ hne)
    · obtain ⟨m, hm⟩ := Int.eq_ofNat_of_zero_le (Int.neg_nonneg_of_nonpos hx)
      have hrank : x.rank = -(m : Int) := by omega
      have hmirror : |point y.rank - -gridSize m| = |point (-y.rank) - gridSize m| := by
        rw [point_neg, ← abs_neg]
        congr 1
        ring
      rw [hrank, point_neg, point_natCast, abs_neg, abs_of_nonneg (hnonneg m), hmirror]
      exact hplaces m (-y.rank) (by omega)
  intro m rank hrank
  rcases lt_or_gt_of_ne hrank with hbelow | habove
  · cases m with
    | zero =>
      rw [gridSize_zero]
      positivity
    | succ m =>
      have hle : point rank ≤ gridSize m := by
        rw [← point_natCast]
        exact point_le (by omega)
      have hstep := gridSize_succ_le m
      have hlt := gridSize_lt_succ m
      rw [abs_of_nonpos (by linarith)]
      linarith
  · have hle : gridSize (m + 1) ≤ point rank := by
      rw [← point_natCast]
      exact point_le (by omega)
    have hstep := gridSize_succ_le m
    have hlt := gridSize_lt_succ m
    rw [abs_of_nonneg (by linarith)]
    linarith

theorem nearest_of_close {q : ℚ} {x : Number} (hx : x.isNaN = false)
    (h : ∀ y : Number, y.value ≠ x.value → 2 * |x.value - q| < |y.value - x.value|) :
    Nearest q x := by
  have hfar (y : Number) (hne : y.value ≠ x.value) : |x.value - q| < |y.value - q| := by
    have htriangle := abs_sub_le y.value q x.value
    rw [abs_sub_comm q x.value] at htriangle
    linarith [h y hne]
  refine ⟨hx, fun y _ => ?_, fun y _ htie hne => ?_⟩
  · by_cases hsame : y.value = x.value
    · rw [hsame]
    · exact (hfar y hsame).le
  · exact absurd htie (hfar y hne).ne'

theorem isNaN_of_isFinite {x : Number} (hx : x.isFinite) : x.isNaN = false := by
  simp only [isFinite, isNaN, decide_eq_true_eq, decide_eq_false_iff_not] at hx ⊢
  omega

theorem sign_mul_abs_value (x : Number) :
    (if x.negative then -1 else 1) * |x.value| = x.value := by
  have hnonneg : (0 : ℚ) ≤ x.mantissa * 2 ^ x.scale := by positivity
  unfold value
  split
  · rw [neg_one_mul, neg_one_mul, abs_neg, abs_of_nonneg hnonneg]
  · rw [one_mul, one_mul, abs_of_nonneg hnonneg]

theorem ratio_fraction (x : Number) : (x.fraction.1 : ℚ) / x.fraction.2 = |x.value| := by
  have hratio := ratio_scaleFraction (by decide : 0 < 2) x.scale x.mantissa 1
  have hnonneg : (0 : ℚ) ≤ x.mantissa * 2 ^ x.scale := by positivity
  rw [Nat.cast_one, div_one, Nat.cast_ofNat] at hratio
  unfold fraction value
  rw [hratio]
  split
  · rw [neg_one_mul, abs_neg, abs_of_nonneg hnonneg]
  · rw [one_mul, abs_of_nonneg hnonneg]

theorem fraction_pos {x : Number} (hx : x.value ≠ 0) : 0 < x.fraction.1 ∧ 0 < x.fraction.2 := by
  have hden : 0 < x.fraction.2 := scaleFraction_den_pos (by decide) _ _ Nat.one_pos
  refine ⟨Nat.pos_of_ne_zero fun hzero => hx ?_, hden⟩
  have hratio := ratio_fraction x
  rwa [hzero, Nat.cast_zero, zero_div, eq_comm, abs_eq_zero] at hratio

/-- The decimal that a number is written with. -/
def written (x : Number) : Decimal :=
  Decimal.ofQuotient x.significantDigits x.fraction.1 x.fraction.2

/-- A number that comes back when its decimal of some precision is read, or whose decimal has
seventeen digits, is the nearest to that decimal. -/
theorem nearest_of_precision {x : Number} (hx : x.isFinite) (hzero : x.value ≠ 0) {precision : Nat}
    (h : ((Decimal.ofQuotient precision x.fraction.1 x.fraction.2).toNumber x.negative).equal x ∨
      precision = 17) :
    Nearest ((if x.negative then -1 else 1) *
      (Decimal.ofQuotient precision x.fraction.1 x.fraction.2).value) x := by
  rcases h with hequal | rfl
  · have hback := equal_iff.1 hequal
    exact (Decimal.nearest_toNumber _ _).congr (equal_iff.2 ⟨hback.2.1, hback.1, hback.2.2.symm⟩)
  obtain ⟨hnum, hden⟩ := fraction_pos hzero
  obtain ⟨-, -, hnear⟩ := Decimal.ofQuotient_bounds (by decide : 0 < 17) hnum hden
  have hlead := (Decimal.leadingPower_bounds hnum hden).1
  rw [ratio_fraction] at hnear hlead
  generalize (Decimal.ofQuotient 17 x.fraction.1 x.fraction.2).value = v at hnear ⊢
  generalize Decimal.leadingPower x.fraction.1 x.fraction.2 = k at hnear hlead
  have hunit : (10 : ℚ) ^ (k - (17 : Nat) + 1) = 10 ^ k / 10 ^ 16 := by
    rw [show k - (17 : Nat) + 1 = k - 16 by push_cast; ring, zpow_sub₀ (by norm_num)]
    norm_num
  have hpower : (0 : ℚ) < 10 ^ k := by positivity
  have hdistance : |x.value - (if x.negative then -1 else 1) * v| = abs (v - |x.value|) := by
    conv_lhs => rw [← sign_mul_abs_value x]
    rw [← mul_sub, abs_mul, abs_sub_comm]
    split <;> simp
  refine nearest_of_close (isNaN_of_isFinite hx) fun y hne => ?_
  have hgap := abs_value_le hne
  -- half a unit of the seventeenth digit against the gap
  calc 2 * |x.value - (if x.negative then -1 else 1) * v| ≤ 10 ^ k / 10 ^ 16 := by
        rw [hdistance]
        rw [hunit] at hnear
        linarith
    _ < 10 ^ k / 2 ^ 53 := div_lt_div_of_pos_left hpower (by norm_num) (by norm_num)
    _ ≤ |y.value - x.value| := by
        rw [div_le_iff₀ (by norm_num)]
        linarith

theorem nearest_written {x : Number} (hx : x.isFinite) (hzero : x.value ≠ 0) :
    Nearest ((if x.negative then -1 else 1) * x.written.value) x := by
  apply nearest_of_precision hx hzero
  unfold significantDigits
  dsimp only
  split
  · next h => exact .inl h
  · split
    · next h => exact .inl h
    · exact .inr rfl

theorem written_bounds {x : Number} (hzero : x.value ≠ 0) :
    0 < x.significantDigits ∧ 10 ^ (x.significantDigits - 1) ≤ x.written.digits ∧
      x.written.digits < 10 ^ x.significantDigits := by
  have hpos : 0 < x.significantDigits := by
    unfold significantDigits
    dsimp only
    split
    · decide
    · split <;> decide
  obtain ⟨hnum, hden⟩ := fraction_pos hzero
  obtain ⟨hlow, hhigh, -⟩ := Decimal.ofQuotient_bounds hpos hnum hden
  exact ⟨hpos, hlow, hhigh⟩

theorem whole_eq_some_iff {m n : Nat} {e : Int} :
    (if 0 ≤ e then some (m * 2 ^ e.toNat)
      else if m % 2 ^ (-e).toNat = 0 then some (m / 2 ^ (-e).toNat) else none) = some n ↔
      (m : ℚ) * 2 ^ e = n := by
  split
  · next he =>
    obtain ⟨k, rfl⟩ := Int.eq_ofNat_of_zero_le he
    rw [Int.toNat_natCast, Option.some.injEq, zpow_natCast]
    norm_cast
  · next he =>
    obtain ⟨k, hk⟩ := Int.eq_ofNat_of_zero_le (show 0 ≤ -e by omega)
    obtain rfl : e = -(k : Int) := by omega
    have hpow : 0 < 2 ^ k := by positivity
    have hquotient : (m : ℚ) * 2 ^ (-(k : Int)) = n ↔ m = n * 2 ^ k := by
      rw [zpow_neg, zpow_natCast, ← div_eq_mul_inv, div_eq_iff (by positivity)]
      norm_cast
    rw [neg_neg, Int.toNat_natCast, hquotient]
    split
    · next hmod =>
      rw [Option.some.injEq, Nat.div_eq_iff_eq_mul_left hpow (Nat.dvd_of_mod_eq_zero hmod)]
    · next hmod =>
      simp only [reduceCtorEq, false_iff]
      rintro rfl
      exact hmod (Nat.mul_mod_left _ _)

theorem toInt?_eq_some_iff {x : Number} {i : Int} :
    x.toInt? = some i ↔ x.isFinite ∧ x.value = i := by
  unfold toInt?
  cases hfinite : x.isFinite with
  | false => simp
  | true =>
    simp only [Bool.not_true, Bool.false_eq_true, if_false, Option.map_eq_some_iff,
      Option.bind_eq_bind, Option.bind_eq_some_iff, Option.pure_def, Option.some.injEq,
      whole_eq_some_iff, true_and]
    unfold value
    have hnonneg : (0 : ℚ) ≤ x.mantissa * 2 ^ x.scale := by positivity
    generalize (x.mantissa : ℚ) * 2 ^ x.scale = size at hnonneg
    cases x.negative with
    | true =>
      simp only [if_true, neg_one_mul]
      constructor
      · rintro ⟨_, ⟨n, rfl, rfl⟩, rfl⟩
        push_cast
        rfl
      · intro h
        have hi : (0 : ℚ) ≤ -(i : ℚ) := by linarith
        obtain ⟨n, hn⟩ := Int.eq_ofNat_of_zero_le (show 0 ≤ -i by exact_mod_cast hi)
        have hcast : -(i : ℚ) = n := by exact_mod_cast hn
        exact ⟨_, ⟨n, by linarith, rfl⟩, by omega⟩
    | false =>
      simp only [Bool.false_eq_true, if_false, one_mul]
      constructor
      · rintro ⟨_, ⟨n, rfl, rfl⟩, rfl⟩
        rfl
      · intro h
        obtain ⟨n, hn⟩ := Int.eq_ofNat_of_zero_le (show 0 ≤ i by exact_mod_cast h ▸ hnonneg)
        exact ⟨_, ⟨n, by rw [h, hn]; rfl, rfl⟩, hn.symm⟩

end Number
end ScriptMachine
