import Mathlib.Algebra.Order.Field.Power
import Mathlib.Algebra.Order.Field.Rat
import Mathlib.Order.Monotone.Basic
import Mathlib.Order.SuccPred.IntervalSucc
import Mathlib.Tactic.FieldSimp
import Mathlib.Tactic.Linarith
import Mathlib.Tactic.Positivity
import Mathlib.Tactic.Ring
import ScriptMachine.Number.Decimal

namespace ScriptMachine

theorem ratio_scaleFraction {base : Nat} (hbase : 0 < base) (power : Int) (num den : Nat) :
    ((scaleFraction base power num den).1 : ℚ) / (scaleFraction base power num den).2 =
      num / den * (base : ℚ) ^ power := by
  have hne : (base : ℚ) ≠ 0 := by positivity
  unfold scaleFraction
  split
  · next h =>
    obtain ⟨n, rfl⟩ := Int.eq_ofNat_of_zero_le h
    simp only [Int.toNat_natCast, Nat.cast_mul, Nat.cast_pow, zpow_natCast]
    ring
  · next h =>
    obtain ⟨n, hn⟩ := Int.eq_ofNat_of_zero_le (show 0 ≤ -power by omega)
    obtain rfl : power = -(n : Int) := by omega
    simp only [neg_neg, Int.toNat_natCast, Nat.cast_mul, Nat.cast_pow, zpow_neg, zpow_natCast]
    field_simp

theorem scaleFraction_den_pos {base : Nat} (hbase : 0 < base) (power : Int) (num : Nat) {den : Nat}
    (hden : 0 < den) : 0 < (scaleFraction base power num den).2 := by
  unfold scaleFraction
  split
  · exact hden
  · positivity

/-- Where the powers of a base that fit into `num` and `den` are known, one comparison tells the
power that fits into the quotient. -/
theorem leading_bounds {base num den a c : Nat} (hbase : 0 < base) (hnum : base ^ a ≤ num)
    (hnum' : num < base ^ (a + 1)) (hden : base ^ c ≤ den) (hden' : den < base ^ (c + 1)) {k : Int}
    (hk : k = if (scaleFraction base (-((a : Int) - c)) num den).2 ≤
      (scaleFraction base (-((a : Int) - c)) num den).1 then (a : Int) - c else (a : Int) - c - 1) :
    (base : ℚ) ^ k ≤ num / den ∧ (num : ℚ) / den < (base : ℚ) ^ (k + 1) := by
  have hb : (0 : ℚ) < base := by exact_mod_cast hbase
  have hdpos : 0 < den := Nat.lt_of_lt_of_le (by positivity) hden
  have hd : (0 : ℚ) < den := by exact_mod_cast hdpos
  have hratio := ratio_scaleFraction hbase (-((a : Int) - c)) num den
  have hscaled := scaleFraction_den_pos hbase (-((a : Int) - c)) num hdpos
  generalize scaleFraction base (-((a : Int) - c)) num den = scaled at hk hratio hscaled
  have hs : (0 : ℚ) < scaled.2 := by exact_mod_cast hscaled
  rw [zpow_neg, ← div_eq_mul_inv] at hratio
  have hguess : (0 : ℚ) < (base : ℚ) ^ ((a : Int) - c) := by positivity
  split at hk
  · next h =>
    subst hk
    constructor
    · have hone : (1 : ℚ) ≤ scaled.1 / scaled.2 := by
        rw [le_div_iff₀ hs, one_mul]
        exact_mod_cast h
      rwa [hratio, le_div_iff₀ hguess, one_mul] at hone
    · calc (num : ℚ) / den < (base : ℚ) ^ (a + 1) / (base : ℚ) ^ c := by
            apply div_lt_div₀ (by exact_mod_cast hnum') (by exact_mod_cast hden) (by positivity)
              (by positivity)
        _ = (base : ℚ) ^ ((a : Int) - c + 1) := by
            rw [← zpow_natCast, ← zpow_natCast, ← zpow_sub₀ hb.ne']
            congr 1
            push_cast
            ring
  · next h =>
    -- the guess was too high, and only by one power
    subst hk
    constructor
    · calc (base : ℚ) ^ ((a : Int) - c - 1) = (base : ℚ) ^ a / (base : ℚ) ^ (c + 1) := by
            rw [← zpow_natCast, ← zpow_natCast, ← zpow_sub₀ hb.ne']
            congr 1
            push_cast
            ring
        _ ≤ num / den := by
            apply div_le_div₀ (by positivity) (by exact_mod_cast hnum) hd
            exact_mod_cast hden'.le
    · have hone : (scaled.1 : ℚ) / scaled.2 < 1 := by
        rw [div_lt_iff₀ hs, one_mul]
        exact_mod_cast Nat.lt_of_not_le h
      rw [hratio, div_lt_iff₀ hguess, one_mul] at hone
      simpa using hone

theorem roundQuotient_cases (num : Nat) {den : Nat} (hden : 0 < den) :
    ((num / den : Nat) : ℚ) ≤ num / den ∧ (num : ℚ) / den < ((num / den : Nat) : ℚ) + 1 ∧
      (roundQuotient num den = num / den ∧
          (num : ℚ) / den - (num / den : Nat) ≤ (num / den : Nat) + 1 - (num : ℚ) / den ∧
          ((num : ℚ) / den - (num / den : Nat) = (num / den : Nat) + 1 - (num : ℚ) / den →
            num / den % 2 = 0) ∨
        roundQuotient num den = num / den + 1 ∧
          ((num / den : Nat) : ℚ) + 1 - (num : ℚ) / den ≤ (num : ℚ) / den - (num / den : Nat) ∧
          ((num : ℚ) / den - (num / den : Nat) = (num / den : Nat) + 1 - (num : ℚ) / den →
            (num / den + 1) % 2 = 0)) := by
  have hd : (0 : ℚ) < den := by exact_mod_cast hden
  have hrest : (num : ℚ) / den = (num / den : Nat) + (num % den : Nat) / den := by
    have hsum : (num : ℚ) = den * (num / den : Nat) + (num % den : Nat) := by
      exact_mod_cast (Nat.div_add_mod num den).symm
    field_simp
    linarith
  have hlt : ((num % den : Nat) : ℚ) / den < 1 := by
    rw [div_lt_one hd]
    exact_mod_cast Nat.mod_lt num hden
  have hnonneg : (0 : ℚ) ≤ ((num % den : Nat) : ℚ) / den := by positivity
  have hbelow : 2 * (num % den) < den ↔ ((num % den : Nat) : ℚ) / den < 1 / 2 := by
    rw [div_lt_div_iff₀ hd (by norm_num)]
    norm_cast
    omega
  have habove : den < 2 * (num % den) ↔ 1 / 2 < ((num % den : Nat) : ℚ) / den := by
    rw [div_lt_div_iff₀ (by norm_num) hd]
    norm_cast
    omega
  rw [hrest]
  generalize ((num % den : Nat) : ℚ) / den = rest at hlt hnonneg hbelow habove
  refine ⟨by linarith, by linarith, ?_⟩
  unfold roundQuotient
  dsimp only
  split
  · next h =>
    have := hbelow.1 h
    exact .inl ⟨rfl, by linarith, fun htie => by linarith⟩
  · next h =>
    split
    · next h' =>
      have := habove.1 h'
      exact .inr ⟨rfl, by linarith, fun htie => by linarith⟩
    · next h' =>
      have hle := le_of_not_gt (mt hbelow.2 h)
      have hge := le_of_not_gt (mt habove.2 h')
      rcases Nat.mod_two_eq_zero_or_one (num / den) with heven | hodd
      · exact .inl ⟨by omega, by linarith, fun _ => heven⟩
      · exact .inr ⟨by omega, by linarith, fun _ => by omega⟩

theorem abs_roundQuotient_sub_le (num : Nat) {den : Nat} (hden : 0 < den) :
    |(roundQuotient num den : ℚ) - num / den| ≤ 1 / 2 := by
  obtain ⟨hle, hlt, hcases⟩ := roundQuotient_cases num hden
  rw [abs_le]
  rcases hcases with ⟨hround, hnear, -⟩ | ⟨hround, hnear, -⟩
  · rw [hround]
    constructor <;> linarith
  · rw [hround]
    push_cast
    constructor <;> linarith

theorem roundQuotient_between {num den low high : Nat} (hden : 0 < den)
    (hlow : (low : ℚ) ≤ num / den) (hhigh : (num : ℚ) / den < high) :
    low ≤ roundQuotient num den ∧ roundQuotient num den ≤ high := by
  obtain ⟨hfloor, hnext, hcases⟩ := roundQuotient_cases num hden
  have hlow' : low < num / den + 1 := by
    have := lt_of_le_of_lt hlow hnext
    exact_mod_cast this
  have hhigh' : num / den < high := by
    have := lt_of_le_of_lt hfloor hhigh
    exact_mod_cast this
  rcases hcases with ⟨hround, -⟩ | ⟨hround, -⟩ <;> omega

namespace Number

/-- The size of the numbers of a magnitude. -/
def gridSize (m : Nat) : ℚ :=
  (if m < 2 ^ 52 then m else m % 2 ^ 52 + 2 ^ 52 : Nat) *
    2 ^ (((max (m / 2 ^ 52) 1 : Nat) : Int) - 1075)

/-- The value at a place in the row of numbers. -/
def point (rank : Int) : ℚ := if rank < 0 then -gridSize rank.natAbs else gridSize rank.natAbs

/-- The exact value of a number that is not NaN. An infinity stands for the power of two that
follows the finite numbers. -/
def value (x : Number) : ℚ := (if x.negative then -1 else 1) * (x.mantissa * 2 ^ x.scale)

/-- The numbers nearest to a value; of two on both sides of it, the even one. -/
structure Nearest (q : ℚ) (x : Number) : Prop where
  notNaN : x.isNaN = false
  le (y : Number) : y.isNaN = false → |x.value - q| ≤ |y.value - q|
  even (y : Number) : y.isNaN = false → |y.value - q| = |x.value - q| → y.value ≠ x.value →
    x.magnitude % 2 = 0

theorem gridSize_eq {k r : Nat} (hr : r ≤ 2 ^ 53) (hk : k = 0 ∨ 2 ^ 52 ≤ r) :
    gridSize (k * 2 ^ 52 + r) = r * 2 ^ ((k : Int) - 1074) := by
  unfold gridSize
  by_cases hsmall : r < 2 ^ 52
  · obtain rfl : k = 0 := by omega
    rw [Nat.zero_mul, Nat.zero_add, if_pos hsmall]
    have hmax : max (r / 2 ^ 52) 1 = 1 := by omega
    rw [hmax]
    norm_num
  · have hlarge : ¬k * 2 ^ 52 + r < 2 ^ 52 := by omega
    rw [if_neg hlarge]
    by_cases htop : r = 2 ^ 53
    · -- the mantissa that is full starts the next exponent
      subst htop
      have hmod : (k * 2 ^ 52 + 2 ^ 53) % 2 ^ 52 = 0 := by omega
      have hmax : max ((k * 2 ^ 52 + 2 ^ 53) / 2 ^ 52) 1 = k + 2 := by omega
      have hexponent : ((k + 2 : Nat) : Int) - 1075 = 1 + ((k : Int) - 1074) := by
        push_cast
        ring
      rw [hmod, hmax, hexponent, zpow_add₀ (by norm_num)]
      norm_num
      ring
    · have hmod : (k * 2 ^ 52 + r) % 2 ^ 52 + 2 ^ 52 = r := by omega
      have hmax : max ((k * 2 ^ 52 + r) / 2 ^ 52) 1 = k + 1 := by omega
      have hexponent : ((k + 1 : Nat) : Int) - 1075 = (k : Int) - 1074 := by
        push_cast
        ring
      rw [hmod, hmax, hexponent]

@[simp] theorem gridSize_zero : gridSize 0 = 0 := by simp [gridSize]

/-- A magnitude as an exponent and a mantissa, which is full unless the exponent is the least
one. -/
theorem exists_mantissa (m : Nat) :
    ∃ k r, m = k * 2 ^ 52 + r ∧ r < 2 ^ 53 ∧ (k = 0 ∨ 2 ^ 52 ≤ r) :=
  ⟨max (m / 2 ^ 52) 1 - 1, m - (max (m / 2 ^ 52) 1 - 1) * 2 ^ 52, by omega, by omega, by omega⟩

theorem gridSize_lt_succ (m : Nat) : gridSize m < gridSize (m + 1) := by
  obtain ⟨k, r, rfl, hr, hk⟩ := exists_mantissa m
  rw [Nat.add_assoc, gridSize_eq hr.le hk, gridSize_eq (by omega) (by omega)]
  push_cast
  have : (0 : ℚ) < 2 ^ ((k : Int) - 1074) := by positivity
  linarith

theorem gridSize_strictMono : StrictMono gridSize := strictMono_nat_of_lt_succ gridSize_lt_succ

theorem point_natCast (m : Nat) : point m = gridSize m := by
  simp [point, show ¬(m : Int) < 0 by omega]

theorem point_neg (rank : Int) : point (-rank) = -point rank := by
  unfold point
  rw [Int.natAbs_neg]
  rcases Int.lt_trichotomy rank 0 with h | rfl | h
  · rw [if_neg (by omega), if_pos h, neg_neg]
  · simp
  · rw [if_pos (by omega), if_neg (by omega)]

theorem point_lt_succ (rank : Int) : point rank < point (rank + 1) := by
  by_cases h : 0 ≤ rank
  · obtain ⟨m, rfl⟩ := Int.eq_ofNat_of_zero_le h
    have hsucc := point_natCast (m + 1)
    push_cast at hsucc
    rw [point_natCast, hsucc]
    exact gridSize_lt_succ m
  · obtain ⟨m, hm⟩ := Int.eq_ofNat_of_zero_le (show 0 ≤ -(rank + 1) by omega)
    have hnext : rank + 1 = -(m : Int) := by omega
    have hrank : rank = -((m + 1 : Nat) : Int) := by omega
    rw [hnext, hrank, point_neg, point_neg, point_natCast, point_natCast]
    exact neg_lt_neg (gridSize_lt_succ m)

theorem point_lt {a b : Int} (h : a < b) : point a < point b :=
  strictMono_int_of_lt_succ point_lt_succ h

theorem point_le {a b : Int} (h : a ≤ b) : point a ≤ point b :=
  (strictMono_int_of_lt_succ point_lt_succ).monotone h

theorem point_injective : Function.Injective point :=
  (strictMono_int_of_lt_succ point_lt_succ).injective

theorem value_eq_point (x : Number) : x.value = point x.rank := by
  have hsize : (x.mantissa : ℚ) * 2 ^ x.scale = gridSize x.magnitude := rfl
  unfold value rank
  rw [hsize]
  split
  · rw [point_neg, point_natCast]
    ring
  · rw [point_natCast]
    ring

theorem natAbs_rank (x : Number) : x.rank.natAbs = x.magnitude := by
  unfold rank
  split <;> simp

theorem value_eq_iff {x y : Number} : x.value = y.value ↔ x.rank = y.rank := by
  rw [value_eq_point, value_eq_point, point_injective.eq_iff]

theorem equal_iff {x y : Number} :
    x.equal y ↔ x.isNaN = false ∧ y.isNaN = false ∧ x.value = y.value := by
  simp [equal, value_eq_iff, and_assoc]

theorem magnitude_eq_mod (x : Number) : x.magnitude = x.bits.toNat % 2 ^ 63 := by
  unfold magnitude
  rw [UInt64.toNat_and, show (0x7fffffffffffffff : UInt64).toNat = 2 ^ 63 - 1 from rfl,
    Nat.and_two_pow_sub_one_eq_mod]

theorem negative_iff (x : Number) : x.negative = true ↔ 2 ^ 63 ≤ x.bits.toNat := by
  have hlt := x.bits.toNat_lt
  have hshift : (x.bits >>> 63).toNat = x.bits.toNat / 2 ^ 63 := by
    rw [UInt64.toNat_shiftRight, show (63 : UInt64).toNat % 64 = 63 from rfl,
      Nat.shiftRight_eq_div_pow]
  unfold negative
  rw [bne_iff_ne, ne_eq, ← UInt64.toNat_inj, hshift, show (0 : UInt64).toNat = 0 from rfl]
  omega

theorem rank_ofSize {size : Nat} (h : size ≤ topMagnitude) (negative : Bool) :
    (Number.mk (size + if negative then 2 ^ 63 else 0).toUInt64).magnitude = size ∧
      (Number.mk (size + if negative then 2 ^ 63 else 0).toUInt64).rank =
        if negative then -(size : Int) else size := by
  have hsize : size < 2 ^ 63 := Nat.lt_of_le_of_lt h (by decide)
  have hbits : (size + if negative then 2 ^ 63 else 0).toUInt64.toNat =
      size + if negative then 2 ^ 63 else 0 := by
    rw [Nat.toUInt64_eq, UInt64.toNat_ofNat']
    split <;> omega
  have hmagnitude : (Number.mk (size + if negative then 2 ^ 63 else 0).toUInt64).magnitude =
      size := by
    rw [magnitude_eq_mod, hbits]
    split <;> omega
  refine ⟨hmagnitude, ?_⟩
  have hsign := negative_iff (Number.mk (size + if negative then 2 ^ 63 else 0).toUInt64)
  rw [hbits] at hsign
  unfold rank
  rw [hmagnitude]
  cases negative with
  | false =>
    rw [if_neg]
    · simp
    · rw [hsign]
      simp only [Bool.false_eq_true, if_false]
      omega
  | true =>
    rw [if_pos]
    · simp
    · rw [hsign]
      simp

theorem isNaN_eq_false_iff {x : Number} : x.isNaN = false ↔ x.rank.natAbs ≤ topMagnitude := by
  rw [natAbs_rank]
  simp [isNaN]

theorem exists_rank {rank : Int} (h : rank.natAbs ≤ topMagnitude) :
    ∃ x : Number, x.isNaN = false ∧ x.rank = rank := by
  obtain ⟨-, hrank⟩ := rank_ofSize h (decide (rank < 0))
  have hsame : (if decide (rank < 0) then -(rank.natAbs : Int) else rank.natAbs) = rank := by
    simp only [decide_eq_true_eq]
    split <;> omega
  exact ⟨_, isNaN_eq_false_iff.2 (by rw [hrank, hsame]; exact h), hrank.trans hsame⟩

section nearest

variable {q : ℚ} {x y : Number}

theorem nearest_of_between {lower : Int} (hx : x.isNaN = false) (hle : point lower ≤ q)
    (hlt : q < point (lower + 1))
    (hcases : x.rank = lower ∧ q - point lower ≤ point (lower + 1) - q ∧
        (q - point lower = point (lower + 1) - q → lower % 2 = 0) ∨
      x.rank = lower + 1 ∧ point (lower + 1) - q ≤ q - point lower ∧
        (q - point lower = point (lower + 1) - q → (lower + 1) % 2 = 0)) : Nearest q x := by
  have hmagnitude := natAbs_rank x
  have hdistance (y : Number) : y.rank ≤ lower ∧ |y.value - q| = q - y.value ∧
        y.value ≤ point lower ∨
      lower + 1 ≤ y.rank ∧ |y.value - q| = y.value - q ∧ point (lower + 1) ≤ y.value := by
    rw [value_eq_point]
    rcases le_or_gt y.rank lower with h | h
    · have := point_le h
      exact .inl ⟨h, by rw [abs_of_nonpos (by linarith)]; ring, this⟩
    · have := point_le (show lower + 1 ≤ y.rank by omega)
      exact .inr ⟨h, abs_of_nonneg (by linarith), this⟩
  rcases hcases with ⟨hrank, hnear, heven⟩ | ⟨hrank, hnear, heven⟩
  · have hvalue : x.value = point lower := by rw [value_eq_point, hrank]
    have hself : |x.value - q| = q - point lower := by
      rw [hvalue, abs_of_nonpos (by linarith)]
      ring
    refine ⟨hx, fun y _ => ?_, fun y _ htie hne => ?_⟩
    · rw [hself]
      rcases hdistance y with ⟨-, hy, hside⟩ | ⟨-, hy, hside⟩ <;> linarith
    · have hparity : lower % 2 = 0 := by
        rcases hdistance y with ⟨-, hy, hside⟩ | ⟨-, hy, hside⟩
        · exact absurd (by linarith) hne
        · exact heven (by linarith)
      omega
  · have hvalue : x.value = point (lower + 1) := by rw [value_eq_point, hrank]
    have hself : |x.value - q| = point (lower + 1) - q := by
      rw [hvalue, abs_of_nonneg (by linarith)]
    refine ⟨hx, fun y _ => ?_, fun y _ htie hne => ?_⟩
    · rw [hself]
      rcases hdistance y with ⟨-, hy, hside⟩ | ⟨-, hy, hside⟩ <;> linarith
    · have hparity : (lower + 1) % 2 = 0 := by
        rcases hdistance y with ⟨-, hy, hside⟩ | ⟨-, hy, hside⟩
        · exact heven (by linarith)
        · exact absurd (by linarith) hne
      omega

theorem nearest_of_top_le (hx : x.rank = topMagnitude) (hle : point topMagnitude ≤ q) :
    Nearest q x := by
  have hvalue : x.value = point topMagnitude := by rw [value_eq_point, hx]
  have hside (y : Number) (hy : y.isNaN = false) : y.value ≤ x.value := by
    have := isNaN_eq_false_iff.1 hy
    rw [value_eq_point, value_eq_point, hx]
    exact point_le (by omega)
  have hdistance (y : Number) (hy : y.isNaN = false) : |y.value - q| = q - y.value := by
    rw [abs_of_nonpos (by linarith [hside y hy])]
    ring
  have hnot : x.isNaN = false := isNaN_eq_false_iff.2 (by rw [hx]; simp)
  refine ⟨hnot, fun y hy => ?_, fun y hy htie hne => ?_⟩
  · rw [hdistance x hnot, hdistance y hy]
    linarith [hside y hy]
  · rw [hdistance x hnot, hdistance y hy] at htie
    exact absurd (by linarith) hne

theorem Nearest.neg (h : Nearest q x) (hy : y.rank = -x.rank) : Nearest (-q) y := by
  have hnot := isNaN_eq_false_iff.1 h.notNaN
  have hvalue : y.value = -x.value := by rw [value_eq_point, value_eq_point, hy, point_neg]
  -- a rival on one side of zero has its mirror image on the other, at the same distance
  have hmirror (z : Number) (hz : z.isNaN = false) :
      ∃ z' : Number, z'.isNaN = false ∧ z'.value = -z.value ∧ |z.value - -q| = |z'.value - q| := by
    have hrange := isNaN_eq_false_iff.1 hz
    obtain ⟨z', hz', hrank⟩ := exists_rank (show (-z.rank).natAbs ≤ _ by omega)
    have hvalue' : z'.value = -z.value := by rw [value_eq_point, value_eq_point, hrank, point_neg]
    refine ⟨z', hz', hvalue', ?_⟩
    rw [hvalue', ← abs_neg]
    congr 1
    ring
  have hself : |y.value - -q| = |x.value - q| := by
    rw [hvalue, ← abs_neg]
    congr 1
    ring
  refine ⟨isNaN_eq_false_iff.2 (by omega), fun z hz => ?_, fun z hz htie hne => ?_⟩
  · obtain ⟨z', hz', -, hdistance⟩ := hmirror z hz
    rw [hself, hdistance]
    exact h.le z' hz'
  · obtain ⟨z', hz', hvalue', hdistance⟩ := hmirror z hz
    have hmagnitude : y.magnitude = x.magnitude := by
      rw [← natAbs_rank, ← natAbs_rank, hy, Int.natAbs_neg]
    rw [hmagnitude]
    refine h.even z' hz' (by rw [← hdistance, htie, hself]) fun heq => hne ?_
    rw [hvalue, ← heq, hvalue', neg_neg]

theorem Nearest.congr (h : Nearest q x) (hy : y.equal x) : Nearest q y := by
  obtain ⟨hnot, -, hvalue⟩ := equal_iff.1 hy
  have hmagnitude : y.magnitude = x.magnitude := by
    rw [← natAbs_rank, ← natAbs_rank, value_eq_iff.1 hvalue]
  refine ⟨hnot, fun z hz => hvalue ▸ h.le z hz, fun z hz htie hne => ?_⟩
  rw [hmagnitude]
  exact h.even z hz (hvalue ▸ htie) (hvalue ▸ hne)

theorem not_nearest_of_rank_lt (hx : Nearest q x) (hy : Nearest q y) : ¬x.rank < y.rank := by
  intro hlt
  have hvalues : x.value < y.value := by
    rw [value_eq_point, value_eq_point]
    exact point_lt hlt
  have hdistance : |x.value - q| = |y.value - q| :=
    le_antisymm (hx.le y hy.notNaN) (hy.le x hx.notNaN)
  have hmiddle : q = (x.value + y.value) / 2 := by
    rcases abs_eq_abs.1 hdistance with h | h <;> linarith
  have hxeven := hx.even y hy.notNaN hdistance.symm hvalues.ne'
  have hyeven := hy.even x hx.notNaN hdistance hvalues.ne
  rw [← natAbs_rank] at hxeven hyeven
  have hxrange := isNaN_eq_false_iff.1 hx.notNaN
  have hyrange := isNaN_eq_false_iff.1 hy.notNaN
  obtain ⟨z, hz, hrank⟩ := exists_rank (show (x.rank + 1).natAbs ≤ _ by omega)
  have hnear := hx.le z hz
  have habove : x.value < z.value := by
    rw [value_eq_point, value_eq_point, hrank]
    exact point_lt (by omega)
  have hbelow : z.value < y.value := by
    rw [value_eq_point, value_eq_point, hrank]
    exact point_lt (by omega)
  have hcloser : |z.value - q| < |x.value - q| := by
    rw [abs_of_nonpos (show x.value - q ≤ 0 by linarith), abs_lt]
    constructor <;> linarith
  linarith

theorem Nearest.iff_equal (hx : Nearest q x) : Nearest q y ↔ y.equal x := by
  refine ⟨fun hy => ?_, hx.congr⟩
  have hlt := not_nearest_of_rank_lt hx hy
  have hgt := not_nearest_of_rank_lt hy hx
  exact equal_iff.2 ⟨hy.notNaN, hx.notNaN, value_eq_iff.2 (by omega)⟩

end nearest

theorem exponentFor_bounds {num den : Nat} (hnum : 0 < num) (hden : 0 < den) :
    -1074 ≤ exponentFor num den ∧ (num : ℚ) / den < 2 ^ 53 * 2 ^ exponentFor num den ∧
      (exponentFor num den = -1074 ∨ 2 ^ 52 * 2 ^ exponentFor num den ≤ (num : ℚ) / den) := by
  obtain ⟨hle, hlt⟩ := leading_bounds (by decide) (Nat.log2_self_le hnum.ne') Nat.lt_log2_self
    (Nat.log2_self_le hden.ne') Nat.lt_log2_self rfl
  have hexponent : exponentFor num den = max (-1074)
      ((if (scaleFraction 2 (-((num.log2 : Int) - den.log2)) num den).2 ≤
          (scaleFraction 2 (-((num.log2 : Int) - den.log2)) num den).1
        then (num.log2 : Int) - den.log2 else (num.log2 : Int) - den.log2 - 1) - 52) := by
    unfold exponentFor
    dsimp only
    congr 1
    split <;> omega
  rw [hexponent]
  generalize (if (scaleFraction 2 (-((num.log2 : Int) - den.log2)) num den).2 ≤
      (scaleFraction 2 (-((num.log2 : Int) - den.log2)) num den).1
    then (num.log2 : Int) - den.log2 else (num.log2 : Int) - den.log2 - 1) = k at hle hlt
  have htwo : ((2 : Nat) : ℚ) = 2 := by norm_num
  rw [htwo] at hle hlt
  have hjoin (n : Nat) (e : Int) : (2 : ℚ) ^ n * 2 ^ e = 2 ^ ((n : Int) + e) := by
    rw [zpow_add₀ (by norm_num), zpow_natCast]
  refine ⟨le_max_left _ _, ?_, ?_⟩
  · rw [hjoin]
    refine lt_of_lt_of_le hlt (zpow_le_zpow_right₀ (by norm_num) ?_)
    push_cast
    omega
  · rcases le_or_gt (k - 52) (-1074) with h | h
    · exact .inl (max_eq_left h)
    · right
      rw [max_eq_right h.le, hjoin]
      refine le_trans (zpow_le_zpow_right₀ (by norm_num) ?_) hle
      push_cast
      omega

/-- The place in the row that a positive quotient is rounded to, wherever the row ends. -/
def roundedPlace (num den : Nat) : Nat :=
  let e := exponentFor num den
  let (n, d) := scaleFraction 2 (-e) num den
  (e + 1074).toNat * 2 ^ 52 + roundQuotient n d

theorem roundedPlace_cases {num den : Nat} (hnum : 0 < num) (hden : 0 < den) :
    ∃ lower : Int, point lower ≤ num / den ∧ (num : ℚ) / den < point (lower + 1) ∧
      (roundedPlace num den = lower ∧ (num : ℚ) / den - point lower ≤ point (lower + 1) - num / den ∧
          ((num : ℚ) / den - point lower = point (lower + 1) - num / den → lower % 2 = 0) ∨
        roundedPlace num den = lower + 1 ∧
          point (lower + 1) - (num : ℚ) / den ≤ num / den - point lower ∧
          ((num : ℚ) / den - point lower = point (lower + 1) - num / den →
            (lower + 1) % 2 = 0)) := by
  obtain ⟨hleast, hbelow, habove⟩ := exponentFor_bounds hnum hden
  unfold roundedPlace
  dsimp only
  generalize exponentFor num den = e at hleast hbelow habove
  obtain ⟨k, hk⟩ := Int.eq_ofNat_of_zero_le (show 0 ≤ e + 1074 by omega)
  have hpower : (0 : ℚ) < 2 ^ e := by positivity
  have hratio := ratio_scaleFraction (by decide : 0 < 2) (-e) num den
  have hpos := scaleFraction_den_pos (by decide : 0 < 2) (-e) num hden
  generalize scaleFraction 2 (-e) num den = scaled at hratio hpos
  rw [hk, Int.toNat_natCast]
  obtain ⟨hfloor, hnext, hround⟩ := roundQuotient_cases scaled.1 hpos
  have hq : (num : ℚ) / den = scaled.1 / scaled.2 * 2 ^ e := by
    rw [hratio, Nat.cast_ofNat, mul_assoc, ← zpow_add₀ (by norm_num), neg_add_cancel, zpow_zero,
      mul_one]
  rw [hq] at hbelow habove ⊢
  generalize (scaled.1 : ℚ) / scaled.2 = z at hfloor hnext hround hbelow habove
  generalize hlow : scaled.1 / scaled.2 = low at hfloor hnext hround
  generalize roundQuotient scaled.1 scaled.2 = r at hround
  rw [mul_lt_mul_iff_left₀ hpower] at hbelow
  have hlowlt : low < 2 ^ 53 := by
    have : (low : ℚ) < 2 ^ 53 := lt_of_le_of_lt hfloor hbelow
    exact_mod_cast this
  have hnormal : k = 0 ∨ 2 ^ 52 ≤ low := by
    rcases habove with h | h
    · left
      omega
    · right
      rw [mul_le_mul_iff_left₀ hpower] at h
      have : (2 ^ 52 : ℚ) < low + 1 := lt_of_le_of_lt h hnext
      have : 2 ^ 52 < low + 1 := by exact_mod_cast this
      omega
  have hexponent : (k : Int) - 1074 = e := by omega
  have hlower : point ((k * 2 ^ 52 + low : Nat) : Int) = low * 2 ^ e := by
    rw [point_natCast, gridSize_eq hlowlt.le hnormal, hexponent]
  have hupper : point (((k * 2 ^ 52 + low : Nat) : Int) + 1) = (low + 1) * 2 ^ e := by
    have hsucc := gridSize_eq (k := k) (r := low + 1) (by omega) (by omega)
    rw [← point_natCast, ← Nat.add_assoc, hexponent] at hsucc
    push_cast at hsucc ⊢
    exact hsucc
  refine ⟨(k * 2 ^ 52 + low : Nat), ?_, ?_, ?_⟩
  · rw [hlower]
    exact mul_le_mul_of_nonneg_right hfloor hpower.le
  · rw [hupper]
    exact mul_lt_mul_of_pos_right hnext hpower
  · rw [hlower, hupper, ← sub_mul, ← sub_mul, mul_le_mul_iff_left₀ hpower,
      mul_le_mul_iff_left₀ hpower, mul_left_inj' hpower.ne']
    rcases hround with ⟨rfl, hnear, heven⟩ | ⟨rfl, hnear, heven⟩
    · exact .inl ⟨rfl, hnear, fun h => by have := heven h; omega⟩
    · exact .inr ⟨by push_cast; ring, hnear, fun h => by have := heven h; omega⟩

theorem rank_ofQuotient (num den : Nat) : ∃ size ≤ topMagnitude,
    (size = if num = 0 then 0 else min topMagnitude (roundedPlace num den)) ∧
      ∀ negative, (ofQuotient negative num den).rank =
      if negative then -(size : Int) else size := by
  have hle : (if num = 0 then 0 else min topMagnitude (roundedPlace num den)) ≤ topMagnitude := by
    split
    · exact Nat.zero_le _
    · exact Nat.min_le_left _ _
  exact ⟨_, hle, rfl, fun negative => (rank_ofSize hle negative).2⟩

theorem nearest_zero {x : Number} (hx : x.rank = 0) : Nearest 0 x := by
  have hpoint : point 0 = 0 := by simp [point]
  have hone : 0 < point (0 + 1) := hpoint ▸ point_lt (show (0 : Int) < 0 + 1 by decide)
  have hnot : x.isNaN = false := isNaN_eq_false_iff.2 (by rw [hx]; exact Nat.zero_le _)
  refine nearest_of_between hnot hpoint.le hone (.inl ⟨hx, ?_, fun _ => rfl⟩)
  rw [hpoint]
  linarith

/-- Every quotient is rounded to the nearest number. -/
theorem nearest_ofQuotient (negative : Bool) (num : Nat) {den : Nat} (hden : 0 < den) :
    Nearest ((if negative then -1 else 1) * (num / den)) (ofQuotient negative num den) := by
  obtain ⟨size, hsize, hplace, hrank⟩ := rank_ofQuotient num den
  suffices hpositive : Nearest (num / den : ℚ) (ofQuotient false num den) by
    cases negative with
    | false => simpa using hpositive
    | true => simpa using hpositive.neg (y := ofQuotient true num den) (by simp [hrank])
  have hrank := hrank false
  rw [if_neg (by decide)] at hrank
  have hnot := isNaN_eq_false_iff.2 (show (ofQuotient false num den).rank.natAbs ≤ _ by omega)
  rcases Nat.eq_zero_or_pos num with rfl | hnum
  · rw [Nat.cast_zero, zero_div]
    exact nearest_zero (by rw [hrank, hplace, if_pos rfl]; rfl)
  rw [if_neg hnum.ne'] at hplace
  obtain ⟨lower, hle, hlt, hcases⟩ := roundedPlace_cases hnum hden
  rcases le_or_gt (roundedPlace num den) topMagnitude with hfits | hbeyond
  · rw [Nat.min_eq_right hfits] at hplace
    rw [← hplace, ← hrank] at hcases
    exact nearest_of_between hnot hle hlt hcases
  · rw [Nat.min_eq_left hbeyond.le] at hplace
    apply nearest_of_top_le (hrank.trans (congrArg _ hplace))
    have htop : (topMagnitude : Int) ≤ lower := by
      rcases hcases with ⟨hsame, -⟩ | ⟨hsame, -⟩ <;> omega
    exact (point_le htop).trans hle

end Number
end ScriptMachine
