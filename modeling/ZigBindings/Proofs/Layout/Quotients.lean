import Mathlib.Data.Int.Log
import Mathlib.Data.Rat.Floor
import Mathlib.Tactic.FieldSimp
import Mathlib.Tactic.Linarith
import Mathlib.Tactic.NormNum
import Mathlib.Tactic.Positivity
import Mathlib.Tactic.Ring
import ZigBindings.Layout.Alignment

/-! Quotients of natural numbers as doubles. A rounded quotient is described once, by the unit of its last
place and by what its significand reaches. From that follow the order of values and whole numbers, the
exponents at which a quotient arrives, and its ceiling: what is left of it below 2^53, where the last place is
a fraction, and from there on, where whole numbers are lost. -/

namespace ZigBindings.Layout

/-- A quotient rounds to a number or beyond it from half a unit below, and from just there only if the number is
even. -/
theorem le_nearestQuotient_iff {n d k : Nat} (positive : 0 < d) :
    k ≤ nearestQuotient n d ↔ 2 * (k * d) < 2 * n + d ∨ 2 * (k * d) = 2 * n + d ∧ k % 2 = 0 := by
  have divided := Nat.div_add_mod n d
  have rest := Nat.mod_lt n positive
  unfold nearestQuotient
  dsimp only
  generalize n / d = q at *
  generalize n % d = r at *
  rw [Nat.mul_comm] at divided
  rcases Nat.lt_trichotomy k (q + 1) with below | rfl | above
  · have le : k * d ≤ q * d := Nat.mul_le_mul_right d (by omega)
    refine iff_of_true ?_ (.inl (by omega))
    split <;> omega
  · have next : (q + 1) * d = q * d + d := Nat.add_one_mul q d
    split
    case isTrue up =>
      simp only [Bool.or_eq_true, decide_eq_true_eq, Bool.and_eq_true, beq_iff_eq] at up
      omega
    case isFalse down =>
      simp only [Bool.or_eq_true, decide_eq_true_eq, Bool.and_eq_true, beq_iff_eq] at down
      omega
  · have le : (q + 2) * d ≤ k * d := Nat.mul_le_mul_right d (by omega)
    rw [Nat.add_mul] at le
    refine iff_of_false ?_ (by omega)
    split <;> omega

/-! ### Powers of two -/

theorem two_zpow (e : Int) : (2 : ℚ) ^ e * 2 ^ (-e).toNat = 2 ^ e.toNat := by
  rw [← zpow_natCast, ← zpow_natCast, ← zpow_add₀ two_ne_zero]
  congr 1
  omega

theorem zpow_mono {e f : Int} (le : e ≤ f) : (2 : ℚ) ^ e ≤ 2 ^ f :=
  zpow_le_zpow_right₀ one_le_two le

theorem zpow_double (e : Int) : (2 : ℚ) ^ (e + 1) = 2 * 2 ^ e := by
  rw [zpow_add_one₀ two_ne_zero, mul_comm]

theorem exists_inverse {e : Int} (small : e ≤ 0) : ∃ u : Nat, (u : ℚ) * 2 ^ e = 1 ∧ (u % 2 = 1 ↔ e = 0) := by
  refine ⟨2 ^ (-e).toNat, ?_, ?_⟩
  · have none : e.toNat = 0 := by omega
    rw [Nat.cast_pow, Nat.cast_ofNat, mul_comm, two_zpow, none, pow_zero]
  · rw [Nat.two_pow_mod_two_eq_one]
    omega

/-! ### The leading bit -/

section
variable {n d : Nat} (dividend : 0 < n) (divisor : 0 < d)
include divisor

theorem reached_iff (k : Int) :
    d * Nat.pow 2 k.toNat ≤ n * Nat.pow 2 (-k).toNat ↔ (2 : ℚ) ^ k ≤ (n : ℚ) / d := by
  have below : (0 : ℚ) < d := by exact_mod_cast divisor
  have unit : (0 : ℚ) < 2 ^ (-k).toNat := by positivity
  rw [le_div_iff₀ below, ← mul_le_mul_iff_left₀ unit, mul_right_comm, two_zpow, mul_comm _ (d : ℚ),
    ← Nat.cast_le (α := ℚ)]
  push_cast [Nat.pow_eq]
  rfl

include dividend

theorem log_bounds :
    (Nat.log2 n : Int) - (Nat.log2 d + 1) ≤ Int.log 2 ((n : ℚ) / d) ∧
      Int.log 2 ((n : ℚ) / d) < (Nat.log2 n : Int) + 1 - Nat.log2 d := by
  have above : (0 : ℚ) < n := by exact_mod_cast dividend
  have below : (0 : ℚ) < d := by exact_mod_cast divisor
  have quotient : (0 : ℚ) < (n : ℚ) / d := by positivity
  have bits (x : Nat) (positive : 0 < x) :
      (2 : ℚ) ^ (Nat.log2 x : Int) ≤ x ∧ (x : ℚ) < 2 ^ ((Nat.log2 x : Int) + 1) := by
    have low := Nat.log2_self_le (by omega : x ≠ 0)
    have high : x < 2 ^ (Nat.log2 x + 1) := Nat.lt_log2_self
    exact ⟨by exact_mod_cast low, by exact_mod_cast high⟩
  obtain ⟨lowN, highN⟩ := bits n dividend
  obtain ⟨lowD, highD⟩ := bits d divisor
  have split (a b : Int) : (2 : ℚ) ^ (a - b) = 2 ^ a / 2 ^ b := zpow_sub₀ two_ne_zero a b
  constructor
  · rw [← Int.zpow_le_iff_le_log (by norm_num) quotient]
    push_cast
    rw [split]
    exact div_le_div₀ above.le lowN below highD.le
  · rw [← Int.lt_zpow_iff_log_lt (by norm_num) quotient]
    push_cast
    rw [split]
    exact div_lt_div₀ highN lowD (zpow_nonneg two_pos.le _) (zpow_pos two_pos _)

/-- The exponent is the leading bit's place less 52, but no less than -1074. -/
theorem significandExponent_eq :
    significandExponent n d = max (Int.log 2 ((n : ℚ) / d) - 52) (-1074) := by
  have above : (0 : ℚ) < n := by exact_mod_cast dividend
  have below : (0 : ℚ) < d := by exact_mod_cast divisor
  have quotient : (0 : ℚ) < (n : ℚ) / d := by positivity
  obtain ⟨low, high⟩ := log_bounds dividend divisor
  have reached := reached_iff (n := n) divisor ((Nat.log2 n : Int) - Nat.log2 d)
  have placed := Int.zpow_le_iff_le_log (b := 2) (x := (Nat.log2 n : Int) - Nat.log2 d) (by norm_num) quotient
  push_cast at placed
  rw [placed] at reached
  unfold significandExponent
  simp only [reached]
  split <;> congr 1 <;> omega

end

/-! ### Rounded quotients -/

/-- A quotient rounded to a double: the nearest multiple of a power of two, an even one on a tie, where the
power is such that a significand of 53 bits is left, unless it is the least one. -/
structure Rounded (x : ℚ) (significand : Nat) (exponent : Int) : Prop where
  least : -1074 ≤ exponent
  leading : exponent ≠ -1074 → 2 ^ 52 * 2 ^ exponent ≤ x
  below : x < 2 ^ 53 * 2 ^ exponent
  nearest : ∀ k : Nat, k ≤ significand ↔ (2 * k - 1) * 2 ^ exponent < 2 * x ∨
    (2 * k - 1) * 2 ^ exponent = 2 * x ∧ k % 2 = 0

theorem doubleQuotient_rounded {n d : Nat} (dividend : 0 < n) (divisor : 0 < d) :
    Rounded ((n : ℚ) / d) (doubleQuotient n d).1 (doubleQuotient n d).2 := by
  have above : (0 : ℚ) < n := by exact_mod_cast dividend
  have under : (0 : ℚ) < d := by exact_mod_cast divisor
  have quotient : (0 : ℚ) < (n : ℚ) / d := by positivity
  have exponent : (doubleQuotient n d).2 = max (Int.log 2 ((n : ℚ) / d) - 52) (-1074) :=
    significandExponent_eq dividend divisor
  have significand : (doubleQuotient n d).1 = nearestQuotient (n * 2 ^ (-(doubleQuotient n d).2).toNat)
      (d * 2 ^ (doubleQuotient n d).2.toNat) := rfl
  generalize (doubleQuotient n d).2 = e at exponent significand ⊢
  generalize (doubleQuotient n d).1 = m at significand ⊢
  have leading := Int.zpow_log_le_self (b := 2) (by norm_num) quotient
  have trailing := Int.lt_zpow_succ_log_self (b := 2) (by norm_num) ((n : ℚ) / d)
  push_cast at leading trailing
  have power (k : Nat) : (2 : ℚ) ^ k * 2 ^ e = 2 ^ (k + e : Int) := by
    rw [zpow_add₀ two_ne_zero, zpow_natCast]
  refine ⟨by omega, fun normal => ?_, ?_, fun k => ?_⟩
  · rw [power]
    exact (zpow_mono (by omega)).trans leading
  · rw [power]
    exact trailing.trans_le (zpow_mono (by omega))
  · rw [significand, le_nearestQuotient_iff (by positivity)]
    have unit : (0 : ℚ) < 2 ^ (-e).toNat * d := by positivity
    have dividends : (n : ℚ) * 2 ^ (-e).toNat = n / d * (2 ^ (-e).toNat * d) := by field_simp
    have divisors : (d : ℚ) * 2 ^ e.toNat = 2 ^ e * (2 ^ (-e).toNat * d) := by
      rw [← two_zpow e]
      ring
    rw [← Nat.cast_lt (α := ℚ), ← Nat.cast_inj (R := ℚ)]
    push_cast
    rw [dividends, divisors]
    generalize (2 : ℚ) ^ (-e).toNat * d = c at unit
    refine or_congr (.trans ?_ (mul_lt_mul_iff_left₀ unit))
      (and_congr_left fun _ => .trans ?_ (mul_left_inj' unit.ne'))
    · constructor <;> intro less <;> linarith
    · constructor <;> intro same <;> linarith

theorem ceilScaled_le_iff {m : Nat} {e : Int} {k : Nat} : ceilScaled m e ≤ k ↔ (m : ℚ) * 2 ^ e ≤ k := by
  have unit : (0 : ℚ) < 2 ^ (-e).toNat := by positivity
  have positive : 0 < Nat.pow 2 (-e).toNat := Nat.pow_pos two_pos
  have whole : ceilScaled m e ≤ k ↔ m * 2 ^ e.toNat ≤ k * 2 ^ (-e).toNat := by
    simp only [ceilScaled, Nat.pow_eq] at positive ⊢
    rw [Nat.div_le_iff_le_mul_add_pred positive, Nat.mul_comm (2 ^ (-e).toNat) k]
    omega
  rw [whole, ← mul_le_mul_iff_left₀ unit, mul_assoc, two_zpow, ← Nat.cast_le (α := ℚ)]
  push_cast
  rfl

theorem ceilScaled_of_nonneg (m : Nat) {e : Int} (whole : 0 ≤ e) : ceilScaled m e = m * 2 ^ e.toNat := by
  have none : (-e).toNat = 0 := by omega
  simp [ceilScaled, none]

theorem ceilScaled_le (m : Nat) (e : Int) : ceilScaled m e ≤ m * 2 ^ e.toNat := by
  have value : ((m * 2 ^ e.toNat : Nat) : ℚ) = m * 2 ^ (e.toNat : Int) := by
    rw [Nat.cast_mul, Nat.cast_pow, Nat.cast_ofNat, zpow_natCast]
  rw [ceilScaled_le_iff, value]
  exact mul_le_mul_of_nonneg_left (zpow_mono (Int.self_le_toNat e)) (Nat.cast_nonneg m)

theorem last_place_le {a j k : Nat} (small : a < 2 ^ 53) (leading : 2 ^ 52 * 2 ^ k ≤ a * 2 ^ j) : k ≤ j := by
  by_contra! less
  have fewer : a * 2 ^ j < 2 ^ 53 * 2 ^ (k - 1) :=
    Nat.mul_lt_mul_of_lt_of_le small (Nat.pow_le_pow_right two_pos (by omega)) (by positivity)
  have whole : 2 ^ 53 * 2 ^ (k - 1) = 2 ^ 52 * 2 ^ k := by
    rw [← pow_add, ← pow_add]
    congr 1
    omega
  omega

namespace Rounded

variable {x : ℚ} {m : Nat} {e : Int} (r : Rounded x m e)
include r

theorem le_significand {k : Nat} (below : k * 2 ^ e ≤ x) : k ≤ m := by
  have unit : (0 : ℚ) < 2 ^ e := zpow_pos two_pos e
  exact (r.nearest k).mpr (.inl (by linarith))

theorem significand_le {k : Nat} (above : x ≤ k * 2 ^ e) : m ≤ k := by
  have unit : (0 : ℚ) < 2 ^ e := zpow_pos two_pos e
  by_contra! more
  have near := (r.nearest (k + 1)).mp more
  push_cast at near
  rcases near with less | ⟨same, -⟩ <;> linarith

theorem significand_le_limit : m ≤ 2 ^ 53 :=
  r.significand_le (by exact_mod_cast r.below.le)

theorem limit_le_significand (normal : e ≠ -1074) : 2 ^ 52 ≤ m :=
  r.le_significand (by exact_mod_cast r.leading normal)

/-- A rounded quotient reaches a power of two from half a unit below on. -/
theorem reaches_iff {t : Int} (above : -1074 ≤ t) :
    2 ^ 53 * (2 : ℚ) ^ t ≤ m * 2 ^ e ↔ 2 ^ 54 * (2 : ℚ) ^ t ≤ 2 * x + 2 ^ t := by
  have unit : (0 : ℚ) < 2 ^ e := zpow_pos two_pos e
  have most : (m : ℚ) ≤ 2 ^ 53 := by exact_mod_cast r.significand_le_limit
  rcases lt_trichotomy e t with less | rfl | more
  · have half : 2 * (2 : ℚ) ^ e ≤ 2 ^ t := by
      rw [← zpow_double]
      exact zpow_mono less
    have below := r.below
    have value : (m : ℚ) * 2 ^ e ≤ 2 ^ 53 * 2 ^ e := mul_le_mul_of_nonneg_right most unit.le
    exact iff_of_false (by linarith) (by linarith)
  · have near := r.nearest (2 ^ 53)
    rw [Nat.cast_pow, Nat.cast_ofNat] at near
    rw [mul_le_mul_iff_left₀ unit]
    have cast : (2 : ℚ) ^ 53 ≤ m ↔ 2 ^ 53 ≤ m := by exact_mod_cast Iff.rfl
    rw [cast, near]
    constructor
    · rintro (less | ⟨same, -⟩) <;> linarith
    · intro le
      rcases le.lt_or_eq with less | same
      · exact .inl (by linarith)
      · exact .inr ⟨by linarith, by norm_num⟩
  · have double : 2 * (2 : ℚ) ^ t ≤ 2 ^ e := by
      rw [← zpow_double]
      exact zpow_mono more
    have below := r.leading (by omega)
    have least : (2 : ℚ) ^ 52 ≤ m := by exact_mod_cast r.limit_le_significand (by omega)
    have value : (2 : ℚ) ^ 52 * 2 ^ e ≤ m * 2 ^ e := mul_le_mul_of_nonneg_right least unit.le
    exact iff_of_true (by linarith) (by linarith)

theorem reaches_whole_iff {t : Nat} (positive : 0 < t) :
    2 ^ 53 * 2 ^ t ≤ m * 2 ^ e.toNat ↔ 2 ^ 54 * (2 : ℚ) ^ t ≤ 2 * x + 2 ^ t := by
  rcases lt_or_ge e 0 with part | whole
  · have two : 2 ≤ 2 ^ t := Nat.le_self_pow positive.ne' 2
    have two_rat : (2 : ℚ) ≤ 2 ^ t := by exact_mod_cast two
    have one : (2 : ℚ) ^ e ≤ 2 ^ (0 : Int) := zpow_mono part.le
    have below := r.below
    have most := r.significand_le_limit
    have none : e.toNat = 0 := by omega
    rw [zpow_zero] at one
    rw [none, pow_zero, mul_one]
    exact iff_of_false (by omega) (by linarith)
  · obtain ⟨k, rfl⟩ := Int.eq_ofNat_of_zero_le whole
    have reaches := r.reaches_iff (t := t) (by omega)
    simp only [zpow_natCast] at reaches
    rw [← reaches, Int.toNat_natCast]
    exact_mod_cast Iff.rfl

/-- Between two numbers next to each other that are doubles a quotient ends up at the upper one just if it is
more than half a unit above the lower one, or half of it and the lower one's significand is odd. -/
theorem ceilScaled_eq {q : Nat} (small : e ≤ 0) (low : (q : ℚ) ≤ x) (high : x ≤ q + 1) :
    ceilScaled m e = if 2 * q + 2 ^ e < 2 * x ∨ 2 * q + 2 ^ e = 2 * x ∧ e = 0 ∧ q % 2 = 1 then q + 1 else q := by
  have unit : (0 : ℚ) < 2 ^ e := zpow_pos two_pos e
  obtain ⟨u, inverse, odd⟩ := exists_inverse small
  have scaled (k : Nat) : ((k * u : Nat) : ℚ) * 2 ^ e = k := by
    rw [Nat.cast_mul, mul_assoc, inverse, mul_one]
  have lower : q * u ≤ m := r.le_significand (by rwa [scaled])
  have upper : m ≤ (q + 1) * u := r.significand_le (by rwa [scaled, Nat.cast_add_one])
  have value_le : (m : ℚ) * 2 ^ e ≤ q + 1 := by
    have le := mul_le_mul_of_nonneg_right (Nat.cast_le (α := ℚ).mpr upper) unit.le
    rwa [scaled, Nat.cast_add_one] at le
  have step : q * u + 1 ≤ m ↔ 2 * q + 2 ^ e < 2 * x ∨ 2 * q + 2 ^ e = 2 * x ∧ e = 0 ∧ q % 2 = 1 := by
    have half : (2 * ((q * u + 1 : Nat) : ℚ) - 1) * 2 ^ e = 2 * q + 2 ^ e := by
      have whole := scaled q
      push_cast at whole ⊢
      linarith
    have parity : (q * u + 1) % 2 = 0 ↔ e = 0 ∧ q % 2 = 1 := by
      rw [← odd, ← Nat.odd_iff, ← Nat.odd_iff, ← Nat.even_iff, Nat.even_add_one, Nat.not_even_iff_odd,
        Nat.odd_mul, and_comm]
    rw [r.nearest, half, parity]
  split
  case isTrue above =>
    have more := mul_lt_mul_of_pos_right (Nat.cast_lt (α := ℚ).mpr (Nat.lt_of_succ_le (step.mpr above))) unit
    rw [scaled] at more
    refine le_antisymm (ceilScaled_le_iff.mpr (by exact_mod_cast value_le)) ?_
    by_contra! less
    have le := ceilScaled_le_iff.mp (Nat.lt_succ_iff.mp less)
    linarith
  case isFalse below =>
    have last : ¬ q * u + 1 ≤ m := fun more => below (step.mp more)
    obtain rfl : m = q * u := by omega
    have value := scaled q
    refine le_antisymm (ceilScaled_le_iff.mpr value.le) ?_
    exact_mod_cast value.ge.trans (ceilScaled_le_iff.mp le_rfl)

/-- From 2^53 on a quotient is rounded to its ceiling just if that has no more than 53 significant bits. -/
theorem ceilScaled_eq_iff {c : Nat} (large : 0 < e) (low : x ≤ c) (high : (c : ℚ) < x + 1) :
    ceilScaled m e = c ↔ ∃ a j : Nat, a < 2 ^ 53 ∧ c = a * 2 ^ j := by
  have unit : (0 : ℚ) < 2 ^ e := zpow_pos two_pos e
  obtain ⟨k, rfl⟩ : ∃ k : Nat, e = k := ⟨e.toNat, by omega⟩
  have value : ceilScaled m k = m * 2 ^ k := ceilScaled_of_nonneg m large.le
  rw [value]
  constructor
  · rintro rfl
    rcases Nat.lt_or_ge m (2 ^ 53) with less | more
    · exact ⟨m, k, less, rfl⟩
    · obtain rfl := le_antisymm r.significand_le_limit more
      exact ⟨2 ^ 52, k + 1, by norm_num, by ring⟩
  · rintro ⟨a, j, small, rfl⟩
    have leading := (r.leading (by omega)).trans low
    obtain ⟨i, rfl⟩ := Nat.exists_eq_add_of_le (last_place_le small (by exact_mod_cast leading))
    have split : a * 2 ^ (k + i) = a * 2 ^ i * 2 ^ k := by ring
    have scaled : ((a * 2 ^ i : Nat) : ℚ) * 2 ^ (k : Int) = ((a * 2 ^ (k + i) : Nat) : ℚ) := by
      rw [split, zpow_natCast, Nat.cast_mul _ (2 ^ k), Nat.cast_pow, Nat.cast_ofNat]
    have two : (2 : ℚ) ≤ 2 ^ (k : Int) := by
      calc (2 : ℚ) = 2 ^ (1 : Int) := (zpow_one 2).symm
        _ ≤ 2 ^ (k : Int) := zpow_mono large
    have upper : m ≤ a * 2 ^ i := r.significand_le (by rwa [scaled])
    have lower : a * 2 ^ i ≤ m := (r.nearest _).mpr (.inl (by rw [sub_mul, mul_assoc, scaled]; linarith))
    rw [split, le_antisymm upper lower]

end Rounded

end ZigBindings.Layout
