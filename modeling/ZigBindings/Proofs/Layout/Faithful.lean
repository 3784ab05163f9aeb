import Mathlib.Algebra.Order.Floor.Semifield
import Mathlib.Data.Nat.Cast.Order.Field
import Mathlib.Order.Bounds.Basic
import ZigBindings.Proofs.Layout.Quotients

/-! Where rounding up is exact. The quotient's ceiling has to be a double, and a rest behind the whole part has
to show in the rounded quotient. Both can be read off the two numbers, without rounding anything. -/

namespace ZigBindings.Layout

/-! ### Least multiples -/

def roundUp (x alignment : Nat) : Nat := (x + alignment - 1) / alignment * alignment

theorem dvd_roundUp (x alignment : Nat) : alignment ∣ roundUp x alignment := Nat.dvd_mul_left _ _

theorem roundUp_bounds {alignment : Nat} (positive : 0 < alignment) (x : Nat) :
    x ≤ roundUp x alignment ∧ roundUp x alignment < x + alignment := by
  have divided := Nat.div_add_mod (x + alignment - 1) alignment
  have rest := Nat.mod_lt (x + alignment - 1) positive
  rw [Nat.mul_comm] at divided
  unfold roundUp
  omega

theorem isLeast_roundUp {n d : Nat} (positive : 0 < d) :
    IsLeast {y : Int | (d : Int) ∣ y ∧ (n : Int) ≤ y} (roundUp n d : Nat) := by
  refine ⟨⟨Int.natCast_dvd_natCast.mpr (dvd_roundUp n d), Int.ofNat_le.mpr (roundUp_bounds positive n).1⟩, ?_⟩
  rintro y ⟨divides, above⟩
  obtain ⟨k, rfl⟩ := Int.eq_ofNat_of_zero_le ((Int.natCast_nonneg n).trans above)
  obtain ⟨times, rfl⟩ := Int.natCast_dvd_natCast.mp divides
  have bound : n ≤ d * times := Int.ofNat_le.mp above
  refine Int.ofNat_le.mpr ?_
  rw [roundUp, Nat.mul_comm d]
  refine Nat.mul_le_mul_right d ((Nat.div_le_iff_le_mul_add_pred positive).mpr ?_)
  omega

/-! ### The numbers that doubles hold -/

/-- A number that a double holds: it has 53 significant bits at most. -/
def IsDouble (n : Nat) : Prop := n < 2 ^ 1024 ∧ ∃ a j : Nat, a < 2 ^ 53 ∧ n = a * 2 ^ j

theorem two_pow_split {s t u : Nat} (sum : u = s + t) : Nat.pow 2 u = 2 ^ s * 2 ^ t := by
  subst sum
  exact pow_add 2 s t

theorem lt_two_pow_add {t : Nat} (positive : 0 < t) : 2 ^ 53 < 2 ^ 53 * 2 ^ t :=
  lt_mul_of_one_lt_right (by omega) (Nat.one_lt_two_pow positive.ne')

theorem isDouble_iff (n : Nat) :
    IsDouble n ↔ n < 2 ^ 53 * 2 ^ 971 ∧ ∃ a j : Nat, a < 2 ^ 53 ∧ n = a * 2 ^ j := by
  rw [IsDouble]
  generalize limit : 1024 = u
  rw [← two_pow_split (s := 53) (t := 971) limit.symm]
  rfl

theorem significant_iff (n : Nat) : 2 ^ (Nat.log2 n - 52) ∣ n ↔ ∃ a j : Nat, a < 2 ^ 53 ∧ n = a * 2 ^ j := by
  constructor
  · rintro ⟨a, same⟩
    refine ⟨a, Nat.log2 n - 52, ?_, by rwa [Nat.mul_comm] at same⟩
    have high : n < 2 ^ (Nat.log2 n + 1) := Nat.lt_log2_self
    have wide : 2 ^ (Nat.log2 n + 1) ≤ 2 ^ (Nat.log2 n - 52) * 2 ^ 53 := by
      rw [← pow_add]
      exact Nat.pow_le_pow_right two_pos (by omega)
    have less : 2 ^ (Nat.log2 n - 52) * a < 2 ^ (Nat.log2 n - 52) * 2 ^ 53 := by
      rw [← same]
      exact high.trans_le wide
    exact lt_of_mul_lt_mul_left less (Nat.zero_le _)
  · rintro ⟨a, j, small, rfl⟩
    rcases Nat.eq_zero_or_pos a with rfl | positive
    · simp
    · have less : a * 2 ^ j < 2 ^ (53 + j) := by
        rw [pow_add]
        exact Nat.mul_lt_mul_of_pos_right small (by positivity)
      have bits := (Nat.log2_lt (by positivity)).mpr less
      exact (pow_dvd_pow 2 (by omega)).mul_left a

instance (n : Nat) : Decidable (IsDouble n) :=
  decidable_of_iff (n < 2 ^ 1024 ∧ 2 ^ (Nat.log2 n - 52) ∣ n) (and_congr_right fun _ => significant_iff n)

theorem isDouble_of_le {n : Nat} (small : n ≤ 2 ^ 53) : IsDouble n := by
  rw [isDouble_iff]
  refine ⟨small.trans_lt (lt_two_pow_add (by omega)), ?_⟩
  rcases small.lt_or_eq with less | rfl
  · exact ⟨n, 0, less, by omega⟩
  · exact ⟨1, 53, by omega, by omega⟩

/-- What a quotient has behind its whole part shows in the double next to it: it is more than half a unit in
the last place of the whole part, or half of one where the last place is odd and counts whole numbers. The
last place of zero is that of the least double. -/
def Shows (n d : Nat) : Prop :=
  if n < d then d < 2 ^ 1075 * n
  else
    2 ^ Nat.log2 (n / d) * d < 2 ^ 53 * (n % d) ∨
      2 ^ Nat.log2 (n / d) * d = 2 ^ 53 * (n % d) ∧ 2 ^ 52 ≤ n / d ∧ n / d % 2 = 1

instance (n d : Nat) : Decidable (Shows n d) := by
  unfold Shows
  infer_instance

/-- The quotient's ceiling is a double, and is told apart from the whole part where that is one, too. -/
def Faithful (offset alignment : Nat) : Prop :=
  IsDouble ((offset + alignment - 1) / alignment) ∧
    (alignment ∣ offset ∨ 2 ^ 53 ≤ offset / alignment ∨ Shows offset alignment)

instance (offset alignment : Nat) : Decidable (Faithful offset alignment) :=
  inferInstanceAs (Decidable (_ ∧ _))

/-! ### Quotients and their ceilings -/

section
variable {n d : Nat} (positive : 0 < d)
include positive

theorem quotient_split : (n : ℚ) / d = (n / d : Nat) + (n % d : Nat) / d := by
  have under : (0 : ℚ) < d := by exact_mod_cast positive
  have whole : (n : ℚ) = d * (n / d : Nat) + (n % d : Nat) := by exact_mod_cast (Nat.div_add_mod n d).symm
  rw [eq_comm, ← eq_sub_iff_add_eq', div_eq_iff under.ne', sub_mul, div_mul_cancel₀ _ under.ne',
    mul_comm _ (d : ℚ)]
  linarith

theorem ceiling_of_dvd (whole : d ∣ n) : (n + d - 1) / d = n / d := by
  obtain ⟨q, rfl⟩ := whole
  rw [Nat.add_sub_assoc positive, Nat.mul_add_div positive, Nat.mul_div_cancel_left q positive,
    Nat.div_eq_of_lt (by omega), Nat.add_zero]

theorem ceiling_of_not_dvd (rest : ¬ d ∣ n) : (n + d - 1) / d = n / d + 1 := by
  have more : n % d ≠ 0 := fun none => rest (Nat.dvd_of_mod_eq_zero none)
  have less := Nat.mod_lt n positive
  have divided := Nat.div_add_mod n d
  have next : d * (n / d + 1) = d * (n / d) + d := Nat.mul_add_one d (n / d)
  have split : n + d - 1 = d * (n / d + 1) + (n % d - 1) := by omega
  have small : (n % d - 1) / d = 0 := Nat.div_eq_of_lt (by omega)
  rw [split, Nat.mul_add_div positive, small, Nat.add_zero]

theorem ceiling_le : (n + d - 1) / d ≤ n / d + 1 := by
  by_cases whole : d ∣ n
  · rw [ceiling_of_dvd positive whole]
    omega
  · rw [ceiling_of_not_dvd positive whole]

theorem exponent_of_le (le : d ≤ n) :
    (doubleQuotient n d).2 = (Nat.log2 (n / d) : Int) - 52 := by
  have under : (0 : ℚ) < d := by exact_mod_cast positive
  have one : (1 : ℚ) ≤ n / d := by
    rw [one_le_div under]
    exact_mod_cast le
  have leading : Int.log 2 ((n : ℚ) / d) = Nat.log2 (n / d) := by
    rw [Int.log_of_one_le_right 2 one, Nat.floor_div_eq_div, Nat.log2_eq_log_two]
  have exponent : (doubleQuotient n d).2 = max (Int.log 2 ((n : ℚ) / d) - 52) (-1074) :=
    significandExponent_eq (positive.trans_le le) positive
  omega

theorem two_zpow_neg_lt_iff {t s : Nat} (next : t + 1 = s) :
    (2 : ℚ) ^ (-t : Int) < 2 * (n / d) ↔ d < 2 ^ s * n := by
  have under : (0 : ℚ) < d := by exact_mod_cast positive
  have power : 2 * ((n : ℚ) / d) * 2 ^ t = 2 ^ s * n / d := by
    rw [← next]
    ring
  rw [zpow_neg, zpow_natCast, inv_lt_iff_one_lt_mul₀ (by positivity), power, one_lt_div under]
  exact_mod_cast Iff.rfl

/-- A quotient below one shows where it is more than half of the least double. -/
theorem shows_small_iff (dividend : 0 < n) (small : n < d) :
    Shows n d ↔ 2 ^ (doubleQuotient n d).2 < 2 * ((n : ℚ) / d) := by
  rw [Shows, if_pos small, ← two_zpow_neg_lt_iff positive (t := 1074) rfl]
  have rounded := doubleQuotient_rounded dividend positive
  generalize (doubleQuotient n d).2 = e at rounded
  by_cases least : e = -1074
  · rw [least]
    rfl
  · have unit : (0 : ℚ) < 2 ^ e := zpow_pos two_pos e
    have leading := rounded.leading least
    have lowest : (2 : ℚ) ^ (-(1074 : Nat) : Int) ≤ 2 ^ e := zpow_mono rounded.least
    have above : 2 ^ e < 2 * ((n : ℚ) / d) := by linarith
    exact iff_of_true (lowest.trans_lt above) above

/-- The rest behind a whole part shows where it is more than half a unit of the last place. -/
theorem shows_large_iff (large : d ≤ n) (small : n / d < 2 ^ 53) :
    Shows n d ↔ 2 ^ (doubleQuotient n d).2 < 2 * ((n % d : Nat) : ℚ) / d ∨
      2 ^ (doubleQuotient n d).2 = 2 * ((n % d : Nat) : ℚ) / d ∧ (doubleQuotient n d).2 = 0 ∧ n / d % 2 = 1 := by
  have under : (0 : ℚ) < d := by exact_mod_cast positive
  have exponent := exponent_of_le positive large
  have unit : (2 : ℚ) ^ (doubleQuotient n d).2 * 2 ^ 52 = 2 ^ Nat.log2 (n / d) := by
    rw [exponent, zpow_sub₀ two_ne_zero, zpow_natCast]
    exact div_mul_cancel₀ _ (by positivity)
  have whole : (doubleQuotient n d).2 = 0 ↔ 2 ^ 52 ≤ n / d := by
    have bits : n / d ≠ 0 := (Nat.div_pos large positive).ne'
    have high := (Nat.log2_lt bits).mpr small
    rw [exponent, ← Nat.le_log2 bits]
    omega
  rw [Shows, if_neg large.not_gt, whole]
  generalize (2 : ℚ) ^ (doubleQuotient n d).2 = u at unit
  have less : 2 ^ Nat.log2 (n / d) * d < 2 ^ 53 * (n % d) ↔ u < 2 * (n % d : Nat) / d := by
    rw [lt_div_iff₀ under, ← Nat.cast_lt (α := ℚ)]
    push_cast
    rw [← unit]
    constructor <;> intro h <;> linarith
  have same : 2 ^ Nat.log2 (n / d) * d = 2 ^ 53 * (n % d) ↔ u = 2 * (n % d : Nat) / d := by
    rw [eq_div_iff under.ne', ← Nat.cast_inj (R := ℚ)]
    push_cast
    rw [← unit]
    constructor <;> intro h <;> linarith
  rw [less, same]

theorem shows_iff (rest : ¬ d ∣ n) (small : n / d < 2 ^ 53) :
    Shows n d ↔ 2 * ((n / d : Nat) : ℚ) + 2 ^ (doubleQuotient n d).2 < 2 * (n / d) ∨
      2 * ((n / d : Nat) : ℚ) + 2 ^ (doubleQuotient n d).2 = 2 * (n / d) ∧
        (doubleQuotient n d).2 = 0 ∧ n / d % 2 = 1 := by
  rcases Nat.lt_or_ge n d with less | more
  · have none : n / d = 0 := Nat.div_eq_of_lt less
    have dividend : 0 < n := Nat.pos_of_ne_zero fun zero => rest (zero ▸ Nat.dvd_zero d)
    have even : ¬ 0 % 2 = 1 := by decide
    rw [shows_small_iff positive dividend less, none, Nat.cast_zero, mul_zero, zero_add, iff_false_intro even,
      and_false, and_false, or_false]
  · have twice : 2 * (((n / d : Nat) : ℚ) + (n % d : Nat) / d) = 2 * (n / d : Nat) + 2 * (n % d : Nat) / d := by
      ring
    rw [shows_large_iff positive more small, quotient_split positive, twice, add_lt_add_iff_left, add_right_inj]

theorem ceiling_bounds : (n : ℚ) / d ≤ ((n + d - 1) / d : Nat) ∧ (((n + d - 1) / d : Nat) : ℚ) < n / d + 1 := by
  have under : (0 : ℚ) < d := by exact_mod_cast positive
  obtain ⟨low, high⟩ := roundUp_bounds positive n
  constructor
  · rw [div_le_iff₀ under]
    exact_mod_cast low
  · rw [div_add_one under.ne', lt_div_iff₀ under]
    exact_mod_cast high

theorem exponent_pos_iff (dividend : 0 < n) : 0 < (doubleQuotient n d).2 ↔ 2 ^ 53 ≤ n / d := by
  have under : (0 : ℚ) < d := by exact_mod_cast positive
  have rounded := doubleQuotient_rounded dividend positive
  generalize (doubleQuotient n d).2 = e at rounded
  have cast : 2 ^ 53 ≤ n / d ↔ (2 : ℚ) ^ 53 ≤ n / d := by
    rw [Nat.le_div_iff_mul_le positive, le_div_iff₀ under]
    exact_mod_cast Iff.rfl
  rw [cast]
  constructor
  · intro large
    have two : (2 : ℚ) ^ (1 : Int) ≤ 2 ^ e := zpow_mono large
    have leading := rounded.leading (by omega)
    rw [zpow_one] at two
    linarith
  · intro large
    by_contra! small
    have one : (2 : ℚ) ^ e ≤ 2 ^ (0 : Int) := zpow_mono small
    have below := rounded.below
    rw [zpow_zero] at one
    linarith

theorem ceilScaled_small (dividend : 0 < n) (small : n / d < 2 ^ 53) :
    ceilScaled (doubleQuotient n d).1 (doubleQuotient n d).2 =
      if d ∣ n ∨ Shows n d then (n + d - 1) / d else n / d := by
  have under : (0 : ℚ) < d := by exact_mod_cast positive
  have rounded := doubleQuotient_rounded dividend positive
  have split := quotient_split (n := n) positive
  have flat : (doubleQuotient n d).2 ≤ 0 := by
    have iff := exponent_pos_iff positive dividend
    omega
  have low : ((n / d : Nat) : ℚ) ≤ n / d := Nat.cast_div_le
  have high : (n : ℚ) / d ≤ (n / d : Nat) + 1 := by
    have less := Nat.mod_lt n positive
    have part : ((n % d : Nat) : ℚ) / d ≤ 1 := by
      rw [div_le_one under]
      exact_mod_cast less.le
    linarith
  rw [rounded.ceilScaled_eq flat low high]
  by_cases whole : d ∣ n
  · have unit : (0 : ℚ) < 2 ^ (doubleQuotient n d).2 := zpow_pos two_pos _
    have exact : (n : ℚ) / d = (n / d : Nat) := by
      rw [split, Nat.mod_eq_zero_of_dvd whole, Nat.cast_zero, zero_div, add_zero]
    rw [if_neg, if_pos (.inl whole), ceiling_of_dvd positive whole]
    rintro (less | ⟨same, -⟩) <;> linarith
  · simp only [whole, false_or, shows_iff positive whole small, ceiling_of_not_dvd positive whole]

theorem alignTo_eq : alignTo n d =
    if 2 ^ 53 * 2 ^ 971 ≤ (doubleQuotient n d).1 * 2 ^ (doubleQuotient n d).2.toNat then .error .quotientRange
    else .ok ((ceilScaled (doubleQuotient n d).1 (doubleQuotient n d).2 * d : Nat) : Int) := by
  have nonzero : (d : Int) ≠ 0 := by omega
  have above : decide ((n : Int) < 0) = false := decide_eq_false (by omega)
  have below : decide ((d : Int) < 0) = false := decide_eq_false (by omega)
  rw [alignTo, if_neg nonzero]
  generalize limit : 1024 = u
  simp only [Int.natAbs_natCast, above, below, bne_self_eq_false, Bool.false_eq_true, if_false,
    two_pow_split (s := 53) (t := 971) limit.symm, Nat.cast_mul]
  rfl

/-- A quotient overflows from half a unit below 2^1024 on. -/
theorem overflow_iff (dividend : 0 < n) :
    2 ^ 53 * 2 ^ 971 ≤ (doubleQuotient n d).1 * 2 ^ (doubleQuotient n d).2.toNat ↔
      (2 ^ 54 - 1) * 2 ^ 970 * d ≤ n := by
  have under : (0 : ℚ) < d := by exact_mod_cast positive
  have rounded := doubleQuotient_rounded dividend positive
  have next (a : ℚ) : a ^ 971 = a ^ 970 * a := pow_succ a 970
  have half : (2 ^ 54 - 1) * 2 ^ 970 * d ≤ n ↔ ((2 ^ 54 - 1) * 2 ^ 970 : ℚ) ≤ n / d := by
    have odd : ((2 ^ 54 - 1 : Nat) : ℚ) = 2 ^ 54 - 1 := by norm_num
    rw [le_div_iff₀ under, ← Nat.cast_le (α := ℚ), Nat.cast_mul, Nat.cast_mul, odd, Nat.cast_pow, Nat.cast_ofNat]
  rw [rounded.reaches_whole_iff (by norm_num), half, next]
  generalize (2 : ℚ) ^ 970 = unit
  constructor <;> intro h <;> linarith

/-- Only whole numbers overflow. -/
theorem not_overflow (dividend : 0 < n) (flat : (doubleQuotient n d).2 ≤ 0) :
    ¬ 2 ^ 53 * 2 ^ 971 ≤ (doubleQuotient n d).1 * 2 ^ (doubleQuotient n d).2.toNat := by
  have most := (doubleQuotient_rounded dividend positive).significand_le_limit
  have none : (doubleQuotient n d).2.toNat = 0 := by omega
  rw [none, pow_zero, Nat.mul_one]
  exact (most.trans_lt (lt_two_pow_add (by omega))).not_ge

theorem ceilScaled_eq_ceiling_iff (dividend : 0 < n) :
    ceilScaled (doubleQuotient n d).1 (doubleQuotient n d).2 = (n + d - 1) / d ↔
      (∃ a j : Nat, a < 2 ^ 53 ∧ (n + d - 1) / d = a * 2 ^ j) ∧ (d ∣ n ∨ 2 ^ 53 ≤ n / d ∨ Shows n d) := by
  have large := exponent_pos_iff positive dividend
  rcases Nat.lt_or_ge (n / d) (2 ^ 53) with less | more
  · have exact := (isDouble_of_le ((ceiling_le positive).trans less)).2
    have beyond : ¬ 2 ^ 53 ≤ n / d := by omega
    rw [ceilScaled_small positive dividend less, and_iff_right exact]
    by_cases whole : d ∣ n
    · simp only [whole, true_or, if_true]
    · simp only [whole, beyond, false_or]
      split
      case isTrue shows => exact iff_of_true rfl shows
      case isFalse hidden =>
        refine iff_of_false ?_ hidden
        rw [ceiling_of_not_dvd positive whole]
        omega
  · obtain ⟨low, high⟩ := ceiling_bounds (n := n) positive
    have rounded := doubleQuotient_rounded dividend positive
    rw [rounded.ceilScaled_eq_iff (large.mpr more) low high, and_iff_left (.inr (.inl more))]

omit positive in
theorem doubleQuotient_zero (d : Nat) : (doubleQuotient 0 d).1 = 0 := by
  simp [doubleQuotient, nearestQuotient]

theorem alignUp_eq : alignUp n d =
    if 2 ^ 53 * 2 ^ 971 ≤ (doubleQuotient n d).1 * 2 ^ (doubleQuotient n d).2.toNat then .error .quotientRange
    else .ok (ceilScaled (doubleQuotient n d).1 (doubleQuotient n d).2 * d) := by
  rw [alignUp, alignTo_eq positive]
  split <;> rfl

theorem alignTo_zero : alignTo 0 d = .ok 0 := by
  have quotient := alignTo_eq (n := 0) positive
  have none := ceilScaled_le 0 (doubleQuotient 0 d).2
  have limit : ¬ 2 ^ 53 * 2 ^ 971 ≤ 0 * 2 ^ (doubleQuotient 0 d).2.toNat := by
    rw [Nat.zero_mul, Nat.not_le]
    positivity
  rw [Nat.zero_mul, Nat.le_zero] at none
  rw [doubleQuotient_zero, if_neg limit, none, Nat.zero_mul] at quotient
  exact quotient

theorem alignTo_exact_iff : alignTo n d = .ok ((roundUp n d : Nat) : Int) ↔ Faithful n d := by
  rcases Nat.eq_zero_or_pos n with rfl | dividend
  · have none : (0 + d - 1) / d = 0 := Nat.div_eq_of_lt (by omega)
    rw [Nat.cast_zero, alignTo_zero positive, roundUp, none, Nat.zero_mul]
    refine iff_of_true rfl ⟨?_, .inl (Nat.dvd_zero d)⟩
    rw [none]
    exact isDouble_of_le (Nat.zero_le _)
  have ceiling := ceilScaled_eq_ceiling_iff positive dividend
  rw [alignTo_eq positive, Faithful, isDouble_iff, and_assoc, ← ceiling]
  split
  case isTrue overflow =>
    refine iff_of_false nofun fun ⟨less, exact⟩ => ?_
    have whole : 0 ≤ (doubleQuotient n d).2 := by
      by_contra! part
      exact not_overflow positive dividend part.le overflow
    rw [ceilScaled_of_nonneg _ whole] at exact
    exact absurd less (by rw [← exact]; exact overflow.not_gt)
  case isFalse finite =>
    have small := (ceilScaled_le (doubleQuotient n d).1 (doubleQuotient n d).2).trans_lt (Nat.not_le.mp finite)
    have cancel (c : Nat) : ((c * d : Nat) : Int) = (roundUp n d : Nat) ↔ c = (n + d - 1) / d := by
      rw [Nat.cast_inj, roundUp, Nat.mul_left_inj positive.ne']
    rw [Except.ok.injEq, cancel]
    exact ⟨fun exact => ⟨exact ▸ small, exact⟩, fun exact => exact.2⟩

theorem alignUp_exact_iff : alignUp n d = .ok (roundUp n d) ↔ Faithful n d := by
  rw [← alignTo_exact_iff positive, alignUp_eq positive, alignTo_eq positive]
  split
  · exact iff_of_false nofun nofun
  · rw [Except.ok.injEq, Except.ok.injEq, Nat.cast_inj]

theorem alignTo_least_iff : (∃ x, alignTo n d = .ok x ∧ IsLeast {y : Int | (d : Int) ∣ y ∧ (n : Int) ≤ y} x) ↔
    Faithful n d := by
  rw [← alignTo_exact_iff positive]
  constructor
  · rintro ⟨x, computed, least⟩
    rw [computed, least.unique (isLeast_roundUp positive)]
  · exact fun exact => ⟨_, exact, isLeast_roundUp positive⟩

/-- Below 2^53 alignments the part behind the whole one is lost wherever rounding up is not exact. -/
theorem alignTo_short (small : n / d < 2 ^ 53) (unfaithful : ¬ Faithful n d) :
    alignTo n d = .ok ((n / d * d : Nat) : Int) ∧ n / d * d < n := by
  have exact := isDouble_of_le ((ceiling_le positive).trans small)
  obtain ⟨whole, -, hidden⟩ : ¬ d ∣ n ∧ ¬ 2 ^ 53 ≤ n / d ∧ ¬ Shows n d := by
    rw [← not_or, ← not_or]
    exact fun kept => unfaithful ⟨exact, kept⟩
  have dividend : 0 < n := Nat.pos_of_ne_zero fun zero => whole (zero ▸ Nat.dvd_zero d)
  have exponent := exponent_pos_iff positive dividend
  constructor
  · rw [alignTo_eq positive, if_neg (not_overflow positive dividend (by omega)),
      ceilScaled_small positive dividend small, if_neg (not_or.mpr ⟨whole, hidden⟩)]
  · have divided := Nat.div_add_mod n d
    have rest : n % d ≠ 0 := fun none => whole (Nat.dvd_of_mod_eq_zero none)
    rw [Nat.mul_comm]
    omega

theorem faithful_of_le (small : roundUp n d ≤ 2 ^ 53) : Faithful n d := by
  refine ⟨isDouble_of_le ((Nat.le_mul_of_pos_right _ positive).trans small), ?_⟩
  by_cases whole : d ∣ n
  · exact .inl whole
  refine .inr (.inr ?_)
  have less := Nat.mod_lt n positive
  have rest : 0 < n % d := Nat.pos_of_ne_zero fun none => whole (Nat.dvd_of_mod_eq_zero none)
  rw [roundUp, ceiling_of_not_dvd positive whole, Nat.add_one_mul] at small
  unfold Shows
  split
  case isTrue below =>
    have dividend : 0 < n := Nat.pos_of_ne_zero fun zero => whole (zero ▸ Nat.dvd_zero d)
    have least (u : Nat) (more : 53 < u) : d < 2 ^ u * n :=
      calc d ≤ 2 ^ 53 := by omega
        _ < 2 ^ u := Nat.pow_lt_pow_right one_lt_two more
        _ ≤ 2 ^ u * n := Nat.le_mul_of_pos_right _ dividend
    exact least 1075 (by omega)
  case isFalse above =>
    have quotient : n / d ≠ 0 := (Nat.div_pos (Nat.not_lt.mp above) positive).ne'
    have bits := Nat.mul_le_mul_right d (Nat.log2_self_le quotient)
    exact .inl (by omega)

theorem alignTo_fails_iff : alignTo n d = .error .quotientRange ↔ (2 ^ 54 - 1) * 2 ^ 970 * d ≤ n := by
  rcases Nat.eq_zero_or_pos n with rfl | dividend
  · have limit : 0 < (2 ^ 54 - 1) * 2 ^ 970 * d := by positivity
    rw [Nat.cast_zero, alignTo_zero positive]
    exact iff_of_false nofun limit.not_ge
  · rw [alignTo_eq positive, ← overflow_iff positive dividend]
    split
    case isTrue overflow => exact iff_of_true rfl overflow
    case isFalse finite => exact iff_of_false nofun finite

end

end ZigBindings.Layout
