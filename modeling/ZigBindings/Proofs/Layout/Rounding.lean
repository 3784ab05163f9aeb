import Mathlib.Tactic.Ring
import Mathlib.Tactic.Linarith
import ZigBindings.Proofs.Layout.Faithful

/-! Rounding offsets up to the alignments of layouts. The quotient passes through a double, so the result is
sure to be the least multiple of the alignment while the offset has at most 53 bits. Beyond that it may be
inexact but is large, so a result that fits an address space was never below its offset. -/

namespace ZigBindings.Layout

/-- The alignments that layouts use: one, two, four and eight bytes. -/
def Alignable (alignment : Nat) : Prop := ∃ k ≤ 3, alignment = 2 ^ k

theorem Alignable.positive {alignment : Nat} (aligned : Alignable alignment) : 0 < alignment := by
  obtain ⟨k, -, rfl⟩ := aligned
  positivity

theorem Alignable.one : Alignable 1 := ⟨0, by omega, rfl⟩

theorem Alignable.max {a b : Nat} (left : Alignable a) (right : Alignable b) :
    Alignable (Max.max a b) := by
  rcases Nat.le_total a b with le | le
  · rwa [Nat.max_eq_right le]
  · rwa [Nat.max_eq_left le]

theorem alignUp_exact {x alignment : Nat} (aligned : Alignable alignment) (bound : x < 2 ^ 53) :
    alignUp x alignment = .ok ((x + alignment - 1) / alignment * alignment) := by
  have positive := aligned.positive
  obtain ⟨k, small, rfl⟩ := aligned
  have whole : 2 ^ 53 = 2 ^ k * 2 ^ (53 - k) := by
    rw [← Nat.pow_add, Nat.add_sub_cancel' (by omega)]
  have ceiling : (x + 2 ^ k - 1) / 2 ^ k ≤ 2 ^ (53 - k) := by
    rw [Nat.div_le_iff_le_mul_add_pred positive, ← whole]
    omega
  refine (alignUp_exact_iff positive).mpr (faithful_of_le positive ?_)
  rw [whole, Nat.mul_comm]
  exact Nat.mul_le_mul_right _ ceiling

theorem alignUp_large {x y alignment : Nat} (aligned : Alignable alignment) (large : 2 ^ 53 ≤ x)
    (rounded : alignUp x alignment = .ok y) : 2 ^ 53 ≤ y := by
  have positive := aligned.positive
  obtain ⟨k, small, rfl⟩ := aligned
  have quotient := doubleQuotient_rounded (by omega : 0 < x) positive
  rw [alignUp_eq positive] at rounded
  split at rounded
  case isTrue => cases rounded
  case isFalse =>
    cases rounded
    have unit : (0 : ℚ) < 2 ^ k := by positivity
    have share : 2 ^ 53 * (2 : ℚ) ^ (-k : Int) = 2 ^ 53 / 2 ^ k := by
      rw [zpow_neg, zpow_natCast, div_eq_mul_inv]
    have offset : (2 : ℚ) ^ 53 ≤ x := by exact_mod_cast large
    have reached : 2 ^ 53 * (2 : ℚ) ^ (-k : Int) ≤ x / (2 ^ k : Nat) := by
      rw [share, Nat.cast_pow, Nat.cast_ofNat]
      exact div_le_div_of_nonneg_right offset unit.le
    have value := (quotient.reaches_iff (t := -k) (by omega)).mpr (by linarith [zpow_pos (two_pos (α := ℚ)) (-k)])
    have ceiling := value.trans (ceilScaled_le_iff.mp le_rfl)
    rw [share, div_le_iff₀ unit] at ceiling
    exact_mod_cast ceiling

/-- A rounded offset that fits an address space is not below the offset itself. -/
theorem alignUp_le {x y alignment : Nat} (aligned : Alignable alignment)
    (rounded : alignUp x alignment = .ok y) (bound : y < 2 ^ 50) : x ≤ y := by
  by_cases small : x < 2 ^ 53
  · rw [alignUp_exact aligned small] at rounded
    cases rounded
    exact (roundUp_bounds aligned.positive x).1
  · have := alignUp_large aligned (by omega) rounded
    omega

end ZigBindings.Layout
