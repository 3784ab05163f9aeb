import Mathlib.Data.List.Basic
import ZigBindings.Name.Declaration

/-! Small letters stay small. What lower-casing makes of a letter is no capital of any script, so
lower-casing a second time changes nothing; and no letter becomes a separator. -/

namespace ZigBindings.Name
open Text

/-- No small letter of a run is a capital of the other one: they are far apart, or they take turns. -/
def apart (run other : CapitalRun) : Bool :=
  Nat.blt (run.small + (run.last - run.first)) other.first || Nat.blt other.last run.small ||
    (run.step == 2 || run.first == run.last) && other.step == 2 && (run.small + other.first) % 2 == 1

theorem runs_apart : (capitalRuns.all fun run => capitalRuns.all (apart run)) = true := by decide +kernel

theorem apart_iff {run other : CapitalRun} : apart run other = true ↔
    run.small + (run.last - run.first) < other.first ∨ other.last < run.small ∨
      (run.step = 2 ∨ run.first = run.last) ∧ other.step = 2 ∧ (run.small + other.first) % 2 = 1 := by
  simp only [apart, Bool.or_eq_true, Bool.and_eq_true, Nat.blt_eq, beq_iff_eq, or_assoc, and_assoc]

/-- Code points, in ranges, that are no small letters: what stands below them and between them, the
dotted capital I, and the spaces of every script. -/
def gaps : List (Nat × Nat) := [(0, 96), (123, 222), (304, 304), (5760, 5760), (8192, 8287), (12288, 12288)]

theorem runs_avoid_gaps : ∀ run ∈ capitalRuns, ∀ gap ∈ gaps,
    run.small + (run.last - run.first) < gap.1 ∨ gap.2 < run.small := by decide +kernel

theorem holds_iff {run : CapitalRun} {c : Char} : run.holds c = true ↔
    (run.first ≤ c.toNat ∧ c.toNat ≤ run.last) ∧ (c.toNat - run.first) % run.step = 0 := by
  rw [CapitalRun.holds, Bool.and_eq_true, Bool.and_eq_true, decide_eq_true_eq, decide_eq_true_eq, beq_iff_eq]

theorem lowerLetter_cases (c : Char) :
    (c.toNat < 128 ∧ lowerLetter c = c.toLower) ∨
    (∃ run ∈ capitalRuns, run.holds c = true ∧ (lowerLetter c).toNat = run.small + (c.toNat - run.first)) ∨
    lowerLetter c = c := by
  have valid : ∀ run ∈ capitalRuns, run.small + (run.last - run.first) < 0xd800 ∨
      0xdfff < run.small ∧ run.small + (run.last - run.first) < 0x110000 := by decide +kernel
  rw [lowerLetter]
  split
  case isTrue ascii => exact .inl ⟨ascii, rfl⟩
  case isFalse =>
    split
    case h_1 run found =>
      have known := List.mem_of_find?_eq_some found
      have holds : run.holds c = true := List.find?_some (p := (CapitalRun.holds · c)) found
      have ends := (holds_iff.mp holds).1
      have code : (run.small + (c.toNat - run.first)).isValidChar := by
        have := valid run known
        simp only [Nat.isValidChar]
        omega
      refine .inr (.inl ⟨run, known, holds, ?_⟩)
      rw [Char.ofNat, dif_pos code]
      rfl
    case h_2 => exact .inr (.inr rfl)

theorem lowerLetter_lowerLetter (c : Char) : lowerLetter (lowerLetter c) = lowerLetter c := by
  have ascii : ∀ k < 128, (Char.ofNat k).toLower.toLower = (Char.ofNat k).toLower := by decide +kernel
  have bounded : ∀ k < 128, (Char.ofNat k).toLower.toNat < 128 := by decide +kernel
  rcases lowerLetter_cases c with ⟨below, small⟩ | ⟨run, known, holds, code⟩ | same
  · have fixed := ascii c.toNat below
    have low := bounded c.toNat below
    rw [Char.ofNat_toNat] at fixed low
    rw [small, lowerLetter, if_pos low, fixed]
  · rcases lowerLetter_cases (lowerLetter c) with ⟨below, small⟩ | ⟨other, listed, hit, -⟩ | same
    · have plain : ∀ k < 128, 90 < k → (Char.ofNat k).toLower = Char.ofNat k := by decide +kernel
      have beyond := runs_avoid_gaps run known (0, 96) (by decide)
      have fixed := plain (lowerLetter c).toNat below (by omega)
      rw [Char.ofNat_toNat] at fixed
      rw [small, fixed]
    · rw [holds_iff] at holds hit
      rw [code] at hit
      have each := List.all_eq_true.mp (List.all_eq_true.mp runs_apart run known) other listed
      rcases apart_iff.mp each with far | far | ⟨single, pairs, odd⟩
      · omega
      · omega
      · rw [pairs] at hit
        rcases single with two | one
        · rw [two] at holds
          omega
        · omega
    · exact same
  · rw [same, same]

theorem lowerLetter_of_gap {c : Char} {gap : Nat × Nat} (member : gap ∈ gaps)
    (inside : gap.1 ≤ (lowerLetter c).toNat ∧ (lowerLetter c).toNat ≤ gap.2) : lowerLetter c = c := by
  have ascii : ∀ k < 128, (Char.ofNat k).toLower = Char.ofNat k ∨
      ∀ gap ∈ gaps, ¬ (gap.1 ≤ (Char.ofNat k).toLower.toNat ∧ (Char.ofNat k).toLower.toNat ≤ gap.2) := by
    decide +kernel
  rcases lowerLetter_cases c with ⟨below, small⟩ | ⟨run, known, holds, code⟩ | same
  · rw [small] at inside ⊢
    have letter := ascii c.toNat below
    rw [Char.ofNat_toNat] at letter
    exact letter.resolve_right fun other => other gap member inside
  · have ends := (holds_iff.mp holds).1
    have avoided := runs_avoid_gaps run known gap member
    omega
  · exact same

theorem isSeparator_gap {c : Char} (separates : isSeparator c = true) :
    ∃ gap ∈ gaps, gap.1 ≤ c.toNat ∧ c.toNat ≤ gap.2 := by
  simp only [isSeparator, isBlank, Bool.or_eq_true, Bool.and_eq_true, decide_eq_true_eq, beq_iff_eq,
    ← Char.toNat_inj, show '-'.toNat = 45 from rfl, show '_'.toNat = 95 from rfl, show '.'.toNat = 46 from rfl,
    show ':'.toNat = 58 from rfl, show '/'.toNat = 47 from rfl] at separates
  simp only [gaps, List.mem_cons, List.not_mem_nil, or_false, exists_eq_or_imp, exists_eq_left]
  omega

/-- No letter becomes a separator. -/
theorem isSeparator_lowerLetter {c : Char} (separates : isSeparator (lowerLetter c) = true) :
    isSeparator c = true := by
  obtain ⟨gap, member, inside⟩ := isSeparator_gap separates
  rwa [lowerLetter_of_gap member inside] at separates

/-- What a text is lower-cased to: letters made small, and what the two letters with a rule of their
own become. -/
theorem mem_lowerAfter {before s : List Char} {c : Char} (member : c ∈ lowerAfter before s) :
    c ∈ ['ς', 'σ', 'i', '\u0307'] ∨ ∃ d ∈ s, d ≠ 'İ' ∧ c = lowerLetter d := by
  induction s generalizing before with
  | nil => cases member
  | cons d rest ih =>
    rw [lowerAfter] at member
    rcases List.mem_append.mp member with first | behind
    · split at first
      · rw [List.mem_singleton] at first
        split at first <;> exact .inl (by simp [first])
      · split at first
        case isTrue => exact .inl (List.mem_of_mem_drop (i := 2) first)
        case isFalse dotted =>
          exact .inr ⟨d, List.mem_cons_self, by simpa using dotted, List.mem_singleton.mp first⟩
    · rcases ih behind with special | ⟨e, inside, dotted, same⟩
      · exact .inl special
      · exact .inr ⟨e, List.mem_cons_of_mem _ inside, dotted, same⟩

/-- Lower-casing leaves the letter alone, wherever it stands. -/
def Small (c : Char) : Prop := lowerLetter c = c ∧ c ≠ 'İ'

theorem small_of_mem_lower {s : List Char} : ∀ c ∈ lower s, Small c := by
  intro c member
  rcases mem_lowerAfter member with special | ⟨d, -, dotted, rfl⟩
  · simp only [List.mem_cons, List.not_mem_nil, or_false] at special
    rcases special with rfl | rfl | rfl | rfl <;> exact ⟨by decide +kernel, by decide⟩
  · refine ⟨lowerLetter_lowerLetter d, fun same => dotted ?_⟩
    have inside : 304 ≤ (lowerLetter d).toNat ∧ (lowerLetter d).toNat ≤ 304 := by
      rw [same]
      decide
    exact (@lowerLetter_of_gap d (304, 304) (by decide) inside).symm.trans same

theorem lowerAfter_of_small {before s : List Char} (small : ∀ c ∈ s, Small c) : lowerAfter before s = s := by
  induction s generalizing before with
  | nil => rfl
  | cons c rest ih =>
    obtain ⟨⟨fixed, dotted⟩, others⟩ := List.forall_mem_cons.mp small
    have sigma : c ≠ 'Σ' := by
      rintro rfl
      exact absurd fixed (by decide +kernel)
    rw [lowerAfter, ih others, beq_eq_false_iff_ne.mpr sigma, beq_eq_false_iff_ne.mpr dotted, fixed]
    rfl

theorem lower_lower (s : List Char) : lower (lower s) = lower s := lowerAfter_of_small small_of_mem_lower

theorem not_isSeparator_lower {s : List Char} (plain : ∀ c ∈ s, isSeparator c = false) :
    ∀ c ∈ lower s, isSeparator c = false := by
  intro c member
  rcases mem_lowerAfter member with special | ⟨d, inside, -, rfl⟩
  · simp only [List.mem_cons, List.not_mem_nil, or_false] at special
    rcases special with rfl | rfl | rfl | rfl <;> decide
  · refine Bool.eq_false_iff.mpr fun separates => ?_
    exact absurd (isSeparator_lowerLetter separates) (Bool.eq_false_iff.mp (plain d inside))

theorem lower_ne_nil {s : List Char} (some : s ≠ []) : lower s ≠ [] := by
  cases s with
  | nil => exact absurd rfl some
  | cons c rest =>
    rw [lower, lowerAfter]
    split
    · simp
    · split <;> simp

end ZigBindings.Name
