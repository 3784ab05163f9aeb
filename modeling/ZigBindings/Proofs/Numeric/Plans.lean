import Mathlib.Tactic.Ring
import Mathlib.Tactic.Linarith
import ZigBindings.Numeric

/-! What a conversion plan does to a value. Integers are two's complement, and of a float only the
bit pattern is known. Every step of a plan is one that the target language accepts, and all steps
together keep the bits of the value: they grow by copies of the sign or by zeros, and shrink to the
low ones. -/

namespace ZigBindings

namespace Numeric

/-- Whether the upper half of the bit patterns stands for negative numbers. -/
def hasSign (n : Numeric) : Bool := n.signed && !n.floating

/-- The values of the type: its integers, and for a float the bit patterns. -/
def Holds (n : Numeric) (x : Int) : Prop :=
  if n.hasSign then -2 ^ (n.bits - 1) ≤ x ∧ x < 2 ^ (n.bits - 1) else 0 ≤ x ∧ x < 2 ^ n.bits

instance (n : Numeric) (x : Int) : Decidable (n.Holds x) :=
  inferInstanceAs (Decidable (if n.hasSign then _ else _))

/-- The bit pattern of a value. -/
def pattern (n : Numeric) (x : Int) : BitVec n.bits := BitVec.ofInt n.bits x

def ofPattern (n : Numeric) (p : BitVec n.bits) : Int :=
  if n.hasSign then p.toInt else p.toNat

end Numeric

namespace Step

/-- The casts between integers, and from bit patterns to bit patterns, that the target language
accepts. One without a builtin goes to a type that has all the values of its source, a
reinterpretation keeps the width, and a truncation keeps the signedness and loses bits. -/
def Legal (src : Numeric) (s : Step) : Prop :=
  match s.cast with
  | none => src.floating = false ∧ s.target.floating = false ∧
      ∀ x, src.Holds x → s.target.Holds x
  | some .bitCast => src.bits = s.target.bits
  | some .truncate => src.floating = false ∧ s.target.floating = false ∧
      src.signed = s.target.signed ∧ s.target.bits < src.bits
  | some .floatCast => False

/-- What a step makes of a value: a builtin takes the low bits of its pattern. -/
def value (src : Numeric) (s : Step) (x : Int) : Int :=
  match s.cast with
  | none => x
  | some _ => s.target.ofPattern ((src.pattern x).setWidth s.target.bits)

end Step

namespace Numeric

/-- Every step of the plan is accepted where it stands, and the last one ends in the type. -/
def Accepts (src : Numeric) : List Step → Numeric → Prop
  | [], dst => src = dst
  | s :: rest, dst => s.Legal src ∧ s.target.Accepts rest dst

/-- What the steps of a plan make of a value, one after the other. -/
def follow (src : Numeric) : List Step → Int → Int
  | [], x => x
  | s :: rest, x => s.target.follow rest (s.value src x)

variable {m n src mid dst : Numeric} {x : Int}

theorem ofPattern_holds (n : Numeric) (p : BitVec n.bits) : n.Holds (n.ofPattern p) := by
  unfold Holds ofPattern
  cases n.hasSign with
  | true => exact ⟨BitVec.le_toInt p, BitVec.toInt_lt⟩
  | false =>
    change (0 : Int) ≤ (p.toNat : Int) ∧ (p.toNat : Int) < 2 ^ n.bits
    exact ⟨Int.natCast_nonneg _, by exact_mod_cast p.isLt⟩

theorem pattern_ofPattern (n : Numeric) (p : BitVec n.bits) : n.pattern (n.ofPattern p) = p := by
  unfold pattern ofPattern
  cases n.hasSign with
  | true => exact BitVec.ofInt_toInt
  | false =>
    change BitVec.ofInt n.bits (p.toNat : Int) = p
    rw [BitVec.ofInt_natCast, BitVec.ofNat_toNat, BitVec.setWidth_eq]

theorem toNat_pattern (holds : n.Holds x) (unsigned : n.hasSign = false) :
    ((n.pattern x).toNat : Int) = x := by
  simp only [Holds, unsigned, Bool.false_eq_true, if_false] at holds
  have whole : x % ((2 ^ n.bits : Nat) : Int) = x := by
    apply Int.emod_eq_of_lt holds.1
    exact_mod_cast holds.2
  rw [pattern, BitVec.toNat_ofInt, whole, Int.toNat_of_nonneg holds.1]

theorem toInt_pattern (positive : 0 < n.bits) (holds : n.Holds x) (signed : n.hasSign = true) :
    (n.pattern x).toInt = x := by
  simp only [Holds, signed, if_true] at holds
  exact BitVec.toInt_ofInt_eq_self positive holds.1 holds.2

theorem ofPattern_pattern (positive : 0 < n.bits) (holds : n.Holds x) :
    n.ofPattern (n.pattern x) = x := by
  unfold ofPattern
  cases sign : n.hasSign with
  | true => exact toInt_pattern positive holds sign
  | false => exact toNat_pattern holds sign

theorem setWidth_ofInt {low high : Nat} (le : low ≤ high) (x : Int) :
    (BitVec.ofInt high x).setWidth low = BitVec.ofInt low x := by
  have divides : ((2 ^ low : Nat) : Int) ∣ ((2 ^ high : Nat) : Int) := by
    exact_mod_cast Nat.pow_dvd_pow 2 le
  have nonneg : ∀ k : Nat, 0 ≤ x % ((2 ^ k : Nat) : Int) := fun k =>
    Int.emod_nonneg x (by exact_mod_cast Nat.ne_of_gt (Nat.two_pow_pos k))
  apply BitVec.eq_of_toNat_eq
  rw [BitVec.toNat_setWidth, BitVec.toNat_ofInt, BitVec.toNat_ofInt]
  apply Int.ofNat.inj
  change (((x % ((2 ^ high : Nat) : Int)).toNat % 2 ^ low : Nat) : Int) =
    ((x % ((2 ^ low : Nat) : Int)).toNat : Int)
  rw [Int.natCast_emod, Int.toNat_of_nonneg (nonneg high), Int.toNat_of_nonneg (nonneg low),
    Int.emod_emod_of_dvd x divides]

/-- The value of the type that has the low bits of a number. -/
def wrap (n : Numeric) (x : Int) : Int := n.ofPattern (n.pattern x)

theorem wrap_holds (n : Numeric) (x : Int) : n.Holds (n.wrap x) := ofPattern_holds n _

theorem pattern_wrap (n : Numeric) (x : Int) : n.pattern (n.wrap x) = n.pattern x :=
  pattern_ofPattern n _

theorem wrap_of_holds (positive : 0 < n.bits) (holds : n.Holds x) : n.wrap x = x :=
  ofPattern_pattern positive holds

theorem wrap_wrap (le : m.bits ≤ n.bits) (x : Int) : m.wrap (n.wrap x) = m.wrap x := by
  have patterns : m.pattern (n.wrap x) = m.pattern x := by
    calc m.pattern (n.wrap x) = (n.pattern (n.wrap x)).setWidth m.bits := (setWidth_ofInt le _).symm
      _ = (n.pattern x).setWidth m.bits := by rw [pattern_wrap]
      _ = m.pattern x := setWidth_ofInt le x
  rw [wrap, patterns, wrap]

theorem value_wrap {s : Step} (positive : 0 < s.target.bits) (legal : s.Legal src)
    (holds : src.Holds x) : s.value src x = s.target.wrap x := by
  obtain ⟨cast, target⟩ := s
  have low : target.bits ≤ src.bits →
      target.ofPattern ((src.pattern x).setWidth target.bits) = target.wrap x := by
    intro le
    rw [pattern, setWidth_ofInt le, wrap, pattern]
  cases cast with
  | none => exact (wrap_of_holds positive (legal.2.2 x holds)).symm
  | some builtin =>
    cases builtin with
    | bitCast => exact low (Nat.le_of_eq legal.symm)
    | truncate => exact low (Nat.le_of_lt legal.2.2.2)
    | floatCast => exact legal.elim

theorem accepts_append {first second : List Step} (left : src.Accepts first mid)
    (right : mid.Accepts second dst) : src.Accepts (first ++ second) dst := by
  induction first generalizing src with
  | nil =>
    cases left
    exact right
  | cons s rest ih => exact ⟨left.1, ih left.2⟩

theorem follow_append {first second : List Step} (accepted : src.Accepts first mid) (x : Int) :
    src.follow (first ++ second) x = mid.follow second (src.follow first x) := by
  induction first generalizing src x with
  | nil =>
    cases accepted
    rfl
  | cons s rest ih => exact ih accepted.2 (s.value src x)

/-- The steps lead from one type to the other, and leave the low bits of every value. -/
structure Carries (src : Numeric) (steps : List Step) (dst : Numeric) : Prop where
  accepts : src.Accepts steps dst
  wraps : ∀ x, src.Holds x → src.follow steps x = dst.wrap x

namespace Carries

theorem nil (positive : 0 < n.bits) : Carries n [] n where
  accepts := rfl
  wraps _ holds := (wrap_of_holds positive holds).symm

theorem single {s : Step} (positive : 0 < s.target.bits) (legal : s.Legal src) :
    Carries src [s] s.target where
  accepts := ⟨legal, rfl⟩
  wraps _ holds := value_wrap positive legal holds

theorem append {first second : List Step} (left : Carries src first mid)
    (right : Carries mid second dst) (positive : 0 < mid.bits)
    (keeps : dst.bits ≤ mid.bits ∨ ∀ x, src.Holds x → mid.Holds x) :
    Carries src (first ++ second) dst where
  accepts := accepts_append left.accepts right.accepts
  wraps x holds := by
    rw [follow_append left.accepts, left.wraps x holds, right.wraps _ (wrap_holds mid x)]
    rcases keeps with narrow | wide
    · exact wrap_wrap narrow x
    · rw [wrap_of_holds positive (wide x holds)]

end Carries

theorem two_pow_le {a b : Nat} (le : a ≤ b) : (2 : Int) ^ a ≤ 2 ^ b := by
  exact_mod_cast Nat.pow_le_pow_right Nat.two_pos le

/-- A wider integer type has all the values of a narrower one, unless only the narrower one has
negative values. -/
theorem Holds.wider (holds : src.Holds x) (lt : src.bits < dst.bits)
    (signs : src.hasSign = true → dst.hasSign = true) : dst.Holds x := by
  unfold Holds at holds ⊢
  cases signed : src.hasSign with
  | true =>
    rw [signed, if_pos rfl] at holds
    rw [signs signed, if_pos rfl]
    have room := two_pow_le (show src.bits - 1 ≤ dst.bits - 1 by omega)
    exact ⟨by omega, by omega⟩
  | false =>
    rw [signed, if_neg Bool.false_ne_true] at holds
    have room := two_pow_le (show src.bits ≤ dst.bits - 1 by omega)
    have whole := two_pow_le (show dst.bits - 1 ≤ dst.bits by omega)
    split
    · exact ⟨by omega, by omega⟩
    · exact ⟨holds.1, by omega⟩

theorem hasSign_integer (integer : n.floating = false) : n.hasSign = n.signed := by
  rw [hasSign, integer, Bool.not_false, Bool.and_true]

theorem planInteger_carries (fromInteger : src.floating = false) (toInteger : dst.floating = false)
    (positive : 0 < src.bits) (also : 0 < dst.bits) : Carries src (planInteger src dst) dst := by
  unfold planInteger
  by_cases same : src = dst
  · rw [if_pos same, same]
    exact .nil also
  rw [if_neg same]
  by_cases even : src.bits = dst.bits
  · rw [if_pos even]
    exact .single also even
  rw [if_neg even]
  by_cases wider : src.bits < dst.bits
  · rw [if_pos wider]
    by_cases unsigns : (src.signed && !dst.signed) = true
    · -- The sign fills the width first, since no cast without a builtin drops it.
      rw [if_pos unsigns]
      let wide : Numeric := ⟨dst.bits, true, false⟩
      have fills : ∀ x, src.Holds x → wide.Holds x := fun x holds =>
        holds.wider wider fun _ => rfl
      have filled : Carries src [⟨none, wide⟩] wide := .single also ⟨fromInteger, rfl, fills⟩
      have turned : Carries wide [⟨some .bitCast, dst⟩] dst := .single also rfl
      exact filled.append turned also (.inl (Nat.le_refl _))
    · rw [if_neg unsigns]
      have signs : src.hasSign = true → dst.hasSign = true := by
        rw [hasSign_integer fromInteger, hasSign_integer toInteger]
        intro signed
        simpa [signed] using unsigns
      exact .single also
        ⟨fromInteger, toInteger, fun x holds => holds.wider wider signs⟩
  rw [if_neg wider]
  have narrower : dst.bits < src.bits := by omega
  by_cases differ : (src.signed != dst.signed) = true
  · rw [if_pos differ]
    let alike : Numeric := ⟨src.bits, dst.signed, false⟩
    have turned : Carries src [⟨some .bitCast, alike⟩] alike := .single positive rfl
    have cut : Carries alike [⟨some .truncate, dst⟩] dst :=
      .single also ⟨rfl, toInteger, rfl, narrower⟩
    exact turned.append cut positive (.inl (Nat.le_of_lt narrower))
  · rw [if_neg differ]
    have signs : src.signed = dst.signed := by simpa using differ
    exact .single also ⟨fromInteger, toInteger, signs, narrower⟩

theorem holds_unsignedOf (floating : src.floating = true) (holds : src.Holds x) :
    src.unsignedOf.Holds x := by
  have unsigned : src.hasSign = false := by rw [hasSign, floating, Bool.not_true, Bool.and_false]
  rw [Holds, unsigned, if_neg Bool.false_ne_true] at holds
  exact holds

theorem plan_carries (positive : 0 < src.bits) (also : 0 < dst.bits)
    (mixed : ¬ (src.floating = true ∧ dst.floating = true)) : Carries src (plan src dst) dst := by
  unfold plan
  by_cases same : src = dst
  · rw [if_pos same, same]
    exact .nil also
  rw [if_neg same]
  cases floats : src.floating with
  | true =>
    cases alsoFloats : dst.floating with
    | true => exact absurd ⟨floats, alsoFloats⟩ mixed
    | false =>
      have opened : Carries src [⟨some .bitCast, src.unsignedOf⟩] src.unsignedOf :=
        .single positive rfl
      have converted : Carries src.unsignedOf (planInteger src.unsignedOf dst) dst :=
        planInteger_carries rfl alsoFloats positive also
      exact opened.append converted positive (.inr fun x holds => holds_unsignedOf floats holds)
  | false =>
    cases alsoFloats : dst.floating with
    | true =>
      have converted : Carries src (planInteger src dst.unsignedOf) dst.unsignedOf :=
        planInteger_carries floats rfl positive also
      have closed : Carries dst.unsignedOf [⟨some .bitCast, dst⟩] dst := .single also rfl
      exact converted.append closed also (.inl (Nat.le_refl _))
    | false => exact planInteger_carries floats alsoFloats positive also

theorem pattern_widened (positive : 0 < src.bits) (holds : src.Holds x)
    (signed : src.hasSign = true) : (src.pattern x).signExtend dst.bits = dst.pattern x := by
  change BitVec.ofInt dst.bits (src.pattern x).toInt = dst.pattern x
  rw [toInt_pattern positive holds signed, pattern]

theorem pattern_padded (holds : src.Holds x) (unsigned : src.hasSign = false) :
    (src.pattern x).setWidth dst.bits = dst.pattern x := by
  rw [← BitVec.ofNat_toNat, ← BitVec.ofInt_natCast, toNat_pattern holds unsigned, pattern]

/-- A plan between types that are not both floats has only steps that are accepted where they stand.
It takes every value to the value with the same bits: the low ones where the target is narrower, and
elsewhere all of them, behind copies of the sign of a signed integer and behind zeros in front of
other patterns. So the plan back from a type that is at least as wide restores the value. -/
theorem plan_keeps_bits {src dst : Numeric} (positive : 0 < src.bits) (also : 0 < dst.bits)
    (mixed : ¬ (src.floating = true ∧ dst.floating = true)) :
    src.Accepts (plan src dst) dst ∧ ∀ x, src.Holds x →
      dst.Holds (src.follow (plan src dst) x) ∧
      (dst.bits < src.bits →
        dst.pattern (src.follow (plan src dst) x) = (src.pattern x).setWidth dst.bits) ∧
      (src.bits ≤ dst.bits → src.hasSign = true →
        dst.pattern (src.follow (plan src dst) x) = (src.pattern x).signExtend dst.bits) ∧
      (src.bits ≤ dst.bits → src.hasSign = false →
        dst.pattern (src.follow (plan src dst) x) = (src.pattern x).setWidth dst.bits) ∧
      (src.bits ≤ dst.bits →
        dst.follow (plan dst src) (src.follow (plan src dst) x) = x) := by
  have there := plan_carries positive also mixed
  have back := plan_carries also positive fun both => mixed both.symm
  refine ⟨there.accepts, fun x holds => ?_⟩
  rw [there.wraps x holds, pattern_wrap, back.wraps _ (wrap_holds dst x)]
  refine ⟨wrap_holds dst x, fun narrower => ?_, fun _ signed => ?_, fun _ unsigned => ?_,
    fun wide => ?_⟩
  · exact (setWidth_ofInt (Nat.le_of_lt narrower) x).symm
  · exact (pattern_widened positive holds signed).symm
  · exact (pattern_padded holds unsigned).symm
  · rw [wrap_wrap wide, wrap_of_holds positive holds]

/-- A signed byte on its way to an unsigned word. -/
theorem byte_keeps_bits : let byte : Numeric := ⟨8, true, false⟩
    let word : Numeric := ⟨32, false, false⟩
    byte.Holds (-2) ∧ byte.Accepts (plan byte word) word ∧
      word.pattern (byte.follow (plan byte word) (-2)) = 0xFFFFFFFE#32 ∧
      word.follow (plan word byte) (byte.follow (plan byte word) (-2)) = -2 := by
  have held : Holds ⟨8, true, false⟩ (-2) := by decide
  have kept : Accepts ⟨8, true, false⟩ _ ⟨32, false, false⟩ ∧ _ :=
    plan_keeps_bits (by decide) (by decide) (by decide)
  obtain ⟨accepted, values⟩ := kept
  obtain ⟨-, -, extended, -, back⟩ := values (-2) held
  exact ⟨held, accepted, extended (by decide) rfl, back (by decide)⟩

end Numeric

end ZigBindings
