import Mathlib.Tactic.Ring

/-! Linear memory: bytes, numbers of several bytes with the lowest one first, and the allocator that
hands out memory nobody else holds. -/

namespace ZigBindings.Machine

abbrev Memory := Nat → UInt8

namespace Memory

def load (m : Memory) (address : Nat) : Nat → Nat
  | 0 => 0
  | size + 1 => (m address).toNat + 256 * m.load (address + 1) size

def store (m : Memory) (address size bits : Nat) : Memory := fun x =>
  if address ≤ x ∧ x < address + size then UInt8.ofNat (bits / 256 ^ (x - address)) else m x

def text (m : Memory) (address length : Nat) : List UInt8 :=
  (List.range length).map fun i => m (address + i)

def storeText (m : Memory) (address : Nat) (bytes : List UInt8) : Memory := fun x =>
  if address ≤ x ∧ x < address + bytes.length then bytes.getD (x - address) 0 else m x

def copy (m : Memory) (source target size : Nat) : Memory := fun x =>
  if target ≤ x ∧ x < target + size then m (source + (x - target)) else m x

theorem load_congr {m other : Memory} {address size : Nat}
    (same : ∀ x, address ≤ x → x < address + size → other x = m x) :
    other.load address size = m.load address size := by
  induction size generalizing address with
  | zero => rfl
  | succ size ih =>
    have first := same address (by omega) (by omega)
    have others : other.load (address + 1) size = m.load (address + 1) size :=
      ih fun x low high => same x (by omega) (by omega)
    simp only [load, first, others]

theorem load_of_bytes {m : Memory} {address size bits : Nat}
    (bytes : ∀ i < size, m (address + i) = UInt8.ofNat (bits / 256 ^ i)) :
    m.load address size = bits % 256 ^ size := by
  induction size generalizing address bits with
  | zero => simp [load, Nat.mod_one]
  | succ size ih =>
    have first := bytes 0 (by omega)
    have others : m.load (address + 1) size = bits / 256 % 256 ^ size := ih fun i bound => by
      have byte := bytes (i + 1) (by omega)
      rw [Nat.pow_succ', ← Nat.div_div_eq_div_mul] at byte
      rw [← byte]
      congr 1
      omega
    simp only [Nat.add_zero, Nat.pow_zero, Nat.div_one] at first
    rw [load, first, others, Nat.pow_succ', Nat.mod_mul]
    simp

theorem load_store (m : Memory) (address size bits : Nat) :
    (m.store address size bits).load address size = bits % 256 ^ size := by
  apply load_of_bytes
  intro i bound
  have inside : address ≤ address + i ∧ address + i < address + size := by omega
  simp only [store, if_pos inside, Nat.add_sub_cancel_left]

theorem store_outside {m : Memory} {address size bits x : Nat}
    (outside : ¬ (address ≤ x ∧ x < address + size)) : m.store address size bits x = m x :=
  if_neg outside

theorem text_congr {m other : Memory} {address length : Nat}
    (same : ∀ x, address ≤ x → x < address + length → other x = m x) :
    other.text address length = m.text address length := by
  apply List.map_congr_left
  intro i member
  have bound := List.mem_range.mp member
  exact same _ (by omega) (by omega)

theorem text_storeText (m : Memory) (address : Nat) (bytes : List UInt8) :
    (m.storeText address bytes).text address bytes.length = bytes := by
  apply List.ext_getElem
  · simp [text]
  · intro i bound bound'
    have inside : address ≤ address + i ∧ address + i < address + bytes.length := by omega
    simp only [text, List.getElem_map, List.getElem_range, storeText, if_pos inside]
    simp [bound']

theorem storeText_outside {m : Memory} {address x : Nat} {bytes : List UInt8}
    (outside : ¬ (address ≤ x ∧ x < address + bytes.length)) : m.storeText address bytes x = m x :=
  if_neg outside

end Memory

/-- The addresses from `start` up to but not including `stop`. -/
structure Region where
  start : Nat
  stop : Nat
deriving DecidableEq, Inhabited

def Region.Has (r : Region) (x : Nat) : Prop := r.start ≤ x ∧ x < r.stop

/-- The address belongs to memory that has been handed out. -/
def Covered (taken : List Region) (x : Nat) : Prop := ∃ r ∈ taken, r.Has x

/-- An allocator gives, or refuses to give, memory of a size and an alignment that holds no address
of the regions already taken. -/
structure Allocator where
  place : (taken : List Region) → (size align : Nat) → Option Nat
  inside : ∀ {taken size align start}, place taken size align = some start →
    start < 2 ^ 32 ∧ start + size ≤ 2 ^ 32
  aligned : ∀ {taken size align start}, place taken size align = some start → align ∣ start
  fresh : ∀ {taken size align start}, place taken size align = some start →
    ∀ x, start ≤ x → x < start + size → ¬ Covered taken x

def topOf (taken : List Region) : Nat := (taken.map (·.stop)).foldr max 0

theorem lt_topOf {taken : List Region} {x : Nat} (covered : Covered taken x) : x < topOf taken := by
  induction taken with
  | nil =>
    obtain ⟨r, member, -⟩ := covered
    cases member
  | cons region rest ih =>
    obtain ⟨r, member, has⟩ := covered
    simp only [topOf, List.map_cons, List.foldr_cons]
    rcases List.mem_cons.mp member with rfl | later
    · exact lt_of_lt_of_le has.2 (le_max_left _ _)
    · exact lt_of_lt_of_le (ih ⟨r, later, has⟩) (le_max_right _ _)

/-- The allocator that always goes on behind the last region, until the address space ends. -/
def Allocator.bump : Allocator where
  place taken size align :=
    let start := (topOf taken + align - 1) / align * align
    if 0 < align ∧ start < 2 ^ 32 ∧ start + size ≤ 2 ^ 32 then some start else none
  inside placed := by
    simp only [Option.ite_none_right_eq_some, Option.some.injEq] at placed
    obtain ⟨⟨-, low, high⟩, rfl⟩ := placed
    exact ⟨low, high⟩
  aligned placed := by
    simp only [Option.ite_none_right_eq_some, Option.some.injEq] at placed
    obtain ⟨-, rfl⟩ := placed
    exact Nat.dvd_mul_left _ _
  fresh {taken size align start} placed x low _ covered := by
    simp only [Option.ite_none_right_eq_some, Option.some.injEq] at placed
    obtain ⟨⟨positive, -⟩, rfl⟩ := placed
    have below := lt_topOf covered
    have divided := Nat.div_add_mod (topOf taken + align - 1) align
    have rest := Nat.mod_lt (topOf taken + align - 1) positive
    rw [Nat.mul_comm] at divided
    omega

end ZigBindings.Machine
