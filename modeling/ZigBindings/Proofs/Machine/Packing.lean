import Mathlib.Data.List.GetD
import ZigBindings.Proofs.Machine.State

/-! Numbers packed in memory: one behind the other, each with its lowest byte first. -/

namespace ZigBindings.Machine

def littleEndian (size bits : Nat) : List UInt8 :=
  (List.range size).map fun i => UInt8.ofNat (bits / 256 ^ i)

def packed (size : Nat) (numbers : List Nat) : List UInt8 := numbers.flatMap (littleEndian size)

@[simp] theorem littleEndian_length (size bits : Nat) : (littleEndian size bits).length = size := by
  simp [littleEndian]

theorem packed_cons (size bits : Nat) (rest : List Nat) :
    packed size (bits :: rest) = littleEndian size bits ++ packed size rest := List.flatMap_cons

@[simp] theorem packed_length (size : Nat) (numbers : List Nat) :
    (packed size numbers).length = numbers.length * size := by
  induction numbers with
  | nil => simp [packed]
  | cons bits rest ih =>
    rw [packed_cons, List.length_append, littleEndian_length, ih, List.length_cons, Nat.add_mul,
      Nat.one_mul, Nat.add_comm]

namespace Memory

variable {m : Memory} {address size bits : Nat}

theorem store_eq_storeText (m : Memory) (address size bits : Nat) :
    m.store address size bits = m.storeText address (littleEndian size bits) := by
  funext x
  rw [store, storeText, littleEndian_length]
  by_cases inside : address ≤ x ∧ x < address + size
  · have bound : x - address < size := by omega
    rw [if_pos inside, if_pos inside]
    simp [littleEndian, bound]
  · rw [if_neg inside, if_neg inside]

theorem storeText_append (m : Memory) (address : Nat) (first second : List UInt8) :
    m.storeText address (first ++ second) =
      (m.storeText address first).storeText (address + first.length) second := by
  funext x
  simp only [storeText, List.length_append]
  by_cases behind : address + first.length ≤ x
  · have same : x - address - first.length = x - (address + first.length) := by omega
    by_cases inside : x < address + first.length + second.length
    · rw [if_pos (by omega), if_pos ⟨behind, inside⟩, List.getD_append_right _ _ _ _ (by omega),
        same]
    · rw [if_neg (by omega), if_neg (by omega), if_neg (by omega)]
  · rw [if_neg (show ¬ (address + first.length ≤ x ∧ _) from fun both => behind both.1)]
    by_cases inside : address ≤ x
    · rw [if_pos (by omega), if_pos (by omega), List.getD_append _ _ _ _ (by omega)]
    · rw [if_neg (by omega), if_neg (by omega)]

theorem text_append (m : Memory) (address first second : Nat) :
    m.text address (first + second) = m.text address first ++ m.text (address + first) second := by
  simp only [text, List.range_add, List.map_append, List.map_map, Function.comp_def, Nat.add_assoc]

theorem store_mod (m : Memory) (address size bits : Nat) :
    m.store address size (bits % 256 ^ size) = m.store address size bits := by
  funext x
  rw [store, store]
  by_cases inside : address ≤ x ∧ x < address + size
  · rw [if_pos inside, if_pos inside]
    have split : 256 ^ size = 256 ^ (x - address) * (256 * 256 ^ (size - (x - address) - 1)) := by
      rw [← Nat.pow_succ', ← Nat.pow_add]
      congr 1
      omega
    apply UInt8.toNat_inj.mp
    change bits % 256 ^ size / 256 ^ (x - address) % 256 = bits / 256 ^ (x - address) % 256
    rw [split, Nat.mod_mul_right_div_self, Nat.mod_mul_right_mod]
  · rw [if_neg inside, if_neg inside]

theorem load_lt (m : Memory) (address size : Nat) : m.load address size < 256 ^ size := by
  induction size generalizing address with
  | zero => exact Nat.one_pos
  | succ size ih =>
    have byte : (m address).toNat < 256 := (m address).toNat_lt
    have rest := ih (address + 1)
    rw [load, Nat.pow_succ']
    omega

theorem load_of_text (text : m.text address size = littleEndian size bits) :
    m.load address size = bits % 256 ^ size := by
  apply load_of_bytes
  intro i bound
  have byte := congrArg (fun bytes => bytes[i]?) text
  simpa [Memory.text, littleEndian, bound] using byte

end Memory

namespace Store

theorem writeAll_packed (st : Store) (start size : Nat) (numbers : List Nat) :
    st.writeAll start size numbers =
      { st with memory := st.memory.storeText start (packed size numbers) } := by
  induction numbers generalizing st start with
  | nil =>
    have same : st.memory.storeText start [] = st.memory := by
      funext x
      exact Memory.storeText_outside fun both => absurd both.2 (Nat.not_lt.mpr both.1)
    rw [writeAll, packed, List.flatMap_nil, same]
  | cons bits rest ih =>
    rw [writeAll, ih, packed_cons, Memory.storeText_append, littleEndian_length]
    simp only [write, Memory.store_eq_storeText]

theorem readAll_packed {st : Store} {start size : Nat} {numbers : List Nat}
    (small : ∀ bits ∈ numbers, bits < 256 ^ size)
    (text : st.memory.text start (numbers.length * size) = packed size numbers) :
    st.readAll start size numbers.length = numbers := by
  induction numbers generalizing start with
  | nil => rfl
  | cons bits rest ih =>
    rw [List.length_cons, Nat.add_mul, Nat.one_mul, Nat.add_comm, Memory.text_append, packed_cons]
      at text
    obtain ⟨first, others⟩ := List.append_inj text (by simp [Memory.text])
    have loaded := Memory.load_of_text first
    rw [Nat.mod_eq_of_lt (small bits (by simp))] at loaded
    have behind := ih (fun other member => small other (by simp [member])) others
    rw [List.length_cons, readAll, loaded, behind]

end Store

end ZigBindings.Machine
