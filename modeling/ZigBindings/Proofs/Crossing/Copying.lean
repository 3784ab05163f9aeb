import ZigBindings.Proofs.Crossing.Numbers

/-! A value that lies at one place of memory also lies at any other place with the same bytes. What
it points to is not copied along. -/

namespace ZigBindings
open Machine

theorem Machine.Memory.load_moved {m : Memory} {source target size : Nat}
    (same : ∀ i < size, m (target + i) = m (source + i)) :
    m.load target size = m.load source size := by
  induction size generalizing source target with
  | zero => rfl
  | succ size ih =>
    have first := same 0 (by omega)
    have others : m.load (target + 1) size = m.load (source + 1) size := ih fun i bound => by
      have next := same (i + 1) (by omega)
      rw [Nat.add_assoc, Nat.add_assoc, Nat.add_comm 1 i, next]
    rw [Nat.add_zero, Nat.add_zero] at first
    rw [Memory.load, Memory.load, first, others]

namespace Tree

theorem moved_part {m : Memory} {source target size offset part : Nat}
    (same : ∀ i < size, m (target + i) = m (source + i)) (inside : offset + part ≤ size) :
    ∀ i < part, m (target + offset + i) = m (source + offset + i) := fun i bound => by
  rw [Nat.add_assoc, Nat.add_assoc]
  exact same (offset + i) (by omega)

theorem load_part {m : Memory} {source target size : Nat}
    (same : ∀ i < size, m (target + i) = m (source + i)) (offset part : Nat)
    (inside : offset + part ≤ size) :
    m.load (target + offset) part = m.load (source + offset) part :=
  Memory.load_moved (moved_part same inside)

private theorem encodedAll_moved {m : Memory} {source target size : Nat}
    (same : ∀ i < size, m (target + i) = m (source + i)) {fields : List Tree}
    (each : ∀ field ∈ fields, field.size < 2 ^ 50 → ∀ (source target : Nat) (v : Value),
      field.Encoded m source v → (∀ i < field.size, m (target + i) = m (source + i)) → field.Encoded m target v)
    {offsets : List Nat} {start : Nat}
    (placed : Layout.Placed start (fields.map Tree.extent) offsets size) (bound : size < 2 ^ 50)
    {values : List Value} (encoded : EncodedAll m fields offsets source values) :
    EncodedAll m fields offsets target values := by
  induction fields generalizing offsets start values with
  | nil =>
    cases values with
    | nil => cases offsets <;> exact trivial
    | cons v values => exact encoded.elim
  | cons t rest ih =>
    cases offsets with
    | nil => exact placed.elim
    | cons o offsets =>
      cases values with
      | nil => exact encoded.elim
      | cons v values =>
        obtain ⟨-, others⟩ := placed
        have inside := others.le
        have small : t.extent.size < 2 ^ 50 := by omega
        exact ⟨each t (by simp) small _ _ v encoded.1 (moved_part same inside),
          ih (fun field member => each field (by simp [member])) others encoded.2⟩

variable {a : Arena}

theorem Encoded.moved {t : Tree} (unfolds : t.Unfolds a) (bound : t.size < 2 ^ 50) {m : Memory}
    {source target : Nat} {v : Value} (encoded : t.Encoded m source v)
    (same : ∀ i < t.size, m (target + i) = m (source + i)) : t.Encoded m target v := by
  induction t generalizing source target v with
  | prim p =>
    cases v with
    | text bytes =>
      obtain ⟨rfl, text, length⟩ := encoded
      have pointer := load_part same 0 4 (by decide)
      have count := load_part same 4 4 (by decide)
      rw [Nat.add_zero, Nat.add_zero] at pointer
      exact ⟨rfl, by rw [pointer]; exact text, by rw [count]; exact length⟩
    | scalar bits =>
      obtain ⟨small, access, found, loaded⟩ := encoded
      have sizes : (prim p).size = access.size := access_size found
      rw [sizes] at same
      exact ⟨small, access, found, by rw [Memory.load_moved same]; exact loaded⟩
    | _ => exact encoded.elim
  | product form id fields offsets extent ih =>
    cases v with
    | product found items =>
      exact ⟨encoded.1, encodedAll_moved same (fun field member small source target v encoded same =>
        ih field member (mirrorsAll_iff.mp unfolds.2.2 field member) small encoded same)
        (product_placed unfolds bound) bound encoded.2⟩
    | _ => exact encoded.elim
  | enumeration id count extent =>
    cases v with
    | choice index =>
      have inside := enumeration_placed unfolds bound
      rw [← discriminantAccess_size] at inside
      have whole : (enumeration id count extent).size = extent.size := rfl
      have tag := load_part same 0 (Crossing.discriminantAccess count).size (by omega)
      rw [Nat.add_zero, Nat.add_zero] at tag
      exact ⟨encoded.1, by rw [tag]; exact encoded.2⟩
    | _ => exact encoded.elim
  | option id payload start extent ih =>
    obtain ⟨behind, inside⟩ := option_placed unfolds bound
    have whole : (option id payload start extent).size = extent.size := rfl
    rw [whole] at same
    have tag := load_part same 0 1 (by omega)
    rw [Nat.add_zero, Nat.add_zero] at tag
    cases v with
    | absent => exact tag.trans encoded
    | present inner =>
      exact ⟨tag.trans encoded.1, ih unfolds.2.2 (by omega) encoded.2 (moved_part same inside)⟩
    | _ => exact encoded.elim
  | list id element =>
    cases v with
    | list items =>
      obtain ⟨elements, length⟩ := encoded
      have eight : (list id element).size = 8 := rfl
      have pointer := load_part same 0 4 (by omega)
      have count := load_part same 4 4 (by omega)
      rw [Nat.add_zero, Nat.add_zero] at pointer
      exact ⟨by rw [pointer]; exact elements, by rw [count]; exact length⟩
    | _ => exact encoded.elim
  | synonym id target ih => exact ih unfolds.2 bound encoded same

theorem EncodedAll.moved {fields : List Tree} (unfolds : UnfoldsAll a fields) {offsets : List Nat}
    {m : Memory} {source target start size : Nat}
    (placed : Layout.Placed start (fields.map Tree.extent) offsets size) (bound : size < 2 ^ 50)
    {values : List Value} (encoded : EncodedAll m fields offsets source values)
    (same : ∀ i < size, m (target + i) = m (source + i)) :
    EncodedAll m fields offsets target values :=
  encodedAll_moved same (fun field member small _ _ _ encoded same =>
    encoded.moved (mirrorsAll_iff.mp unfolds field member) small same) placed bound encoded

end Tree

end ZigBindings
