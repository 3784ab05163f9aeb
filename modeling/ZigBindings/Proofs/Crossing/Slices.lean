import ZigBindings.Proofs.Crossing.Numbers
import ZigBindings.Proofs.Machine.Steps

/-! Lists whose elements lie in memory as they lie in a slice. -/

namespace ZigBindings.Tree
open Machine

variable {a : Arena} {m : Memory} {t : Tree}

theorem encoded_core {address : Nat} {v : Value} :
    Encoded m t.core address v ↔ Encoded m t address v := by
  induction t with
  | synonym id target ih => exact ih
  | _ => exact Iff.rfl

theorem admits_core {v : Value} : t.core.Admits v ↔ t.Admits v := by
  induction t with
  | synonym id target ih => exact ih
  | _ => exact Iff.rfl

theorem extent_core : t.core.extent = t.extent := by
  induction t with
  | synonym id target ih => exact ih
  | _ => rfl

theorem number_of_numeric {p : Primitive} (numeric : (p.isInteger || p.isFloat) = true) :
    p ≠ .string := by
  rintro rfl
  cases numeric

theorem canonical_access (unfolds : t.Unfolds a) (canonical : t.isCanonical = true) :
    ∃ p access, t.core = .prim p ∧ Access.ofPrimitive? p = some access ∧
      t.extent = ⟨access.size, access.size⟩ ∧ sliceAccess a t.type = .ok access := by
  have reached := unalias_core unfolds
  cases core : t.core with
  | prim p =>
    simp only [isCanonical, core] at canonical
    obtain ⟨access, found⟩ := access_of_number (number_of_numeric canonical)
    refine ⟨p, access, rfl, found, ?_, ?_⟩
    · rw [← extent_core, core, extent, access_extent found]
    · rw [sliceAccess, reached, core]
      simp only [type, canonical, if_true, found, need_some]
  | _ => simp [isCanonical, core] at canonical

theorem encoded_number {p : Primitive} {access : Access} {address : Nat} {v : Value}
    (core : t.core = .prim p) (found : Access.ofPrimitive? p = some access)
    (encoded : t.Encoded m address v) :
    v = .scalar (m.load address access.size) ∧ m.load address access.size < 2 ^ p.bits := by
  rw [← encoded_core, core] at encoded
  cases v with
  | text bytes => exact absurd encoded.1 (number_of_access found)
  | scalar bits =>
    obtain ⟨bound, access', found', loaded⟩ := encoded
    rw [found] at found'
    cases found'
    exact ⟨by rw [loaded], by rw [loaded]; exact bound⟩
  | _ => exact encoded.elim

theorem encoded_of_load {p : Primitive} {access : Access} {address bits : Nat}
    (core : t.core = .prim p) (found : Access.ofPrimitive? p = some access)
    (bound : bits < 2 ^ p.bits) (loaded : m.load address access.size = bits) :
    t.Encoded m address (.scalar bits) := by
  rw [← encoded_core, core]
  exact ⟨bound, access, found, loaded⟩

theorem admits_number {p : Primitive} {v : Value} (core : t.core = .prim p)
    (number : p ≠ .string) (admits : t.Admits v) : ∃ bits, v = .scalar bits ∧ bits < 2 ^ p.bits := by
  rw [← admits_core, core] at admits
  cases v with
  | text bytes => exact absurd admits.1 number
  | scalar bits => exact ⟨bits, rfl, admits.2⟩
  | _ => exact admits.elim

theorem Elements.tail {element : Tree} {start : Nat} {v : Value} {rest : List Value}
    (elements : Elements m element start (v :: rest)) :
    Elements m element (start + element.size) rest := by
  obtain ⟨short, bound, each⟩ := elements
  simp only [List.length_cons, Nat.add_mul, Nat.one_mul] at short bound
  refine ⟨by omega, by omega, fun i item found => ?_⟩
  have next := each (i + 1) item (by simpa using found)
  simp only [Nat.add_mul, Nat.one_mul] at next
  have same : start + element.size + i * element.size =
      start + (i * element.size + element.size) := by omega
  rwa [same]

theorem Elements.head {element : Tree} {start : Nat} {v : Value} {rest : List Value}
    (elements : Elements m element start (v :: rest)) :
    element.Encoded m start v ∧ start + element.size ≤ 2 ^ 32 := by
  obtain ⟨-, bound, each⟩ := elements
  have first := each 0 v (by simp)
  simp only [List.length_cons, Nat.add_mul, Nat.one_mul] at bound
  exact ⟨by simpa using first, by omega⟩

theorem Elements.nil {element : Tree} {start : Nat} (bound : start ≤ 2 ^ 32) :
    Elements m element start [] :=
  ⟨by simp, by simpa using bound, by simp⟩

theorem Elements.cons {element : Tree} {start : Nat} {v : Value} {rest : List Value}
    (short : rest.length + 1 < 2 ^ 32) (first : element.Encoded m start v)
    (others : Elements m element (start + element.size) rest) :
    Elements m element start (v :: rest) := by
  obtain ⟨-, bound, each⟩ := others
  refine ⟨short, by simp only [List.length_cons, Nat.add_mul, Nat.one_mul]; omega, ?_⟩
  intro i item found
  cases i with
  | zero =>
    cases found
    simpa using first
  | succ i =>
    have next := each i item (by simpa using found)
    have same : start + (i + 1) * element.size = start + element.size + i * element.size := by
      simp only [Nat.add_mul, Nat.one_mul]
      omega
    rwa [same]

theorem readAll_elements {p : Primitive} {access : Access} {element : Tree} {items : List Value}
    {st : Store} {start : Nat} (core : element.core = .prim p)
    (found : Access.ofPrimitive? p = some access) (sizes : element.size = access.size)
    (elements : Elements st.memory element start items) :
    (st.readAll start access.size items.length).map Value.scalar = items := by
  induction items generalizing start with
  | nil => rfl
  | cons v rest ih =>
    have first := (encoded_number core found elements.head.1).1
    have tail : Elements st.memory element (start + access.size) rest := by
      rw [← sizes]
      exact elements.tail
    have others := ih tail
    simp only [List.length_cons, Store.readAll, List.map_cons, others, first]

end ZigBindings.Tree
