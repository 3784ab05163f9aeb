import ZigBindings.Proofs.Crossing.Numbers
import ZigBindings.Proofs.Crossing.Typing

/-! The canonical encoding of values, in linear memory and in slots, read off the arena alone: fields
at the offsets of their record, payloads behind a discriminant, texts and lists behind a pointer and a
length. Memory and slots that stand for a value by its tree are encodings of it, and the other way. -/

namespace ZigBindings
open Machine

structure Cell where
  address : Nat
  size : Nat
  bits : Nat

namespace Cell

def Has (c : Cell) : Nat → Prop := Within c.address (c.address + c.size)

def HeldBy (m : Memory) (c : Cell) : Prop := m.load c.address c.size = c.bits

theorem has_single {c : Cell} {x : Nat} : (∃ d ∈ [c], d.Has x) ↔ c.Has x := by
  simp only [List.mem_singleton, exists_eq_left]

theorem held_single {m : Memory} {c : Cell} : (∀ d ∈ [c], d.HeldBy m) ↔ c.HeldBy m := by
  simp only [List.mem_singleton, forall_eq]

def slice (address start length : Nat) : List Cell :=
  [⟨address, 4, start⟩, ⟨address + 4, 4, length⟩]

theorem has_slice {address start length x : Nat} :
    (∃ c ∈ slice address start length, c.Has x) ↔ Within address (address + 8) x := by
  simp only [slice, List.mem_cons, List.not_mem_nil, or_false, exists_eq_or_imp, exists_eq_left, Has,
    Within]
  omega

theorem held_slice {m : Memory} {address start length : Nat} :
    (∀ c ∈ slice address start length, c.HeldBy m) ↔
      m.load address 4 = start ∧ m.load (address + 4) 4 = length := by
  simp [slice, HeldBy]

theorem held_first {m : Memory} {address size bits : Nat} {rest : List Cell}
    (held : ∀ c ∈ ⟨address, size, bits⟩ :: rest, c.HeldBy m) : m.load address size = bits :=
  held ⟨address, size, bits⟩ List.mem_cons_self

end Cell

/-- The cells encode the value at the address. What a pointer among them leads to lies in memory. -/
inductive Encodes (a : Arena) (m : Memory) : Value → Ty → Nat → List Cell → Prop where
  | scalar {p : Primitive} {bits address : Nat} {access : Access}
    (found : Access.ofPrimitive? p = some access) (small : bits < 2 ^ p.bits) :
    Encodes a m (.scalar bits) (.prim p) address [⟨address, access.size, bits⟩]
  | text {bytes : List UInt8} {start address : Nat} (text : Tree.TextAt m start bytes) :
    Encodes a m (.text bytes) (.prim .string) address (Cell.slice address start bytes.length)
  | product {id address : Nat} {kind : Kind} {form : Form} {types : List Ty} {offsets : List Nat}
    {items : List Value} {rows : List (List Cell)} (found : a.kind id = .ok kind)
    (shape : kind.product? = some (form, types)) (placed : Layout.fieldOffsets a types = .ok offsets)
    (count : items.length = types.length) (width : rows.length = types.length)
    (each : ∀ (i : Nat) v ty offset row, items[i]? = some v → types[i]? = some ty →
      offsets[i]? = some offset → rows[i]? = some row → Encodes a m v ty (address + offset) row) :
    Encodes a m (.product form items) (.ref id) address rows.flatten
  | choice {id index address : Nat} {cases : List String}
    (found : a.kind id = .ok (.enumeration cases)) (small : index < cases.length) :
    Encodes a m (.choice index) (.ref id) address
      [⟨address, Layout.discriminantSize cases.length, index⟩]
  | absent {id address : Nat} {payload : Ty} (found : a.kind id = .ok (.option payload)) :
    Encodes a m .absent (.ref id) address [⟨address, 1, 0⟩]
  | present {id start address : Nat} {payload : Ty} {v : Value} {cells : List Cell}
    (found : a.kind id = .ok (.option payload)) (placed : Layout.payloadOffset a id = .ok start)
    (inner : Encodes a m v payload (address + start) cells) :
    Encodes a m (.present v) (.ref id) address (⟨address, 1, 1⟩ :: cells)
  | list {id start address : Nat} {element : Ty} {extent : Layout.Extent} {items : List Value}
    {rows : List (List Cell)} (found : a.kind id = .ok (.list element))
    (measured : Layout.measure a element = .ok extent) (short : items.length < 2 ^ 32)
    (room : start + items.length * extent.size ≤ 2 ^ 32) (width : rows.length = items.length)
    (each : ∀ (i : Nat) v row, items[i]? = some v → rows[i]? = some row →
      Encodes a m v element (start + i * extent.size) row)
    (held : ∀ row ∈ rows, ∀ c ∈ row, c.HeldBy m) :
    Encodes a m (.list items) (.ref id) address (Cell.slice address start items.length)
  | synonym {id address : Nat} {target : Ty} {v : Value} {cells : List Cell}
    (found : a.kind id = .ok (.alias target)) (inner : Encodes a m v target address cells) :
    Encodes a m v (.ref id) address cells

/-- Values of a type are encoded one behind the other from an address on, in cells that hold. -/
structure ListAt (a : Arena) (m : Memory) (element : Ty) (start : Nat) (items : List Value) : Prop where
  short : items.length < 2 ^ 32
  encoded : ∃ (extent : Layout.Extent) (rows : List (List Cell)),
    Layout.measure a element = .ok extent ∧ start + items.length * extent.size ≤ 2 ^ 32 ∧
    rows.length = items.length ∧ (∀ row ∈ rows, ∀ c ∈ row, c.HeldBy m) ∧
    ∀ (i : Nat) v row, items[i]? = some v → rows[i]? = some row →
      Encodes a m v element (start + i * extent.size) row

theorem ListAt.encodes {a : Arena} {m : Memory} {element : Ty} {start id : Nat} {items : List Value}
    (listed : ListAt a m element start items) (found : a.kind id = .ok (.list element)) (address : Nat) :
    Encodes a m (.list items) (.ref id) address (Cell.slice address start items.length) := by
  obtain ⟨short, extent, rows, measured, room, width, held, each⟩ := listed
  exact .list found measured short room width each held

/-- The slots are the flat encoding of the value. What a pointer among them leads to lies in memory,
and where a payload is absent there are zeros. -/
inductive Flattens (a : Arena) (m : Memory) : Value → Ty → List Operand → Prop where
  | scalar {p : Primitive} {bits : Nat} (number : p ≠ .string) (small : bits < 2 ^ p.bits) :
    Flattens a m (.scalar bits) (.prim p) [.slot p.slot (widen p p.slot bits)]
  | text {bytes : List UInt8} {start : Nat} (text : Tree.TextAt m start bytes) :
    Flattens a m (.text bytes) (.prim .string) [.slot .i32 start, .slot .i32 bytes.length]
  | product {id : Nat} {kind : Kind} {form : Form} {types : List Ty} {items : List Value}
    {rows : List (List Operand)} (found : a.kind id = .ok kind)
    (shape : kind.product? = some (form, types)) (count : items.length = types.length)
    (width : rows.length = types.length)
    (each : ∀ (i : Nat) v ty row, items[i]? = some v → types[i]? = some ty →
      rows[i]? = some row → Flattens a m v ty row) :
    Flattens a m (.product form items) (.ref id) rows.flatten
  | choice {id index : Nat} {cases : List String} (found : a.kind id = .ok (.enumeration cases))
    (small : index < cases.length) : Flattens a m (.choice index) (.ref id) [.slot .i32 index]
  | absent {id : Nat} {payload : Ty} {types : List Slot} (found : a.kind id = .ok (.option payload))
    (flat : Layout.flatten a payload = .ok types) :
    Flattens a m .absent (.ref id) (.slot .i32 0 :: types.map fun type => .slot type 0)
  | present {id : Nat} {payload : Ty} {v : Value} {slots : List Operand}
    (found : a.kind id = .ok (.option payload)) (inner : Flattens a m v payload slots) :
    Flattens a m (.present v) (.ref id) (.slot .i32 1 :: slots)
  | list {id start : Nat} {element : Ty} {items : List Value}
    (found : a.kind id = .ok (.list element)) (listed : ListAt a m element start items) :
    Flattens a m (.list items) (.ref id) [.slot .i32 start, .slot .i32 items.length]
  | synonym {id : Nat} {target : Ty} {v : Value} {slots : List Operand}
    (found : a.kind id = .ok (.alias target)) (inner : Flattens a m v target slots) :
    Flattens a m v (.ref id) slots

namespace Tree

variable {a : Arena} {m : Memory} {laid : Prop}

/-- Cells that encode the value, hold in memory, and are all that the value touches. -/
structure Covers (a : Arena) (m : Memory) (t : Tree) (address : Nat) (v : Value)
    (cells : List Cell) : Prop where
  encodes : Encodes a m v t.type address cells
  held : ∀ c ∈ cells, c.HeldBy m
  touches : ∀ x, (∃ c ∈ cells, c.Has x) ↔ t.Touches address v x

private theorem exists_rows {α : Type} {items : List Value} {holds : Nat → Value → α → Prop}
    (each : ∀ (i : Nat) v, items[i]? = some v → ∃ row, holds i v row) :
    ∃ rows : List α, rows.length = items.length ∧
      ∀ (i : Nat) v row, items[i]? = some v → rows[i]? = some row → holds i v row := by
  induction items generalizing holds with
  | nil => exact ⟨[], rfl, by simp⟩
  | cons v items ih =>
    obtain ⟨row, first⟩ := each 0 v rfl
    have behind : ∀ (i : Nat) w, items[i]? = some w → ∃ row, holds (i + 1) w row := fun i w found =>
      each (i + 1) w (by simpa using found)
    obtain ⟨rows, width, others⟩ := ih behind
    refine ⟨row :: rows, congrArg (· + 1) width, ?_⟩
    intro i w other found also
    cases i with
    | zero =>
      cases found
      cases also
      exact first
    | succ i => exact others i w other (by simpa using found) (by simpa using also)

private theorem exists_rows_of_members {fields : List Tree}
    (each : ∀ t ∈ fields, ∀ address v, t.Encoded m address v → ∃ cells, t.Covers a m address v cells)
    {offsets : List Nat} {address : Nat} {values : List Value}
    (encoded : EncodedAll m fields offsets address values) :
    ∃ rows : List (List Cell), rows.length = fields.length ∧
      (∀ (i : Nat) v ty offset row, values[i]? = some v → (fields.map type)[i]? = some ty →
        offsets[i]? = some offset → rows[i]? = some row → Encodes a m v ty (address + offset) row) ∧
      (∀ c ∈ rows.flatten, c.HeldBy m) ∧
      ∀ x, (∃ c ∈ rows.flatten, c.Has x) ↔ TouchesAll fields offsets address values x := by
  induction fields generalizing offsets values with
  | nil => exact ⟨[], rfl, by simp, by simp, fun x => by simp [TouchesAll]⟩
  | cons t rest ih =>
    cases values with
    | nil => cases offsets <;> exact encoded.elim
    | cons v values =>
      cases offsets with
      | nil => exact encoded.elim
      | cons offset offsets =>
        obtain ⟨cells, covers⟩ := each t (by simp) _ v encoded.1
        obtain ⟨rows, width, members, held, touches⟩ :=
          ih (fun field member => each field (by simp [member])) encoded.2
        refine ⟨cells :: rows, congrArg (· + 1) width, ?_, ?_, ?_⟩
        · intro i w ty place row first second third fourth
          cases i with
          | zero =>
            cases first
            cases second
            cases third
            cases fourth
            exact covers.encodes
          | succ i =>
            exact members i w ty place row (by simpa using first) (by simpa using second)
              (by simpa using third) (by simpa using fourth)
        · intro c member
          rw [List.flatten_cons] at member
          rcases List.mem_append.mp member with here | there
          · exact covers.held c here
          · exact held c there
        · intro x
          simp only [List.flatten_cons, List.mem_append, or_and_right, exists_or, covers.touches,
            touches, TouchesAll]

private theorem listAt_of_elements {element : Tree} (unfolds : element.Unfolds a)
    (each : ∀ address v, element.Encoded m address v → ∃ cells, element.Covers a m address v cells)
    {start : Nat} {items : List Value} (elements : Elements m element start items) :
    ListAt a m element.type start items := by
  obtain ⟨short, room, lies⟩ := elements
  obtain ⟨rows, width, covers⟩ := exists_rows fun i v found => each _ v (lies i v found)
  refine ⟨short, element.extent, rows, measure_extent unfolds, room, width, ?_, ?_⟩
  · intro row member
    obtain ⟨i, found⟩ := List.mem_iff_getElem?.mp member
    have inside : i < items.length := width ▸ (List.getElem?_eq_some_iff.mp found).1
    exact (covers i items[i] row (List.getElem?_eq_getElem inside) found).held
  · intro i v row first second
    exact (covers i v row first second).encodes

/-- A value that lies in memory by its tree is encoded there. -/
theorem exists_covers {t : Tree} (unfolds : t.Unfolds a) {address : Nat} {v : Value}
    (encoded : t.Encoded m address v) : ∃ cells, t.Covers a m address v cells := by
  induction t generalizing address v with
  | prim p =>
    cases v with
    | text bytes =>
      obtain ⟨rfl, text, length⟩ := encoded
      exact ⟨_, .text text, Cell.held_slice.mpr ⟨rfl, length⟩, fun x => Cell.has_slice⟩
    | scalar bits =>
      obtain ⟨small, access, found, loaded⟩ := encoded
      have sizes : (Layout.primitiveExtent p).size = access.size := access_size found
      refine ⟨_, .scalar found small, Cell.held_single.mpr loaded, ?_⟩
      intro x
      rw [Touches, sizes]
      exact Cell.has_single
    | _ => exact encoded.elim
  | product form id fields offsets extent ih =>
    cases v with
    | product found items =>
      obtain ⟨rfl, encoded⟩ := encoded
      obtain ⟨kind, known, stands⟩ := unfolds.rooted id rfl
      obtain ⟨-, lays, all⟩ := unfolds
      obtain ⟨rows, width, members, held, touches⟩ := exists_rows_of_members
        (fun t member address v => ih t member (mirrorsAll_iff.mp all t member)) encoded
      have count := encodedAll_length encoded
      exact ⟨_, .product known stands (fieldOffsets_of_lays all (lays trivial)) (by simpa using count)
        (by simpa using width) members, held, touches⟩
    | _ => exact encoded.elim
  | enumeration id count extent =>
    cases v with
    | choice index =>
      obtain ⟨kind, known, cases, rfl, rfl⟩ := unfolds.rooted id rfl
      obtain ⟨small, loaded⟩ := encoded
      rw [discriminantAccess_size] at loaded
      exact ⟨_, .choice known small, Cell.held_single.mpr loaded, fun x => Cell.has_single⟩
    | _ => exact encoded.elim
  | option id payload start extent ih =>
    obtain ⟨kind, known, rfl⟩ := unfolds.rooted id rfl
    cases v with
    | absent =>
      exact ⟨_, .absent known, Cell.held_single.mpr encoded, fun x => Cell.has_single⟩
    | present inner =>
      obtain ⟨cells, covers⟩ := ih unfolds.2.2 encoded.2
      refine ⟨_, .present known (payloadOffset_eq unfolds) covers.encodes, ?_, ?_⟩
      · intro c member
        rcases List.mem_cons.mp member with rfl | later
        · exact encoded.1
        · exact covers.held c later
      · intro x
        simp only [List.mem_cons, exists_eq_or_imp, covers.touches]
        rfl
    | _ => exact encoded.elim
  | list id element ih =>
    cases v with
    | list items =>
      obtain ⟨kind, known, rfl⟩ := unfolds.rooted id rfl
      obtain ⟨elements, length⟩ := encoded
      have listed := listAt_of_elements unfolds.2 (fun address v => ih unfolds.2) elements
      exact ⟨_, listed.encodes known address, Cell.held_slice.mpr ⟨rfl, length⟩,
        fun x => Cell.has_slice⟩
    | _ => exact encoded.elim
  | synonym id target ih =>
    obtain ⟨kind, known, rfl⟩ := unfolds.rooted id rfl
    obtain ⟨cells, covers⟩ := ih unfolds.2 encoded
    exact ⟨cells, .synonym known covers.encodes, covers.held, covers.touches⟩

private theorem encodedAll_of_rows {fields : List Tree}
    (each : ∀ t ∈ fields, ∀ address v cells, Encodes a m v t.type address cells →
      (∀ c ∈ cells, c.HeldBy m) → t.Encoded m address v)
    {offsets : List Nat} {address : Nat} {values : List Value} {rows : List (List Cell)}
    (count : values.length = fields.length) (length : offsets.length = fields.length)
    (width : rows.length = fields.length)
    (members : ∀ (i : Nat) v ty offset row, values[i]? = some v → (fields.map type)[i]? = some ty →
      offsets[i]? = some offset → rows[i]? = some row → Encodes a m v ty (address + offset) row)
    (held : ∀ c ∈ rows.flatten, c.HeldBy m) : EncodedAll m fields offsets address values := by
  induction fields generalizing offsets values rows with
  | nil =>
    cases List.length_eq_zero_iff.mp count
    trivial
  | cons t rest ih =>
    obtain ⟨v, values, rfl⟩ := List.exists_cons_of_length_eq_add_one count
    obtain ⟨offset, offsets, rfl⟩ := List.exists_cons_of_length_eq_add_one length
    obtain ⟨row, rows, rfl⟩ := List.exists_cons_of_length_eq_add_one width
    simp only [List.length_cons, Nat.add_right_cancel_iff] at count length width
    simp only [List.flatten_cons, List.mem_append] at held
    have first : t.Encoded m (address + offset) v :=
      each t (by simp) _ v row (members 0 v t.type offset row rfl rfl rfl rfl) fun c member =>
        held c (.inl member)
    refine ⟨first, ih (fun field member => each field (by simp [member])) count length width ?_
      fun c member => held c (.inr member)⟩
    intro i w ty place other value type start cells
    exact members (i + 1) w ty place other (by simpa using value) (by simpa using type)
      (by simpa using start) (by simpa using cells)

private theorem elements_of_listAt {element : Tree} (unfolds : element.Unfolds a)
    (each : ∀ address v cells, Encodes a m v element.type address cells →
      (∀ c ∈ cells, c.HeldBy m) → element.Encoded m address v)
    {start : Nat} {items : List Value} (listed : ListAt a m element.type start items) :
    Elements m element start items := by
  obtain ⟨short, extent, rows, measured, room, width, held, encodes⟩ := listed
  rw [measure_extent unfolds] at measured
  cases measured
  refine ⟨short, room, ?_⟩
  intro i v found
  have inside : i < rows.length := width ▸ (List.getElem?_eq_some_iff.mp found).1
  exact each _ v _ (encodes i v _ found (List.getElem?_eq_getElem inside))
    (held _ (List.getElem_mem inside))

theorem encoded_of_encodes {t : Tree} (unfolds : t.Unfolds a) {address : Nat} {v : Value}
    {cells : List Cell} (encodes : Encodes a m v t.type address cells)
    (held : ∀ c ∈ cells, c.HeldBy m) : t.Encoded m address v := by
  induction t generalizing address v cells with
  | prim p =>
    cases encodes with
    | scalar found small => exact ⟨small, _, found, Cell.held_first held⟩
    | text text =>
      obtain ⟨pointer, length⟩ := Cell.held_slice.mp held
      exact ⟨rfl, by rw [pointer]; exact text, length⟩
  | product form id fields offsets extent ih =>
    obtain ⟨kind, known, stands⟩ := unfolds.rooted id rfl
    obtain ⟨-, lays, all⟩ := unfolds
    cases encodes with
    | product found shape placed count width each =>
      cases known.symm.trans found
      obtain ⟨rfl, rfl⟩ := product_stands stands shape
      rw [fieldOffsets_of_lays all (lays trivial)] at placed
      cases placed
      rw [List.length_map] at count width
      exact ⟨rfl, encodedAll_of_rows (fun t member address v cells => ih t member
        (mirrorsAll_iff.mp all t member)) count (lays trivial).length width each held⟩
    | _ found => cases known.symm.trans found; cases stands
  | enumeration id count extent =>
    obtain ⟨kind, known, cases, rfl, rfl⟩ := unfolds.rooted id rfl
    cases encodes with
    | choice found small =>
      cases known.symm.trans found
      refine ⟨small, ?_⟩
      rw [discriminantAccess_size]
      exact Cell.held_first held
    | product found shape => cases known.symm.trans found; cases shape
    | _ found => cases known.symm.trans found
  | option id payload start extent ih =>
    obtain ⟨kind, known, rfl⟩ := unfolds.rooted id rfl
    cases encodes with
    | absent found => exact Cell.held_first held
    | present found placed inner =>
      cases known.symm.trans found
      rw [payloadOffset_eq unfolds] at placed
      cases placed
      exact ⟨Cell.held_first held, ih unfolds.2.2 inner fun c member => held c (by simp [member])⟩
    | product found shape => cases known.symm.trans found; cases shape
    | _ found => cases known.symm.trans found
  | list id element ih =>
    obtain ⟨kind, known, rfl⟩ := unfolds.rooted id rfl
    cases encodes with
    | list found measured short room width each inner =>
      cases known.symm.trans found
      obtain ⟨pointer, length⟩ := Cell.held_slice.mp held
      refine ⟨?_, length⟩
      rw [pointer]
      exact elements_of_listAt unfolds.2 (fun address v cells => ih unfolds.2)
        ⟨short, _, _, measured, room, width, inner, each⟩
    | product found shape => cases known.symm.trans found; cases shape
    | _ found => cases known.symm.trans found
  | synonym id target ih =>
    obtain ⟨kind, known, rfl⟩ := unfolds.rooted id rfl
    cases encodes with
    | synonym found inner => cases known.symm.trans found; exact ih unfolds.2 inner held
    | product found shape => cases known.symm.trans found; cases shape
    | _ found => cases known.symm.trans found

theorem elements_iff_listAt {element : Tree} (unfolds : element.Unfolds a) {start : Nat}
    {items : List Value} :
    Elements m element start items ↔ ListAt a m element.type start items :=
  ⟨listAt_of_elements unfolds fun _ _ => exists_covers unfolds,
    elements_of_listAt unfolds fun _ _ _ => encoded_of_encodes unfolds⟩

private theorem exists_slot_rows {fields : List Tree}
    (each : ∀ t ∈ fields, ∀ slots v, t.Flat m slots v → Flattens a m v t.type slots)
    {slots : List Operand} {values : List Value} (flats : FlatAll m fields slots values) :
    ∃ rows : List (List Operand), slots = rows.flatten ∧ rows.length = fields.length ∧
      ∀ (i : Nat) v ty row, values[i]? = some v → (fields.map type)[i]? = some ty →
        rows[i]? = some row → Flattens a m v ty row := by
  induction fields generalizing slots values with
  | nil =>
    cases values with
    | nil =>
      cases flats
      exact ⟨[], rfl, rfl, by simp⟩
    | cons v values => exact flats.elim
  | cons t rest ih =>
    cases values with
    | nil => exact flats.elim
    | cons v values =>
      obtain ⟨first, others, rfl, flat, flats⟩ := flats
      obtain ⟨rows, rfl, width, members⟩ :=
        ih (fun field member => each field (by simp [member])) flats
      refine ⟨first :: rows, rfl, congrArg (· + 1) width, ?_⟩
      intro i w ty row one two three
      cases i with
      | zero =>
        cases one
        cases two
        cases three
        exact each t (by simp) first v flat
      | succ i => exact members i w ty row (by simpa using one) (by simpa using two) (by simpa using three)

/-- Slots that stand for a value by its tree are a flat encoding of it. -/
theorem flattens_of_flat {t : Tree} (mirrors : t.Mirrors a laid) {slots : List Operand} {v : Value}
    (flat : t.Flat m slots v) : Flattens a m v t.type slots := by
  induction t generalizing slots v laid with
  | prim p =>
    cases v with
    | text bytes =>
      obtain ⟨rfl, start, text, rfl⟩ := flat
      exact .text text
    | scalar bits =>
      obtain ⟨number, small, rfl⟩ := flat
      exact .scalar number small
    | _ => exact flat.elim
  | product form id fields offsets extent ih =>
    cases v with
    | product found items =>
      obtain ⟨rfl, flats⟩ := flat
      obtain ⟨kind, known, stands⟩ := mirrors.rooted id rfl
      obtain ⟨rows, rfl, width, members⟩ := exists_slot_rows
        (fun t member slots v => ih t member (mirrorsAll_iff.mp mirrors.2.2 t member)) flats
      have count := flatAll_length flats
      exact .product known stands (by simpa using count) (by simpa using width) members
    | _ => exact flat.elim
  | enumeration id count extent =>
    cases v with
    | choice index =>
      obtain ⟨kind, known, cases, rfl, rfl⟩ := mirrors.rooted id rfl
      obtain ⟨small, rfl⟩ := flat
      exact .choice known small
    | _ => exact flat.elim
  | option id payload start extent ih =>
    obtain ⟨kind, known, rfl⟩ := mirrors.rooted id rfl
    cases v with
    | absent =>
      cases flat
      exact .absent known (flatten_slots mirrors.2.2)
    | present inner =>
      obtain ⟨rest, rfl, flat⟩ := flat
      exact .present known (ih mirrors.2.2 flat)
    | _ => exact flat.elim
  | list id element =>
    cases v with
    | list items =>
      obtain ⟨kind, known, rfl⟩ := mirrors.rooted id rfl
      obtain ⟨start, elements, rfl⟩ := flat
      exact .list known ((elements_iff_listAt mirrors.2).mp elements)
    | _ => exact flat.elim
  | synonym id target ih =>
    obtain ⟨kind, known, rfl⟩ := mirrors.rooted id rfl
    exact .synonym known (ih mirrors.2 flat)

private theorem flatAll_of_rows {fields : List Tree}
    (each : ∀ t ∈ fields, ∀ slots v, Flattens a m v t.type slots → t.Flat m slots v)
    {values : List Value} {rows : List (List Operand)} (count : values.length = fields.length)
    (width : rows.length = fields.length)
    (members : ∀ (i : Nat) v ty row, values[i]? = some v → (fields.map type)[i]? = some ty →
      rows[i]? = some row → Flattens a m v ty row) : FlatAll m fields rows.flatten values := by
  induction fields generalizing values rows with
  | nil =>
    cases List.length_eq_zero_iff.mp count
    cases List.length_eq_zero_iff.mp width
    rfl
  | cons t rest ih =>
    obtain ⟨v, values, rfl⟩ := List.exists_cons_of_length_eq_add_one count
    obtain ⟨row, rows, rfl⟩ := List.exists_cons_of_length_eq_add_one width
    simp only [List.length_cons, Nat.add_right_cancel_iff] at count width
    have first : t.Flat m row v := each t (by simp) row v (members 0 v t.type row rfl rfl rfl)
    refine ⟨row, rows.flatten, rfl, first,
      ih (fun field member => each field (by simp [member])) count width ?_⟩
    intro i w ty other value type slots
    exact members (i + 1) w ty other (by simpa using value) (by simpa using type) (by simpa using slots)

theorem flat_of_flattens {t : Tree} (mirrors : t.Mirrors a laid) {slots : List Operand} {v : Value}
    (flattens : Flattens a m v t.type slots) : t.Flat m slots v := by
  induction t generalizing slots v laid with
  | prim p =>
    cases flattens with
    | scalar number small => exact ⟨number, small, rfl⟩
    | text text => exact ⟨rfl, _, text, rfl⟩
  | product form id fields offsets extent ih =>
    obtain ⟨kind, known, stands⟩ := mirrors.rooted id rfl
    cases flattens with
    | product found shape count width each =>
      cases known.symm.trans found
      obtain ⟨rfl, rfl⟩ := product_stands stands shape
      rw [List.length_map] at count width
      exact ⟨rfl, flatAll_of_rows (fun t member slots v =>
        ih t member (mirrorsAll_iff.mp mirrors.2.2 t member)) count width each⟩
    | _ found => cases known.symm.trans found; cases stands
  | enumeration id count extent =>
    obtain ⟨kind, known, cases, rfl, rfl⟩ := mirrors.rooted id rfl
    cases flattens with
    | choice found small => cases known.symm.trans found; exact ⟨small, rfl⟩
    | product found shape => cases known.symm.trans found; cases shape
    | _ found => cases known.symm.trans found
  | option id payload start extent ih =>
    obtain ⟨kind, known, rfl⟩ := mirrors.rooted id rfl
    cases flattens with
    | absent found flat =>
      cases known.symm.trans found
      rw [flatten_slots mirrors.2.2] at flat
      cases flat
      rfl
    | present found inner =>
      cases known.symm.trans found
      exact ⟨_, rfl, ih mirrors.2.2 inner⟩
    | product found shape => cases known.symm.trans found; cases shape
    | _ found => cases known.symm.trans found
  | list id element =>
    obtain ⟨kind, known, rfl⟩ := mirrors.rooted id rfl
    cases flattens with
    | list found listed =>
      cases known.symm.trans found
      exact ⟨_, (elements_iff_listAt mirrors.2).mpr listed, rfl⟩
    | product found shape => cases known.symm.trans found; cases shape
    | _ found => cases known.symm.trans found
  | synonym id target ih =>
    obtain ⟨kind, known, rfl⟩ := mirrors.rooted id rfl
    cases flattens with
    | synonym found inner => cases known.symm.trans found; exact ih mirrors.2 inner
    | product found shape => cases known.symm.trans found; cases shape
    | _ found => cases known.symm.trans found

end Tree

end ZigBindings
