import ZigBindings.Proofs.Crossing.Code
import ZigBindings.Proofs.Machine.Reach

/-! Which values a type has, how they lie in linear memory, and how they stand in flat slots. -/

namespace ZigBindings
open Machine
open Layout (Extent)

/-- The slot that carries a primitive other than a string. -/
def Primitive.slot (p : Primitive) : Slot := (Layout.primitiveSlots p).headD .i32

namespace Tree

mutual
/-- Values of the type. Lengths are counted by a slot of 32 bits. -/
def Admits : Tree → Value → Prop
  | prim p, v =>
    match v with
    | .text bytes => p = .string ∧ bytes.length < 2 ^ 32
    | .scalar bits => p ≠ .string ∧ bits < 2 ^ p.bits
    | _ => False
  | product form _ fields _ _, v =>
    match v with
    | .product found items => found = form ∧ AdmitsAll fields items
    | _ => False
  | enumeration _ count _, v =>
    match v with
    | .choice index => index < count
    | _ => False
  | option _ payload _ _, v =>
    match v with
    | .absent => True
    | .present inner => payload.Admits inner
    | _ => False
  | list _ element, v =>
    match v with
    | .list items => items.length < 2 ^ 32 ∧ ∀ item ∈ items, element.Admits item
    | _ => False
  | synonym _ target, v => target.Admits v

def AdmitsAll : List Tree → List Value → Prop
  | [], [] => True
  | t :: rest, v :: values => t.Admits v ∧ AdmitsAll rest values
  | _, _ => False
end

def TextAt (m : Memory) (start : Nat) (bytes : List UInt8) : Prop :=
  start + bytes.length ≤ 2 ^ 32 ∧ bytes.length < 2 ^ 32 ∧ m.text start bytes.length = bytes

mutual
/-- The value lies in memory at the address, with everything that it points to. -/
def Encoded (m : Memory) : Tree → Nat → Value → Prop
  | prim p, address, v =>
    match v with
    | .text bytes => p = .string ∧ TextAt m (m.load address 4) bytes ∧
        m.load (address + 4) 4 = bytes.length
    | .scalar bits => bits < 2 ^ p.bits ∧
        ∃ access, Access.ofPrimitive? p = some access ∧ m.load address access.size = bits
    | _ => False
  | product form _ fields offsets _, address, v =>
    match v with
    | .product found items => found = form ∧ EncodedAll m fields offsets address items
    | _ => False
  | enumeration _ count _, address, v =>
    match v with
    | .choice index => index < count ∧
        m.load address (Crossing.discriminantAccess count).size = index
    | _ => False
  | option _ payload start _, address, v =>
    match v with
    | .absent => m.load address 1 = 0
    | .present inner => m.load address 1 = 1 ∧ Encoded m payload (address + start) inner
    | _ => False
  | list _ element, address, v =>
    match v with
    | .list items => (items.length < 2 ^ 32 ∧
        m.load address 4 + items.length * element.size ≤ 2 ^ 32 ∧
        ∀ i item, items[i]? = some item →
          Encoded m element (m.load address 4 + i * element.size) item) ∧
        m.load (address + 4) 4 = items.length
    | _ => False
  | synonym _ target, address, v => Encoded m target address v

def EncodedAll (m : Memory) : List Tree → List Nat → Nat → List Value → Prop
  | [], _, _, [] => True
  | t :: rest, offset :: offsets, address, v :: values =>
    Encoded m t (address + offset) v ∧ EncodedAll m rest offsets address values
  | _, _, _, _ => False
end

mutual
/-- Bytes that belong to a value at an address. Padding does not, nor does the room for a payload
that is absent. -/
def Touches : Tree → Nat → Value → Nat → Prop
  | prim p, address, _ => Within address (address + (Layout.primitiveExtent p).size)
  | product _ _ fields offsets _, address, v =>
    match v with
    | .product _ items => TouchesAll fields offsets address items
    | _ => fun _ => False
  | enumeration _ count _, address, _ => Within address (address + Layout.discriminantSize count)
  | option _ payload start _, address, v =>
    match v with
    | .present inner => fun x =>
      Within address (address + 1) x ∨ Touches payload (address + start) inner x
    | _ => Within address (address + 1)
  | list _ _, address, _ => Within address (address + 8)
  | synonym _ target, address, v => Touches target address v

def TouchesAll : List Tree → List Nat → Nat → List Value → Nat → Prop
  | t :: rest, offset :: offsets, address, v :: values => fun x =>
    Touches t (address + offset) v x ∨ TouchesAll rest offsets address values x
  | _, _, _, _ => fun _ => False
end

mutual
/-- Requests of a size and an alignment that a value gives rise to when it is lowered or written: one
for the bytes of each text, and one for the elements of each list. -/
def Asks : Tree → Value → Nat → Nat → Prop
  | prim p, v => fun size align =>
    match v with
    | .text bytes => p = .string ∧ size = bytes.length ∧ align = 1
    | _ => False
  | product form _ fields _ _, v => fun size align =>
    match v with
    | .product found items => found = form ∧ AsksAll fields items size align
    | _ => False
  | enumeration _ _ _, _ => fun _ _ => False
  | option _ payload _ _, v =>
    match v with
    | .present inner => Asks payload inner
    | _ => fun _ _ => False
  | list _ element, v => fun size align =>
    match v with
    | .list items => (size = items.length * element.extent.size ∧ align = element.extent.align) ∨
        ∃ item ∈ items, Asks element item size align
    | _ => False
  | synonym _ target, v => Asks target v

def AsksAll : List Tree → List Value → Nat → Nat → Prop
  | t :: rest, v :: values => fun size align => Asks t v size align ∨ AsksAll rest values size align
  | _, _ => fun _ _ => False
end

def Elements (m : Memory) (element : Tree) (start : Nat) (items : List Value) : Prop :=
  items.length < 2 ^ 32 ∧ start + items.length * element.size ≤ 2 ^ 32 ∧
  ∀ i item, items[i]? = some item → Encoded m element (start + i * element.size) item

mutual
/-- The slots stand for the value, with everything in memory that they point to. -/
def Flat (m : Memory) : Tree → List Operand → Value → Prop
  | prim p, slots, v =>
    match v with
    | .text bytes => p = .string ∧ ∃ start, TextAt m start bytes ∧
        slots = [.slot .i32 start, .slot .i32 bytes.length]
    | .scalar bits => p ≠ .string ∧ bits < 2 ^ p.bits ∧
        slots = [.slot p.slot (widen p p.slot bits)]
    | _ => False
  | product form _ fields _ _, slots, v =>
    match v with
    | .product found items => found = form ∧ FlatAll m fields slots items
    | _ => False
  | enumeration _ count _, slots, v =>
    match v with
    | .choice index => index < count ∧ slots = [.slot .i32 index]
    | _ => False
  | option _ payload _ _, slots, v =>
    match v with
    | .absent => slots = .slot .i32 0 :: payload.slots.map fun type => .slot type 0
    | .present inner => ∃ rest, slots = .slot .i32 1 :: rest ∧ Flat m payload rest inner
    | _ => False
  | list _ element, slots, v =>
    match v with
    | .list items => ∃ start, Elements m element start items ∧
        slots = [.slot .i32 start, .slot .i32 items.length]
    | _ => False
  | synonym _ target, slots, v => Flat m target slots v

def FlatAll (m : Memory) : List Tree → List Operand → List Value → Prop
  | [], slots, [] => slots = []
  | t :: rest, slots, v :: values =>
    ∃ first others, slots = first ++ others ∧ Flat m t first v ∧ FlatAll m rest others values
  | _, _, _ => False
end

theorem admitsAll_length {fields : List Tree} {values : List Value}
    (admits : AdmitsAll fields values) : values.length = fields.length := by
  induction fields generalizing values with
  | nil =>
    cases values with
    | nil => rfl
    | cons v values => exact admits.elim
  | cons t rest ih =>
    cases values with
    | nil => exact admits.elim
    | cons v values => simp [ih admits.2]

theorem flatAll_length {m : Memory} {fields : List Tree} {slots : List Operand}
    {values : List Value} (flat : FlatAll m fields slots values) :
    values.length = fields.length := by
  induction fields generalizing slots values with
  | nil =>
    cases values with
    | nil => rfl
    | cons v values => exact flat.elim
  | cons t rest ih =>
    cases values with
    | nil => exact flat.elim
    | cons v values =>
      obtain ⟨first, others, -, -, flats⟩ := flat
      simp [ih flats]

theorem encodedAll_length {m : Memory} {fields : List Tree} {offsets : List Nat} {address : Nat}
    {values : List Value} (encoded : EncodedAll m fields offsets address values) :
    values.length = fields.length := by
  induction fields generalizing offsets values with
  | nil =>
    cases values with
    | nil => rfl
    | cons v values => exact encoded.elim
  | cons t rest ih =>
    cases values with
    | nil => cases offsets <;> exact encoded.elim
    | cons v values =>
      cases offsets with
      | nil => exact encoded.elim
      | cons offset offsets => simp [ih encoded.2]

private theorem types_of_members {m : Memory} {fields : List Tree}
    (each : ∀ t ∈ fields, ∀ slots v, Flat m t slots v →
      slots.map Operand.type? = t.slots.map some)
    {slots : List Operand} {values : List Value} (flats : FlatAll m fields slots values) :
    slots.map Operand.type? = (slotsAll fields).map some := by
  induction fields generalizing slots values with
  | nil =>
    cases values with
    | nil => cases flats; rfl
    | cons v values => exact flats.elim
  | cons t rest ih =>
    cases values with
    | nil => exact flats.elim
    | cons v values =>
      obtain ⟨first, last, rfl, flat, flats⟩ := flats
      rw [List.map_append, slotsAll, List.map_append, each t (by simp) first v flat,
        ih (fun field member => each field (by simp [member])) flats]

theorem Flat.types {m : Memory} {t : Tree} {slots : List Operand} {v : Value}
    (flat : t.Flat m slots v) : slots.map Operand.type? = t.slots.map some := by
  induction t generalizing slots v with
  | prim p =>
    cases v with
    | text bytes =>
      obtain ⟨rfl, start, -, rfl⟩ := flat
      rfl
    | scalar bits =>
      obtain ⟨number, -, rfl⟩ := flat
      cases p <;> first | rfl | exact absurd rfl number
    | _ => exact flat.elim
  | product form id fields offsets extent ih =>
    cases v with
    | product found items =>
      exact types_of_members (fun t member slots v flat => ih t member flat) flat.2
    | _ => exact flat.elim
  | enumeration id count extent =>
    cases v with
    | choice index =>
      obtain ⟨-, rfl⟩ := flat
      rfl
    | _ => exact flat.elim
  | option id payload start extent ih =>
    cases v with
    | absent =>
      cases flat
      simp [Tree.slots, Operand.type?]
    | present inner =>
      obtain ⟨rest, rfl, flat⟩ := flat
      simp [Tree.slots, ih flat, Operand.type?]
    | _ => exact flat.elim
  | list id element =>
    cases v with
    | list items =>
      obtain ⟨start, -, rfl⟩ := flat
      rfl
    | _ => exact flat.elim
  | synonym id target ih => exact ih flat

theorem flatAll_types {m : Memory} {fields : List Tree} {slots : List Operand}
    {values : List Value} (flats : FlatAll m fields slots values) :
    slots.map Operand.type? = (slotsAll fields).map some :=
  types_of_members (fun _ _ _ _ flat => flat.types) flats

theorem Flat.length {m : Memory} {t : Tree} {slots : List Operand} {v : Value}
    (flat : t.Flat m slots v) : slots.length = t.slots.length := by
  have types := congrArg List.length flat.types
  simpa using types

private theorem within_of_members {fields : List Tree} {x : Nat}
    (each : ∀ t ∈ fields, ∀ address v, t.size < 2 ^ 50 → t.Touches address v x →
      Within address (address + t.size) x)
    {offsets : List Nat} {address start stop : Nat}
    (placed : Layout.Placed start (fields.map Tree.extent) offsets stop) (bound : stop < 2 ^ 50)
    {values : List Value} (touches : TouchesAll fields offsets address values x) :
    Within (address + start) (address + stop) x := by
  induction fields generalizing offsets start values with
  | nil => exact touches.elim
  | cons t rest ih =>
    cases offsets with
    | nil => exact touches.elim
    | cons offset offsets =>
      cases values with
      | nil => exact touches.elim
      | cons v values =>
        obtain ⟨behind, others⟩ := placed
        have last := others.le
        rcases touches with here | there
        · have within := each t (by simp) _ v (by simp only [size]; omega) here
          simp only [size] at within
          exact within.widen (by omega) (by omega)
        · have within := ih (fun field member => each field (by simp [member])) others there
          exact within.widen (by omega) le_rfl

theorem Touches.within {a : Arena} {t : Tree} (unfolds : t.Unfolds a) (bound : t.size < 2 ^ 50)
    {address x : Nat} {v : Value} (touches : t.Touches address v x) :
    Within address (address + t.size) x := by
  induction t generalizing address v with
  | prim p => exact touches
  | product form id fields offsets extent ih =>
    cases v with
    | product found items =>
      exact within_of_members (fun t member address v small touches =>
        ih t member (mirrorsAll_iff.mp unfolds.2.2 t member) small touches)
        (product_placed unfolds bound) bound touches
    | _ => exact touches.elim
  | enumeration id count extent =>
    have inside := enumeration_placed unfolds bound
    exact ⟨touches.1, lt_of_lt_of_le touches.2 (Nat.add_le_add_left inside address)⟩
  | option id payload start extent ih =>
    obtain ⟨behind, inside⟩ := option_placed unfolds bound
    have whole : (option id payload start extent).size = extent.size := rfl
    have discriminant : Within address (address + 1) x →
        Within address (address + (option id payload start extent).size) x := fun within =>
      ⟨within.1, by have := within.2; omega⟩
    cases v with
    | present inner =>
      rcases touches with here | there
      · exact discriminant here
      · have within := ih unfolds.2.2 (by omega) there
        exact within.widen (by omega) (by omega)
    | _ => exact discriminant touches
  | list id element => exact touches
  | synonym id target ih => exact ih unfolds.2 bound touches

theorem TouchesAll.within {a : Arena} {fields : List Tree} (unfolds : UnfoldsAll a fields)
    {offsets : List Nat} {address start stop x : Nat}
    (placed : Layout.Placed start (fields.map Tree.extent) offsets stop) (bound : stop < 2 ^ 50)
    {values : List Value} (touches : TouchesAll fields offsets address values x) :
    Within (address + start) (address + stop) x :=
  within_of_members (fun t member _ _ small touches =>
    touches.within (mirrorsAll_iff.mp unfolds t member) small) placed bound touches

theorem touches_cons (address : Nat) {a : Arena} {t : Tree} {rest : List Tree}
    (unfolds : UnfoldsAll a (t :: rest)) {o start stop : Nat} {offsets : List Nat}
    (placed : Layout.Placed start ((t :: rest).map Tree.extent) (o :: offsets) stop)
    (bound : stop < 2 ^ 50) (v : Value) (values : List Value) :
    (∀ x, t.Touches (address + o) v x → Within (address + start) (address + stop) x) ∧
    (∀ x, TouchesAll rest offsets address values x → Within (address + start) (address + stop) x) ∧
    ∀ x, t.Touches (address + o) v x → ¬ TouchesAll rest offsets address values x := by
  obtain ⟨behind, others⟩ := placed
  have last := others.le
  have size_eq : t.size = t.extent.size := rfl
  have first {x : Nat} (touches : t.Touches (address + o) v x) :
      Within (address + o) (address + o + t.size) x := touches.within unfolds.1 (by omega)
  have later {x : Nat} (touches : TouchesAll rest offsets address values x) :
      Within (address + (o + t.size)) (address + stop) x := touches.within unfolds.2 others bound
  refine ⟨fun x touches => (first touches).widen (by omega) (by omega),
    fun x touches => (later touches).widen (by omega) le_rfl, fun x touches also => ?_⟩
  have below := (first touches).2
  have above := (later also).1
  omega

end Tree

end ZigBindings
