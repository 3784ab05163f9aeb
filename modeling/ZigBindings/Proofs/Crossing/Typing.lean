import ZigBindings.Proofs.Crossing.Encoding
import ZigBindings.Proofs.Types.Group

/-! Values of the types of an arena. A value that a type has is one that its tree admits. -/

namespace ZigBindings
open Machine

/-- The arena gives this value to the type. Lengths are counted by a slot of 32 bits. -/
inductive Inhabits (a : Arena) : Value → Ty → Prop where
  | scalar {p : Primitive} {bits : Nat} (number : p ≠ .string) (small : bits < 2 ^ p.bits) :
    Inhabits a (.scalar bits) (.prim p)
  | text {bytes : List UInt8} (short : bytes.length < 2 ^ 32) :
    Inhabits a (.text bytes) (.prim .string)
  | product {id : Nat} {kind : Kind} {form : Form} {types : List Ty} {items : List Value}
    (found : a.kind id = .ok kind) (shape : kind.product? = some (form, types))
    (count : items.length = types.length)
    (each : ∀ (i : Nat) v ty, items[i]? = some v → types[i]? = some ty → Inhabits a v ty) :
    Inhabits a (.product form items) (.ref id)
  | choice {id index : Nat} {cases : List String} (found : a.kind id = .ok (.enumeration cases))
    (small : index < cases.length) : Inhabits a (.choice index) (.ref id)
  | absent {id : Nat} {payload : Ty} (found : a.kind id = .ok (.option payload)) :
    Inhabits a .absent (.ref id)
  | present {id : Nat} {payload : Ty} {v : Value} (found : a.kind id = .ok (.option payload))
    (inner : Inhabits a v payload) : Inhabits a (.present v) (.ref id)
  | list {id : Nat} {element : Ty} {items : List Value} (found : a.kind id = .ok (.list element))
    (short : items.length < 2 ^ 32) (each : ∀ item ∈ items, Inhabits a item element) :
    Inhabits a (.list items) (.ref id)
  | synonym {id : Nat} {target : Ty} {v : Value} (found : a.kind id = .ok (.alias target))
    (inner : Inhabits a v target) : Inhabits a v (.ref id)

/-- Values of types, one for each. -/
def InhabitsAll (a : Arena) (values : List Value) (types : List Ty) : Prop :=
  List.Forall₂ (Inhabits a) values types

/-- A value of the type needs a buffer of this size and alignment, whether it stands in slots or lies
in linear memory: for the bytes of a text, or for the elements of a list side by side. -/
inductive Arena.BufferFor (a : Arena) : Value → Ty → Nat → Nat → Prop where
  | text {bytes : List UInt8} : a.BufferFor (.text bytes) (.prim .string) bytes.length 1
  | elements {id : Nat} {element : Ty} {extent : Layout.Extent} {items : List Value}
    (found : a.kind id = .ok (.list element)) (measured : Layout.measure a element = .ok extent) :
    a.BufferFor (.list items) (.ref id) (items.length * extent.size) extent.align
  | item {id size align : Nat} {element : Ty} {items : List Value} {v : Value}
    (found : a.kind id = .ok (.list element)) (member : v ∈ items) (inner : a.BufferFor v element size align) :
    a.BufferFor (.list items) (.ref id) size align
  | product {id size align i : Nat} {kind : Kind} {form : Form} {types : List Ty} {items : List Value}
    {v : Value} {ty : Ty} (found : a.kind id = .ok kind) (shape : kind.product? = some (form, types))
    (first : items[i]? = some v) (second : types[i]? = some ty) (inner : a.BufferFor v ty size align) :
    a.BufferFor (.product form items) (.ref id) size align
  | present {id size align : Nat} {payload : Ty} {v : Value} (found : a.kind id = .ok (.option payload))
    (inner : a.BufferFor v payload size align) : a.BufferFor (.present v) (.ref id) size align
  | synonym {id size align : Nat} {target : Ty} {v : Value} (found : a.kind id = .ok (.alias target))
    (inner : a.BufferFor v target size align) : a.BufferFor v (.ref id) size align

/-- One of several values needs such a buffer. -/
def Arena.BufferAmong (a : Arena) (values : List Value) (types : List Ty) (size align : Nat) : Prop :=
  ∃ (i : Nat) (v : Value) (ty : Ty), values[i]? = some v ∧ types[i]? = some ty ∧ a.BufferFor v ty size align

namespace Tree

variable {a : Arena}

private theorem admitsAll_of_members {fields : List Tree} {values : List Value}
    (count : values.length = fields.length)
    (each : ∀ (i : Nat) v t, values[i]? = some v → fields[i]? = some t → t.Admits v) :
    AdmitsAll fields values := by
  induction fields generalizing values with
  | nil =>
    cases values with
    | nil => trivial
    | cons v values => cases count
  | cons t rest ih =>
    cases values with
    | nil => cases count
    | cons v values =>
      exact ⟨each 0 v t rfl rfl, ih (by simpa using count) fun i w u first second =>
        each (i + 1) w u (by simpa using first) (by simpa using second)⟩

theorem admits_of_inhabits {t : Tree} {laid : Prop} (mirrors : t.Mirrors a laid) {v : Value}
    (inhabits : Inhabits a v t.type) : t.Admits v := by
  induction t generalizing v laid with
  | prim p =>
    cases inhabits with
    | scalar number small => exact ⟨number, small⟩
    | text short => exact ⟨rfl, short⟩
  | product form id fields offsets extent ih =>
    obtain ⟨kind, known, stands⟩ := mirrors.rooted id rfl
    have all := mirrors.2.2
    cases inhabits with
    | product found shape count each =>
      cases known.symm.trans found
      obtain ⟨rfl, rfl⟩ := product_stands stands shape
      refine ⟨rfl, admitsAll_of_members (by simpa using count) fun i w u first second => ?_⟩
      have member := List.mem_of_getElem? second
      exact ih u member (mirrorsAll_iff.mp all u member) (each i w u.type first (by simp [second]))
    | _ found => cases known.symm.trans found; cases stands
  | enumeration id count extent =>
    obtain ⟨kind, known, cases, rfl, rfl⟩ := mirrors.rooted id rfl
    cases inhabits with
    | choice found small => cases known.symm.trans found; exact small
    | product found shape => cases known.symm.trans found; cases shape
    | _ found => cases known.symm.trans found
  | option id payload start extent ih =>
    obtain ⟨kind, known, rfl⟩ := mirrors.rooted id rfl
    cases inhabits with
    | absent found => trivial
    | present found inner => cases known.symm.trans found; exact ih mirrors.2.2 inner
    | product found shape => cases known.symm.trans found; cases shape
    | _ found => cases known.symm.trans found
  | list id element ih =>
    obtain ⟨kind, known, rfl⟩ := mirrors.rooted id rfl
    cases inhabits with
    | list found short each =>
      cases known.symm.trans found
      exact ⟨short, fun item member => ih mirrors.2 (each item member)⟩
    | product found shape => cases known.symm.trans found; cases shape
    | _ found => cases known.symm.trans found
  | synonym id target ih =>
    obtain ⟨kind, known, rfl⟩ := mirrors.rooted id rfl
    cases inhabits with
    | synonym found inner => cases known.symm.trans found; exact ih mirrors.2 inner
    | product found shape => cases known.symm.trans found; cases shape
    | _ found => cases known.symm.trans found

theorem admitsAll_of_inhabits {laid : Prop} {fields : List Tree} (mirrors : MirrorsAll a laid fields)
    {values : List Value} (typed : InhabitsAll a values (fields.map type)) :
    AdmitsAll fields values := by
  induction fields generalizing values with
  | nil =>
    cases typed
    trivial
  | cons t rest ih =>
    cases typed with
    | cons first others => exact ⟨admits_of_inhabits mirrors.1 first, ih mirrors.2 others⟩

theorem exists_of_asksAll {fields : List Tree} {values : List Value} {size align : Nat}
    (asks : AsksAll fields values size align) :
    ∃ (i : Nat) (v : Value) (t : Tree), values[i]? = some v ∧ fields[i]? = some t ∧
      t.Asks v size align := by
  induction fields generalizing values with
  | nil => exact asks.elim
  | cons t rest ih =>
    cases values with
    | nil => exact asks.elim
    | cons v values =>
      rcases asks with here | there
      · exact ⟨0, v, t, rfl, rfl, here⟩
      · obtain ⟨i, w, u, first, second, asks⟩ := ih there
        exact ⟨i + 1, w, u, first, second, asks⟩

theorem bufferFor_of_asks {t : Tree} {laid : Prop} (mirrors : t.Mirrors a laid) {v : Value}
    {size align : Nat} (asks : t.Asks v size align) : a.BufferFor v t.type size align := by
  induction t generalizing v laid with
  | prim p =>
    cases v with
    | text bytes =>
      obtain ⟨rfl, rfl, rfl⟩ := asks
      exact .text
    | _ => exact asks.elim
  | product form id fields offsets extent ih =>
    obtain ⟨kind, known, stands⟩ := mirrors.rooted id rfl
    cases v with
    | product found items =>
      obtain ⟨rfl, asks⟩ := asks
      obtain ⟨i, w, u, first, second, asks⟩ := exists_of_asksAll asks
      have member := List.mem_of_getElem? second
      have inner := ih u member (mirrorsAll_iff.mp mirrors.2.2 u member) asks
      exact .product known stands first (by rw [List.getElem?_map, second]; rfl) inner
    | _ => exact asks.elim
  | enumeration id count extent => exact asks.elim
  | option id payload start extent ih =>
    obtain ⟨kind, known, rfl⟩ := mirrors.rooted id rfl
    cases v with
    | present inner => exact .present known (ih mirrors.2.2 asks)
    | _ => exact asks.elim
  | list id element ih =>
    obtain ⟨kind, known, rfl⟩ := mirrors.rooted id rfl
    cases v with
    | list items =>
      rcases asks with ⟨rfl, rfl⟩ | ⟨item, member, asks⟩
      · exact .elements known (measure_extent mirrors.2)
      · exact .item known member (ih mirrors.2 asks)
    | _ => exact asks.elim
  | synonym id target ih =>
    obtain ⟨kind, known, rfl⟩ := mirrors.rooted id rfl
    exact .synonym known (ih mirrors.2 asks)

end Tree

theorem Group.admitsAll {a : Arena} {types : List Ty} (g : Group a types) {values : List Value}
    (typed : InhabitsAll a values types) : Tree.AdmitsAll g.fields values :=
  Tree.admitsAll_of_inhabits g.unfolds (by rw [g.same]; exact typed)

theorem Group.bufferAmong {a : Arena} {types : List Ty} (g : Group a types) {values : List Value}
    {size align : Nat} (asks : Tree.AsksAll g.fields values size align) : a.BufferAmong values types size align := by
  obtain ⟨i, v, t, first, second, asks⟩ := Tree.exists_of_asksAll asks
  have mirrors := Tree.mirrorsAll_iff.mp g.unfolds t (List.mem_of_getElem? second)
  refine ⟨i, v, t.type, first, ?_, Tree.bufferFor_of_asks mirrors asks⟩
  rw [← g.same, List.getElem?_map, second]
  rfl

end ZigBindings
