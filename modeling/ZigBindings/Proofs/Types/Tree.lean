import Mathlib.Data.Fintype.Card
import ZigBindings.Layout.Flat
import ZigBindings.Proofs.Layout.Offsets

/-! A type together with everything it refers to, unfolded to a finite tree. Every node carries the
layout that the arena gives it, so that code for a type is a plain function of its tree. -/

namespace ZigBindings
open Layout (Extent)

inductive Form where
  | tuple | record
deriving DecidableEq, Inhabited

def Kind.product? : Kind → Option (Form × List Ty)
  | .tuple elements => some (.tuple, elements)
  | .record fields => some (.record, fields.map (·.2))
  | _ => none

inductive Tree where
  | prim (primitive : Primitive)
  | product (form : Form) (id : Nat) (fields : List Tree) (offsets : List Nat) (extent : Extent)
  | enumeration (id count : Nat) (extent : Extent)
  | option (id : Nat) (payload : Tree) (start : Nat) (extent : Extent)
  | list (id : Nat) (element : Tree)
  | synonym (id : Nat) (target : Tree)
deriving Inhabited

namespace Tree

@[induction_eliminator]
theorem ind {motive : Tree → Prop}
    (prim : ∀ p, motive (.prim p))
    (product : ∀ form id fields offsets extent, (∀ field ∈ fields, motive field) →
      motive (.product form id fields offsets extent))
    (enumeration : ∀ id count extent, motive (.enumeration id count extent))
    (option : ∀ id payload start extent, motive payload → motive (.option id payload start extent))
    (list : ∀ id element, motive element → motive (.list id element))
    (synonym : ∀ id target, motive target → motive (.synonym id target)) :
    ∀ t, motive t := fun t =>
  Tree.rec (motive_1 := motive) (motive_2 := fun fields => ∀ field ∈ fields, motive field)
    prim product enumeration option list synonym
    (fun _ absent => nomatch absent)
    (fun _ _ first others field member => by
      rcases List.mem_cons.mp member with rfl | later
      · exact first
      · exact others field later)
    t

def type : Tree → Ty
  | prim p => .prim p
  | product _ id _ _ _ | enumeration id _ _ | option id _ _ _ | list id _ | synonym id _ => .ref id

def core : Tree → Tree
  | synonym _ target => target.core
  | t => t

def extent : Tree → Extent
  | prim p => Layout.primitiveExtent p
  | product _ _ _ _ extent | enumeration _ _ extent | option _ _ _ extent => extent
  | list _ _ => ⟨8, 4⟩
  | synonym _ target => target.extent

def size (t : Tree) : Nat := t.extent.size

mutual
def slots : Tree → List Slot
  | prim p => Layout.primitiveSlots p
  | product _ _ fields _ _ => slotsAll fields
  | enumeration _ _ _ => [.i32]
  | option _ payload _ _ => .i32 :: payload.slots
  | list _ _ => [.i32, .i32]
  | synonym _ target => target.slots

def slotsAll : List Tree → List Slot
  | [] => []
  | t :: rest => t.slots ++ slotsAll rest
end

mutual
def height : Tree → Nat
  | prim _ => 0
  | enumeration _ _ _ => 1
  | product _ _ fields _ _ => heightAll fields + 1
  | option _ inner _ _ | list _ inner | synonym _ inner => inner.height + 1

def heightAll : List Tree → Nat
  | [] => 0
  | t :: rest => max t.height (heightAll rest)
end

def Stands : Tree → Kind → Prop
  | prim _, _ => False
  | product form _ fields _ _, kind => kind.product? = some (form, fields.map type)
  | enumeration _ count _, kind => ∃ cases, kind = .enumeration cases ∧ cases.length = count
  | option _ payload _ _, kind => kind = .option payload.type
  | list _ element, kind => kind = .list element.type
  | synonym _ target, kind => kind = .alias target.type

theorem product_stands {form given : Form} {id : Nat} {fields : List Tree} {offsets : List Nat}
    {extent : Extent} {kind : Kind} {types : List Ty}
    (stands : (product form id fields offsets extent).Stands kind)
    (shape : kind.product? = some (given, types)) : given = form ∧ types = fields.map type := by
  have same : some (given, types) = some (form, fields.map type) := shape.symm.trans stands
  cases same
  exact ⟨rfl, rfl⟩

theorem product_kind {form : Form} {id : Nat} {fields : List Tree} {offsets : List Nat}
    {extent : Extent} {kind : Kind} (stands : (product form id fields offsets extent).Stands kind) :
    (form = .tuple ∧ kind = .tuple (fields.map type)) ∨
      ∃ parts, form = .record ∧ kind = .record parts ∧ parts.map (·.2) = fields.map type := by
  change kind.product? = some (form, fields.map type) at stands
  cases kind with
  | tuple elements =>
    cases stands
    exact .inl ⟨rfl, rfl⟩
  | record parts =>
    simp only [Kind.product?, Option.some.injEq, Prod.mk.injEq] at stands
    exact .inr ⟨parts, stands.1.symm, rfl, stands.2⟩
  | _ => cases stands

def Rooted (a : Arena) (t : Tree) : Prop :=
  ∀ id, t.type = .ref id → ∃ kind, a.kind id = .ok kind ∧ t.Stands kind

theorem Rooted.of_kind {a : Arena} {t : Tree} {id : Nat} {kind : Kind} (reference : t.type = .ref id)
    (found : a.kind id = .ok kind) (stands : t.Stands kind) : t.Rooted a := by
  intro other same
  cases reference.symm.trans same
  exact ⟨kind, found, stands⟩

def Lays (fields : List Tree) (offsets : List Nat) (extent : Extent) : Prop :=
  (∃ stop, Layout.place 0 (fields.map Tree.extent) = .ok (offsets, stop)) ∧
    Layout.recordExtent (fields.map Tree.extent) = .ok extent

mutual
/-- The tree is what the arena makes of its root's type, and every discriminant fits the four bytes
that it has at most. What lies in memory has the layout that the arena computes for it; elements of
lists always do, the rest does when it is `laid` out. -/
def Mirrors (a : Arena) (laid : Prop) (t : Tree) : Prop :=
  match t with
  | prim _ => True
  | product form id fields offsets extent =>
    (product form id fields offsets extent).Rooted a ∧
    (laid → Lays fields offsets extent) ∧ MirrorsAll a laid fields
  | enumeration id count extent =>
    (enumeration id count extent).Rooted a ∧ count ≤ 2 ^ 32 ∧
    (laid → Layout.sumExtent count [] = .ok extent)
  | option id payload start extent =>
    (option id payload start extent).Rooted a ∧
    (laid → Layout.payloadStart 2 [payload.extent] = .ok start ∧
      Layout.sumExtent 2 [payload.extent] = .ok extent) ∧ Mirrors a laid payload
  | list id element => (list id element).Rooted a ∧ Mirrors a True element
  | synonym id target => (synonym id target).Rooted a ∧ Mirrors a laid target

def MirrorsAll (a : Arena) (laid : Prop) (fields : List Tree) : Prop :=
  match fields with
  | [] => True
  | t :: rest => Mirrors a laid t ∧ MirrorsAll a laid rest
end

/-- The tree is what the arena makes of its root's type, with all layouts. -/
abbrev Unfolds (a : Arena) (t : Tree) : Prop := t.Mirrors a True

abbrev UnfoldsAll (a : Arena) (fields : List Tree) : Prop := MirrorsAll a True fields

theorem mirrorsAll_iff {a : Arena} {laid : Prop} {fields : List Tree} :
    MirrorsAll a laid fields ↔ ∀ field ∈ fields, field.Mirrors a laid := by
  induction fields with
  | nil => simp [MirrorsAll]
  | cons t rest ih => simp [MirrorsAll, ih]

theorem exists_below {n depth : Nat} (deep : n + 1 ≤ depth) : ∃ below, depth = below + 1 ∧ n ≤ below :=
  ⟨depth - 1, by omega, by omega⟩

theorem height_le_all {fields : List Tree} {field : Tree} (member : field ∈ fields) :
    field.height ≤ heightAll fields := by
  induction fields with
  | nil => cases member
  | cons t rest ih =>
    simp only [heightAll]
    rcases List.mem_cons.mp member with rfl | later
    · omega
    · have := ih later
      omega

theorem exists_highest {fields : List Tree} (high : 0 < heightAll fields) :
    ∃ field ∈ fields, field.height = heightAll fields := by
  induction fields with
  | nil => simp [heightAll] at high
  | cons t rest ih =>
    simp only [heightAll] at high ⊢
    rcases Nat.le_total (heightAll rest) t.height with le | le
    · exact ⟨t, by simp, by omega⟩
    · obtain ⟨field, member, same⟩ := ih (by omega)
      exact ⟨field, by simp [member], by omega⟩

theorem Mirrors.rooted {a : Arena} {laid : Prop} {t : Tree} (mirrors : t.Mirrors a laid) :
    t.Rooted a := by
  cases t with
  | prim p => intro id reference; simp [type] at reference
  | _ => exact mirrors.1

theorem same_kind {a : Arena} {laid also : Prop} {t other : Tree} {id : Nat}
    (mirrors : t.Mirrors a laid) (others : other.Mirrors a also) (reference : t.type = .ref id)
    (types : t.type = other.type) :
    ∃ kind, a.kind id = .ok kind ∧ t.Stands kind ∧ other.Stands kind := by
  obtain ⟨kind, found, stands⟩ := mirrors.rooted id reference
  obtain ⟨kind', found', stands'⟩ := others.rooted id (types.symm.trans reference)
  cases found.symm.trans found'
  exact ⟨kind, found, stands, stands'⟩

private theorem heightAll_eq_of_types {fields others : List Tree}
    (each : ∀ field ∈ fields, ∀ other ∈ others, field.type = other.type →
      field.height = other.height)
    (types : fields.map type = others.map type) : heightAll fields = heightAll others := by
  induction fields generalizing others with
  | nil =>
    cases others with
    | nil => rfl
    | cons other others => simp at types
  | cons field fields ih =>
    cases others with
    | nil => simp at types
    | cons other others =>
      simp only [List.map_cons, List.cons.injEq] at types
      have rest := ih (fun f member o found => each f (by simp [member]) o (by simp [found])) types.2
      simp only [heightAll, each field (by simp) other (by simp) types.1, rest]

/-- A type unfolds to trees of one height. -/
theorem height_unique {a : Arena} {laid also : Prop} {t other : Tree} (mirrors : t.Mirrors a laid)
    (others : other.Mirrors a also) (types : t.type = other.type) : t.height = other.height := by
  induction t generalizing other laid also with
  | prim p =>
    cases other with
    | prim q => rfl
    | _ => simp [type] at types
  | product form id fields offsets extent ih =>
    obtain ⟨kind, -, stands, alike⟩ := same_kind mirrors others rfl types
    cases other with
    | product form' id' fields' offsets' extent' =>
      obtain ⟨-, same⟩ := product_stands alike stands
      have heights := heightAll_eq_of_types (fun field member other found =>
        ih field member (mirrorsAll_iff.mp mirrors.2.2 field member)
          (mirrorsAll_iff.mp others.2.2 other found)) same
      simp only [height, heights]
    | enumeration id' count' extent' =>
      obtain ⟨cases, rfl, -⟩ := alike
      cases stands
    | _ => cases alike <;> cases stands
  | enumeration id count extent =>
    obtain ⟨kind, -, ⟨cases, rfl, -⟩, alike⟩ := same_kind mirrors others rfl types
    cases other with
    | enumeration id' count' extent' => rfl
    | _ => cases alike
  | option id payload start extent ih =>
    obtain ⟨kind, -, rfl, alike⟩ := same_kind mirrors others rfl types
    cases other with
    | option id' payload' start' extent' =>
      injection alike with same
      simp only [height, ih mirrors.2.2 others.2.2 same]
    | enumeration id' count' extent' =>
      obtain ⟨cases, absurd, -⟩ := alike
      cases absurd
    | _ => cases alike
  | list id element ih =>
    obtain ⟨kind, -, rfl, alike⟩ := same_kind mirrors others rfl types
    cases other with
    | list id' element' =>
      injection alike with same
      simp only [height, ih mirrors.2 others.2 same]
    | enumeration id' count' extent' =>
      obtain ⟨cases, absurd, -⟩ := alike
      cases absurd
    | _ => cases alike
  | synonym id target ih =>
    obtain ⟨kind, -, rfl, alike⟩ := same_kind mirrors others rfl types
    cases other with
    | synonym id' target' =>
      injection alike with same
      simp only [height, ih mirrors.2 others.2 same]
    | enumeration id' count' extent' =>
      obtain ⟨cases, absurd, -⟩ := alike
      cases absurd
    | _ => cases alike

/-- Below a tree there is one of every smaller height, and each of them is a definition. -/
theorem exists_of_height {a : Arena} {laid : Prop} {t : Tree} (mirrors : t.Mirrors a laid) {n : Nat}
    (positive : 0 < n) (bound : n ≤ t.height) :
    ∃ (below : Tree) (laid : Prop), below.Mirrors a laid ∧ below.height = n ∧
      ∃ id, below.type = .ref id := by
  induction t generalizing laid with
  | prim p => simp only [height] at bound; omega
  | product form id fields offsets extent ih =>
    by_cases top : n = (product form id fields offsets extent).height
    · exact ⟨_, laid, mirrors, top.symm, id, rfl⟩
    · simp only [height] at bound top
      obtain ⟨field, member, same⟩ : ∃ field ∈ fields, field.height = heightAll fields :=
        exists_highest (by omega)
      exact ih field member (mirrorsAll_iff.mp mirrors.2.2 field member) (by omega)
  | enumeration id count extent =>
    simp only [height] at bound
    exact ⟨_, laid, mirrors, by simp only [height]; omega, id, rfl⟩
  | option id payload start extent ih =>
    by_cases top : n = (option id payload start extent).height
    · exact ⟨_, laid, mirrors, top.symm, id, rfl⟩
    · simp only [height] at bound top
      exact ih mirrors.2.2 (by omega)
  | list id element ih =>
    by_cases top : n = (list id element).height
    · exact ⟨_, laid, mirrors, top.symm, id, rfl⟩
    · simp only [height] at bound top
      exact ih mirrors.2 (by omega)
  | synonym id target ih =>
    by_cases top : n = (synonym id target).height
    · exact ⟨_, laid, mirrors, top.symm, id, rfl⟩
    · simp only [height] at bound top
      exact ih mirrors.2 (by omega)

theorem kind_bounded {a : Arena} {id : Nat} {kind : Kind} (found : a.kind id = .ok kind) :
    id < a.size := by
  by_contra outside
  simp [Arena.kind, Arena.typedef, Array.getElem?_eq_none (by omega : a.size ≤ id), Except.map,
    throw_eq_error] at found

/-- The definitions on a way down a tree differ, so a tree is no higher than its arena is large. -/
theorem height_le {a : Arena} {laid : Prop} {t : Tree} (mirrors : t.Mirrors a laid) :
    t.height ≤ a.size := by
  have each : ∀ n : Fin t.height, ∃ (id : Fin a.size) (below : Tree) (laid : Prop),
      below.Mirrors a laid ∧ below.height = n.val + 1 ∧ below.type = .ref id := by
    intro n
    obtain ⟨below, laid, inner, high, id, reference⟩ := exists_of_height mirrors (n := n.val + 1)
      (by omega) n.isLt
    obtain ⟨kind, found, -⟩ := inner.rooted id reference
    exact ⟨⟨id, kind_bounded found⟩, below, laid, inner, high, reference⟩
  choose place below laid inner high reference using each
  have injective : Function.Injective place := by
    intro m n same
    have types : (below m).type = (below n).type := by rw [reference, reference, same]
    have heights := height_unique (inner m) (inner n) types
    rw [high, high] at heights
    exact Fin.ext (by omega)
  simpa using Fintype.card_le_of_injective place injective

end Tree

end ZigBindings
