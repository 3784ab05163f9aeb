import ZigBindings.Crossing.Sequence
import ZigBindings.Proofs.Types.Contents
import ZigBindings.Proofs.Types.Crossable

/-! Types that stand side by side: the parameters of a function, or its results. They share a row
of slots, or an area of memory that is laid out like a record. -/

namespace ZigBindings
open Layout (Extent)

/-- The types that a function's values have. -/
def Function.types (f : Function) : List Ty := f.params.map (·.2) ++ f.results.types

theorem Function.param_mem {f : Function} {ty : Ty} (member : ty ∈ f.params.map (·.2)) :
    ty ∈ f.types := List.mem_append_left _ member

theorem Function.result_mem {f : Function} {ty : Ty} (member : ty ∈ f.results.types) :
    ty ∈ f.types := List.mem_append_right _ member

/-- An area for the parameters or for the results has no layout, or a type of the function has none. -/
def Arena.OversizedCall (a : Arena) (f : Function) : Prop :=
  Layout.Overflows (Layout.recordLayout a (f.params.map (·.2))) ∨
    Layout.Overflows (Layout.recordLayout a f.results.types) ∨ ∃ ty ∈ f.types, a.Oversized ty

def Arena.FitsAll (a : Arena) (types : List Ty) : Prop :=
  ∃ extent, Layout.recordLayout a types = .ok extent ∧ extent.size < 2 ^ 32

/-- An area for values of these types has this size and alignment. -/
def Arena.AreaFor (a : Arena) (types : List Ty) (size align : Nat) : Prop :=
  Layout.recordLayout a types = .ok ⟨size, align⟩

/-- The trees of types side by side, and where their values stand in an area. -/
structure Group (a : Arena) (types : List Ty) where
  fields : List Tree
  offsets : List Nat
  extent : Extent
  same : fields.map Tree.type = types
  unfolds : Tree.UnfoldsAll a fields
  lays : Tree.Lays fields offsets extent
  small : extent.size < 2 ^ 32

namespace Group

variable {a : Arena} {types : List Ty}

theorem exists_group (crossable : ∀ ty ∈ types, Crossable a ty) (fits : a.FitsAll types) :
    Nonempty (Group a types) := by
  obtain ⟨fields, rfl, unfolds⟩ := exists_trees crossable
  obtain ⟨extent, measured, small⟩ := fits
  have whole : Layout.recordExtent (fields.map Tree.extent) = .ok extent := by
    simpa only [Layout.recordLayout, Tree.measureAll_extents unfolds, ok_bind] using measured
  obtain ⟨offsets, stop, placed⟩ := Layout.recordExtent_places whole
  exact ⟨⟨fields, offsets, extent, rfl, unfolds, ⟨⟨stop, placed⟩, whole⟩, small⟩⟩

variable (g : Group a types)

def slots : List Slot := Tree.slotsAll g.fields

theorem length_fields : g.fields.length = types.length := by
  have lengths := congrArg List.length g.same
  rwa [List.length_map] at lengths

theorem placed : Layout.Placed 0 (g.fields.map Tree.extent) g.offsets g.extent.size :=
  g.lays.placed g.unfolds (by have := g.small; omega)

theorem flattenAll_eq : Layout.flattenAll a types = .ok g.slots := by
  have flat := Tree.flattenAll_slots g.unfolds
  rwa [g.same] at flat

theorem recordLayout_eq : Layout.recordLayout a types = .ok g.extent := by
  have extents := Tree.measureAll_extents g.unfolds
  rw [g.same] at extents
  simp only [Layout.recordLayout, extents, ok_bind, g.lays.2]

theorem fieldOffsets_eq : Layout.fieldOffsets a types = .ok g.offsets := by
  have offsets := Tree.fieldOffsets_of_lays g.unfolds g.lays
  rwa [g.same] at offsets

end Group

end ZigBindings
