import ZigBindings.Crossing.Flat
import ZigBindings.Proofs.Emission.Effects

/-! Emission of single instructions: each finds the operands that it takes, and leaves as many as
its place in the code for a value asks for. -/

namespace ZigBindings.Emission

section
variable {setting : Setting} {given : Context → Prop}

theorem getArg_emits (nth : Nat) : Emits setting (fun c => nth < c.params) [.getArg nth] 0 1 :=
  .single fun s inside _ => by
    change nth < s.params.length at inside
    simp only [emit, Emission.getArg, List.getElem?_eq_getElem inside]
    exact s.push_moved _

theorem i32Const_emits (value : Int) : Emits setting given [.i32Const value] 0 1 :=
  .single fun s _ _ => s.push_moved _

theorem zeros_emits (slots : List Slot) :
    Emits setting given (Crossing.zeros slots) 0 slots.length := by
  unfold Crossing.zeros
  cases slots with
  | nil => exact .nil
  | cons slot slots => exact .single fun s _ _ => (s.pushAll_moved _).cast (by simp)

theorem rollTo_emits (depth : Nat) :
    Emits setting given (Crossing.rollTo depth) (depth + 1) (depth + 1) := by
  unfold Crossing.rollTo
  split
  · exact Emits.nil.cast (by omega) (by omega)
  · exact .single fun s _ enough => roll_computes (by omega)

theorem rolls_emits (depth count : Nat) :
    Emits setting given (List.replicate count (Crossing.rollTo depth)).flatten (depth + 1)
      (depth + 1) := by
  induction count with
  | zero => exact Emits.nil.cast (by omega) (by omega)
  | succ count ih =>
    rw [List.replicate_succ, List.flatten_cons]
    exact ((rollTo_emits depth).append ih).cast (by omega) (by omega)

theorem slotWidths_contains {p : Primitive} (number : p ≠ .string) :
    (Zig.slotWidths p).contains ((Layout.primitiveSlots p).headD .i32).bits = true := by
  cases p <;> first | rfl | exact absurd rfl number

theorem slotWidths_access {p : Primitive} {access : Access}
    (found : Access.ofPrimitive? p = some access) :
    (Zig.slotWidths p).contains access.slot.bits = true := by
  cases p <;> cases found <;> rfl

theorem numericWiden_emits {p : Primitive} {slot : Slot}
    (width : (Zig.slotWidths p).contains slot.bits = true) :
    Emits setting given [.numericWiden p slot] 1 1 := .single fun s _ enough => by
  have number : ∀ value, Computes False (widened value p slot) fun _ => True := fun value => by
    cases p <;> trivial
  simp only [emit, Emission.numericWiden, requireWidth, width, if_true]
  refine (pop_computes enough).bind fun popped moved => (number popped.1).bind fun value _ => ?_
  exact moved.trans (push_moved _ value)

theorem numericNarrow_emits {p : Primitive} {slot : Slot}
    (width : (Zig.slotWidths p).contains slot.bits = true) :
    Emits setting given [.numericNarrow slot p] 1 1 := .single fun s _ enough => by
  have number : ∀ value, Computes False (narrowed value slot p) fun _ => True := fun value => by
    cases p <;> trivial
  simp only [emit, Emission.numericNarrow, requireWidth, width, if_true]
  refine (pop_computes enough).bind fun popped moved => (number popped.1).bind fun value _ => ?_
  exact moved.trans (push_moved _ value)

theorem lowerSlice_computes {s : Emission} (enough : 1 ≤ s.operands.length) :
    Computes False s.lowerSlice (Moved 1 2 s) := by
  refine (pop_computes enough).bind fun popped moved => ?_
  have sliced := popped.2.materialize_moved popped.1 "slice"
  exact (moved.trans (sliced.trans (pushAll_moved _ _))).cast (by simp)

theorem liftSlice_computes (element stem : String) {s : Emission} (enough : 2 ≤ s.operands.length) :
    Computes False (s.liftSlice element stem) (Moved 2 1 s) := by
  refine (pop_computes (by omega)).bind fun length first => ?_
  have count := first.count
  refine (pop_computes (by omega)).bind fun pointer second => ?_
  have named := pointer.2.tmp_write_moved stem
  exact (first.trans (second.trans ((named _).trans (push_moved _ _)))).cast (by omega)

theorem stringLower_emits : Emits setting given [.stringLower] 1 2 :=
  .single fun _ _ enough => lowerSlice_computes enough

theorem stringLift_emits : Emits setting given [.stringLift] 2 1 :=
  .single fun _ _ enough => liftSlice_computes _ _ enough

theorem listCanonLower_emits (element : Ty) : Emits setting given [.listCanonLower element] 1 2 :=
  .single fun _ _ enough => lowerSlice_computes enough

theorem listCanonLift_emits {element : Ty} {text : String}
    (spelled : Zig.spell setting.arena element = .ok text) :
    Emits setting given [.listCanonLift element] 2 1 := .single fun s _ enough => by
  simp only [emit, Emission.listCanonLift, spelled, ok_bind]
  exact liftSlice_computes _ _ enough

theorem tupleLower_emits (id arity : Nat) : Emits setting given [.tupleLower id arity] 1 arity :=
  .single fun s _ enough => by
    refine (pop_computes enough).bind fun found moved => ?_
    obtain ⟨value, middle⟩ := found
    by_cases none : arity = 0
    · subst none
      exact moved.trans (write_moved _ _)
    · have named := middle.materialize_moved value "tuple"
      simp only [if_neg none, pure_eq_ok, Computes.ok]
      exact (moved.trans (named.trans (pushAll_moved _ _))).cast (by simp)

theorem tupleLift_emits (id arity : Nat) : Emits setting given [.tupleLift id arity] arity 1 :=
  .single fun s _ enough => (popN_computes enough).bind fun popped moved =>
    (moved.2.trans (push_moved _ _)).cast (by omega)

theorem load_emits (access : Access) (offset : Nat) :
    Emits setting given [.load access offset] 1 1 := .single fun s _ enough =>
  (pop_computes enough).bind fun popped moved => by
    have named := popped.2.tmp_write_moved "load"
    exact (moved.trans ((named _).trans (push_moved _ _))).cast (by omega)

theorem store_emits (access : Access) (offset : Nat) :
    Emits setting given [.store access offset] 2 0 := .single fun s _ enough => by
  refine (pop_computes (by omega)).bind fun base first => ?_
  have count := first.count
  refine (pop_computes (by omega)).bind fun value second => ?_
  exact (first.trans (second.trans (write_moved _ _))).cast (by omega)

theorem iterElem_emits : Emits setting (fun c => true ∈ c.loops) [.iterElem] 0 1 :=
  .single fun _ inside _ => (item_computes inside).bind fun _ moved =>
    moved.trans (push_moved _ _)

theorem variantPayload_emits : Emits setting (fun c => c.loops ≠ []) [.variantPayload] 0 1 :=
  .single fun _ inside _ => (payload_computes inside).bind fun _ moved =>
    moved.trans (push_moved _ _)

theorem address_emits (address : Instruction) :
    Emits setting (fun c => c.Offers address) [address] 0 1 := by
  cases address with
  | getArg nth => exact getArg_emits nth
  | iterBasePointer =>
    exact .single fun s inside _ => (base_computes inside).bind fun named moved =>
      moved.trans (push_moved _ _)
  | returnPointer size align =>
    refine .single fun s _ _ => ?_
    simp only [emit, useReturnArea]
    split
    · exact push_moved _ _
    · have named := s.fresh_moved "ret_area"
      have kept : ∀ area, Moved 0 0 s { (s.fresh "ret_area").2 with returnArea := area } :=
        fun _ => ⟨named.count, named.params, named.blocks, named.frames⟩
      exact (kept _).trans (push_moved _ _)
  | paramPointer size align =>
    refine .single fun s _ _ => ?_
    simp only [emit, useParamArea]
    split
    · exact push_moved _ _
    · have named := s.fresh_moved "param_area"
      have kept : ∀ area, Moved 0 0 s { (s.fresh "param_area").2 with paramArea := area } :=
        fun _ => ⟨named.count, named.params, named.blocks, named.frames⟩
      exact (kept _).trans (push_moved _ _)
  | _ => exact .single fun s never _ => never.elim

end

end ZigBindings.Emission
