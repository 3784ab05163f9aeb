import ZigBindings.Proofs.Emission.Blocks
import ZigBindings.Proofs.Types.Contents

/-! Emission of the code for a value. Code for a passable type finds its operands and blocks as its
instructions expect them: it takes the value or its slots and leaves its slots or the value. -/

namespace ZigBindings.Emission
open Crossing

variable {setting : Setting} {given : Context → Prop} {huge : Prop}

theorem flatten_emits {ι : Type} (takes gives : ι → Nat) {xs : List ι} {parts : List (List Instruction)}
    (each : List.Forall₂ (fun x part => Emits setting given part (takes x) (gives x)) xs parts) :
    Emits setting given parts.flatten (xs.map takes).sum (xs.map gives).sum := by
  induction each with
  | nil => exact .nil
  | cons first _ ih =>
    simp only [List.flatten_cons, List.map_cons, List.sum_cons]
    exact (first.append ih).cast (by omega) (by omega)

theorem storePair_emits (address : Instruction) (offset : Nat) :
    Emits setting (·.Offers address) (storePair address offset) 2 0 := by
  have store : ∀ offset, Emits setting (·.Offers address) ([address] ++ [.store .i32 offset]) 1 0 :=
    fun offset => ((address_emits address).append (store_emits _ offset)).cast (by omega) (by omega)
  exact ((store (offset + 4)).append (store offset)).cast (by omega) (by omega)

theorem loadPair_emits (address : Instruction) (offset : Nat) :
    Emits setting (·.Offers address) (loadPair address offset) 0 2 := by
  have load : ∀ offset, Emits setting (·.Offers address) ([address] ++ [.load .i32 offset]) 0 1 :=
    fun offset => ((address_emits address).append (load_emits _ offset)).cast (by omega) (by omega)
  exact ((load offset).append (load (offset + 4))).cast (by omega) (by omega)

theorem isCanonical_computes {element : Ty} (passable : Passable setting.arena element) :
    Computes huge (isCanonical setting.arena element) fun _ => True := by
  simp only [isCanonical, passable.unalias_eq, ok_bind]
  cases element with
  | prim p => trivial
  | ref id => trivial

theorem lowerList_computes {element : Ty} (passable : Passable setting.arena element)
    (large : setting.arena.Oversized element → huge) {write : Mover}
    (written : Computes huge (write element .iterBasePointer 0) fun body =>
      Emits setting (·.Offers .iterBasePointer) body 1 0) :
    Computes huge (lowerList setting.arena write element) fun code =>
      Emits setting given code 1 2 := by
  refine (isCanonical_computes passable).bind fun canonical _ => ?_
  cases canonical with
  | true => exact listCanonLower_emits element
  | false =>
    refine written.bind fun body emits => ?_
    have measured := passable.founded.measure_computes.widen fun many => large (.self many)
    refine measured.bind fun extent aligned => ?_
    have positive := aligned.positive
    exact listLower_emits (by omega) emits

theorem liftList_computes {element : Ty} (spellable : Spellable setting.arena element)
    (large : setting.arena.Oversized element → huge) {read : Mover}
    (found : Computes huge (read element .iterBasePointer 0) fun body =>
      Emits setting (·.Offers .iterBasePointer) body 0 1) :
    Computes huge (liftList setting.arena read element) fun code =>
      Emits setting given code 2 1 := by
  obtain ⟨text, spelled⟩ := spellable.exists_spelling
  refine (isCanonical_computes spellable.passable).bind fun canonical _ => ?_
  cases canonical with
  | true => exact listCanonLift_emits spelled
  | false =>
    refine found.bind fun body emits => ?_
    have measured := spellable.passable.founded.measure_computes.widen fun many => large (.self many)
    refine measured.bind fun extent _ => ?_
    exact listLift_emits spelled emits

theorem writeFields_computes {types : List Ty} (passable : ∀ ty ∈ types, Passable setting.arena ty)
    (large : Layout.Overflows (Layout.recordLayout setting.arena types) → huge) {write : Mover}
    {address : Instruction} {offset : Nat}
    (written : ∀ ty ∈ types, ∀ offset, Computes huge (write ty address offset) fun code =>
      Emits setting (·.Offers address) code 1 0) :
    Computes huge (writeFields setting.arena write types address offset) fun code =>
      Emits setting (·.Offers address) code types.length 0 := by
  have placed := fieldOffsets_computes fun ty member => (passable ty member).founded
  refine (placed.widen large).bind fun offsets length => ?_
  refine (Computes.mapM fun field member => written field.1
    (List.of_mem_zip (List.mem_reverse.mp member)).1 _).bind fun parts each => ?_
  have emits := flatten_emits (fun _ => 1) (fun _ => 0) each
  exact emits.cast (by simp [length]) (by simp [length])

theorem readFields_computes {types : List Ty} (passable : ∀ ty ∈ types, Passable setting.arena ty)
    (large : Layout.Overflows (Layout.recordLayout setting.arena types) → huge) {read : Mover}
    {address : Instruction} {offset : Nat}
    (found : ∀ ty ∈ types, ∀ offset, Computes huge (read ty address offset) fun code =>
      Emits setting (·.Offers address) code 0 1) :
    Computes huge (readFields setting.arena read types address offset) fun code =>
      Emits setting (·.Offers address) code 0 types.length := by
  have placed := fieldOffsets_computes fun ty member => (passable ty member).founded
  refine (placed.widen large).bind fun offsets length => ?_
  refine (Computes.mapM fun field member => found field.1 (List.of_mem_zip member).1 _).bind
    fun parts each => ?_
  have emits := flatten_emits (fun _ => 0) (fun _ => 1) each
  exact emits.cast (by simp [length]) (by simp)

theorem discriminant_emits (address : Instruction) (access : Access) (offset : Nat) (value : Int) :
    Emits setting (·.Offers address) [.i32Const value, address, .store access offset] 0 0 :=
  ((i32Const_emits value).append ((address_emits address).append (store_emits access offset))).cast
    (by omega) (by omega)

theorem writeWithin_computes {ty : Ty} (passable : Passable setting.arena ty) {depth : Nat}
    (deep : setting.arena.level ty < depth) (large : setting.arena.Oversized ty → huge)
    (address : Instruction) (offset : Nat) :
    Computes huge (writeWithin setting.arena depth ty address offset) fun code =>
      Emits setting (·.Offers address) code 1 0 := by
  induction passable using Passable.induct generalizing depth address offset with
  | prim p =>
    obtain ⟨depth, rfl⟩ : ∃ d, depth = d + 1 := ⟨depth - 1, by omega⟩
    have reached : setting.arena.unalias (.prim p) = .ok (.prim p) := rfl
    simp only [writeWithin, reached, ok_bind]
    cases access : Access.ofPrimitive? p with
    | none =>
      exact (stringLower_emits.append (storePair_emits address offset)).cast (by omega) (by omega)
    | some access =>
      exact ((numericWiden_emits (slotWidths_access access)).append ((address_emits address).append
        (store_emits _ offset))).cast (by omega) (by omega)
  | tuple id elements passable found each ih =>
    obtain ⟨depth, rfl⟩ : ∃ d, depth = d + 1 := ⟨depth - 1, by omega⟩
    simp only [writeWithin, passable.unalias_eq, found, ok_bind]
    have whole := large ∘ passable.founded.oversized_product found rfl
    refine (writeFields_computes each whole fun ty member offset => ih ty member
      (passable.under found member deep) (large ∘ passable.oversized_part found member) address offset).bind
      fun parts emits => ?_
    exact ((tupleLower_emits id elements.length).append emits).cast (by omega) (by omega)
  | option id payload passable found inner ih =>
    obtain ⟨depth, rfl⟩ : ∃ d, depth = d + 1 := ⟨depth - 1, by omega⟩
    simp only [writeWithin, passable.unalias_eq, found, ok_bind]
    have member : payload ∈ (Kind.option payload).parts := by simp [Kind.parts]
    have placed := (payloadOffset_computes passable.founded found).widen fun many => large (.self many)
    refine placed.bind fun start _ => ?_
    refine (ih (passable.under found member deep) (large ∘ passable.oversized_part found member) address
      (offset + start)).bind fun parts emits => ?_
    have absent : Emits setting (fun c => c.Offers address ∧ c.loops ≠ [])
        [.i32Const 0, address, .store (discriminantAccess 2) offset] 0 ([] : List Slot).length :=
      (discriminant_emits address _ offset 0).weaken fun _ => And.left
    have present : Emits setting (fun c => c.Offers address ∧ c.loops ≠ [])
        ([.i32Const 1, address, .store (discriminantAccess 2) offset] ++
          ([.variantPayload] ++ parts)) 0 ([] : List Slot).length :=
      (((discriminant_emits address _ offset 1).weaken fun _ => And.left).append
        ((variantPayload_emits.weaken fun _ => And.right).append
          (emits.weaken fun _ => And.left))).cast (by simp) (by simp)
    have code : Emits setting (·.Offers address) _ 1 0 :=
      optionLower_emits payload absent present fun c offers =>
        ⟨offers.within false, List.cons_ne_nil _ _⟩
    refine Computes.of_ok rfl ?_
    simpa using code
  | list id element passable found inner ih =>
    obtain ⟨depth, rfl⟩ : ∃ d, depth = d + 1 := ⟨depth - 1, by omega⟩
    simp only [writeWithin, passable.unalias_eq, found, ok_bind]
    have member : element ∈ (Kind.list element).parts := by simp [Kind.parts]
    have part := large ∘ passable.oversized_part found member
    refine (lowerList_computes inner.passable part (ih (passable.under found member deep) part
      .iterBasePointer 0)).bind fun parts (emits : Emits setting (·.Offers address) _ _ _) => ?_
    exact (emits.append (storePair_emits address offset)).cast (by omega) (by omega)

theorem readWithin_computes {ty : Ty} (passable : Passable setting.arena ty) {depth : Nat}
    (deep : setting.arena.level ty < depth) (large : setting.arena.Oversized ty → huge)
    (address : Instruction) (offset : Nat) :
    Computes huge (readWithin setting.arena depth ty address offset) fun code =>
      Emits setting (·.Offers address) code 0 1 := by
  induction passable using Passable.induct generalizing depth address offset with
  | prim p =>
    obtain ⟨depth, rfl⟩ : ∃ d, depth = d + 1 := ⟨depth - 1, by omega⟩
    have reached : setting.arena.unalias (.prim p) = .ok (.prim p) := rfl
    simp only [readWithin, reached, ok_bind]
    cases access : Access.ofPrimitive? p with
    | none =>
      exact ((loadPair_emits address offset).append stringLift_emits).cast (by omega) (by omega)
    | some access =>
      exact ((address_emits address).append ((load_emits _ offset).append
        (numericNarrow_emits (slotWidths_access access)))).cast (by omega) (by omega)
  | tuple id elements passable found each ih =>
    obtain ⟨depth, rfl⟩ : ∃ d, depth = d + 1 := ⟨depth - 1, by omega⟩
    simp only [readWithin, passable.unalias_eq, found, ok_bind]
    have whole := large ∘ passable.founded.oversized_product found rfl
    refine (readFields_computes each whole fun ty member offset => ih ty member
      (passable.under found member deep) (large ∘ passable.oversized_part found member) address offset).bind
      fun parts emits => ?_
    exact (emits.append (tupleLift_emits id elements.length)).cast (by omega) (by omega)
  | option id payload passable found inner ih =>
    obtain ⟨depth, rfl⟩ : ∃ d, depth = d + 1 := ⟨depth - 1, by omega⟩
    simp only [readWithin, passable.unalias_eq, found, ok_bind]
    have member : payload ∈ (Kind.option payload).parts := by simp [Kind.parts]
    obtain ⟨text, spelled⟩ := inner.exists_spelling
    have placed := (payloadOffset_computes passable.founded found).widen fun many => large (.self many)
    refine placed.bind fun start _ => ?_
    refine (ih (passable.under found member deep) (large ∘ passable.oversized_part found member) address
      (offset + start)).bind fun parts emits => ?_
    have lifted : Emits setting (·.Offers address) _ 1 1 :=
      optionLift_emits spelled emits fun c offers => offers.within false
    refine Computes.of_ok rfl ?_
    have code := ((address_emits address).append
      ((load_emits (discriminantAccess 2) offset).append lifted))
    simpa using code
  | list id element passable found inner ih =>
    obtain ⟨depth, rfl⟩ : ∃ d, depth = d + 1 := ⟨depth - 1, by omega⟩
    simp only [readWithin, passable.unalias_eq, found, ok_bind]
    have member : element ∈ (Kind.list element).parts := by simp [Kind.parts]
    have part := large ∘ passable.oversized_part found member
    refine (liftList_computes inner part (ih (passable.under found member deep) part
      .iterBasePointer 0)).bind fun parts (emits : Emits setting (·.Offers address) _ _ _) => ?_
    exact ((loadPair_emits address offset).append emits).cast (by omega) (by omega)

theorem Passable.level_under {a : Arena} {ty : Ty} (passable : Passable a ty) :
    a.level ty < a.depth + 1 := Nat.lt_succ_of_le passable.depth_le

theorem write_computes {ty : Ty} (passable : Passable setting.arena ty)
    (large : setting.arena.Oversized ty → huge) (address : Instruction) (offset : Nat) :
    Computes huge (Crossing.write setting.arena ty address offset) fun code =>
      Emits setting (·.Offers address) code 1 0 :=
  writeWithin_computes passable (Passable.level_under passable) large address offset

theorem read_computes {ty : Ty} (passable : Passable setting.arena ty)
    (large : setting.arena.Oversized ty → huge) (address : Instruction) (offset : Nat) :
    Computes huge (Crossing.read setting.arena ty address offset) fun code =>
      Emits setting (·.Offers address) code 0 1 :=
  readWithin_computes passable (Passable.level_under passable) large address offset

theorem lowerFields_computes {types : List Ty} (passable : ∀ ty ∈ types, Passable setting.arena ty)
    {lower : Converter} (each : ∀ ty ∈ types, Computes huge (lower ty) fun code =>
      Emits setting given code 1 (setting.arena.slots ty).length) (lowered : Nat) :
    Computes huge (lowerFields setting.arena lower lowered types) fun code =>
      Emits setting given code (types.length + lowered)
        ((setting.arena.row types).length + lowered) := by
  induction types generalizing lowered with
  | nil => exact Emits.nil.cast (by simp [Arena.row]) (Nat.zero_le _)
  | cons ty rest ih =>
    rw [lowerFields, (passable ty (by simp)).flatten_eq]
    refine (each ty (by simp)).bind fun part first => ?_
    refine (ih (fun other member => passable other (by simp [member]))
      (fun other member => each other (by simp [member])) _).bind fun parts others => ?_
    rw [length_row_cons, List.length_cons]
    exact (((rollTo_emits _).append first).append others).cast (by omega) (by omega)

theorem widthOf_slots (types : List Ty) :
    widthOf (types.map fun ty => (ty, (setting.arena.slots ty).length)) =
      (setting.arena.row types).length := by
  induction types with
  | nil => rfl
  | cons ty rest ih => rw [List.map_cons, widthOf, ih, length_row_cons]

theorem liftFields_computes {types : List Ty} {lift : Converter}
    (each : ∀ ty ∈ types, Computes huge (lift ty) fun code =>
      Emits setting given code (setting.arena.slots ty).length 1) (lifted : Nat) :
    Computes huge
      (liftFields lift lifted (types.map fun ty => (ty, (setting.arena.slots ty).length)))
      fun code => Emits setting given code ((setting.arena.row types).length + lifted)
        (types.length + lifted) := by
  induction types generalizing lifted with
  | nil => exact Emits.nil.cast (by simp [Arena.row]) (Nat.zero_le _)
  | cons ty rest ih =>
    rw [List.map_cons, liftFields]
    refine (each ty (by simp)).bind fun part first => ?_
    refine (ih (fun other member => each other (by simp [member])) _).bind fun parts others => ?_
    rw [widthOf_slots, length_row_cons, List.length_cons]
    rcases Nat.eq_zero_or_pos (setting.arena.slots ty).length with none | some
    · rw [none] at first ⊢
      exact ((Emits.nil.append first).append others).cast (by omega) (by omega)
    · exact (((rolls_emits _ _).append first).append others).cast (by omega) (by omega)

theorem lowerWithin_computes {ty : Ty} (passable : Passable setting.arena ty) {depth : Nat}
    (deep : setting.arena.level ty < depth) (large : setting.arena.Oversized ty → huge) :
    Computes huge (lowerWithin setting.arena depth ty) fun code =>
      Emits setting given code 1 (setting.arena.slots ty).length := by
  induction passable using Passable.induct generalizing depth given with
  | prim p =>
    obtain ⟨depth, rfl⟩ : ∃ d, depth = d + 1 := ⟨depth - 1, by omega⟩
    have reached : setting.arena.unalias (.prim p) = .ok (.prim p) := rfl
    simp only [lowerWithin, reached, ok_bind, slots_prim]
    by_cases text : p = .string
    · subst text
      exact stringLower_emits
    · have widened : Emits setting given _ 1 1 := numericWiden_emits (slotWidths_contains text)
      cases p <;> first | exact widened | exact absurd rfl text
  | tuple id elements passable found each ih =>
    obtain ⟨depth, rfl⟩ : ∃ d, depth = d + 1 := ⟨depth - 1, by omega⟩
    simp only [lowerWithin, passable.unalias_eq, found, ok_bind, slots_tuple passable found]
    refine (lowerFields_computes each (fun ty member => ih ty member
      (passable.under found member deep) (large ∘ passable.oversized_part found member)) 0).bind
      fun parts (emits : Emits setting given _ _ _) => ?_
    exact ((tupleLower_emits id elements.length).append emits).cast (by omega) (by omega)
  | option id payload passable found inner ih =>
    obtain ⟨depth, rfl⟩ : ∃ d, depth = d + 1 := ⟨depth - 1, by omega⟩
    simp only [lowerWithin, passable.unalias_eq, found, ok_bind, slots_option passable found,
      inner.passable.flatten_eq]
    have member : payload ∈ (Kind.option payload).parts := by simp [Kind.parts]
    refine (ih (passable.under found member deep) (large ∘ passable.oversized_part found member)).bind
      fun parts (emits : Emits setting (fun c => c.loops ≠ []) _ _ _) => ?_
    have absent : Emits setting (fun c => c.loops ≠ [])
        ([.i32Const 0] ++ zeros (setting.arena.slots payload)) 0
        (Slot.i32 :: setting.arena.slots payload).length :=
      ((i32Const_emits 0).append (zeros_emits _)).cast (by simp) (by omega)
    have present : Emits setting (fun c => c.loops ≠ [])
        ([.i32Const 1] ++ ([.variantPayload] ++ parts)) 0
        (Slot.i32 :: setting.arena.slots payload).length :=
      ((i32Const_emits 1).append (variantPayload_emits.append emits)).cast (by simp)
        (by omega)
    have code : Emits setting given _ 1 (Slot.i32 :: setting.arena.slots payload).length :=
      optionLower_emits payload absent present fun c _ => List.cons_ne_nil _ _
    refine Computes.of_ok rfl ?_
    simpa using code
  | list id element passable found inner ih =>
    obtain ⟨depth, rfl⟩ : ∃ d, depth = d + 1 := ⟨depth - 1, by omega⟩
    simp only [lowerWithin, passable.unalias_eq, found, ok_bind, slots_list found]
    have part := large ∘ passable.oversized_part found (List.mem_singleton_self element)
    exact lowerList_computes inner.passable part
      (write_computes inner.passable part .iterBasePointer 0)

theorem liftWithin_computes {ty : Ty} (passable : Passable setting.arena ty) {depth : Nat}
    (deep : setting.arena.level ty < depth) (large : setting.arena.Oversized ty → huge) :
    Computes huge (liftWithin setting.arena depth ty) fun code =>
      Emits setting given code (setting.arena.slots ty).length 1 := by
  induction passable using Passable.induct generalizing depth given with
  | prim p =>
    obtain ⟨depth, rfl⟩ : ∃ d, depth = d + 1 := ⟨depth - 1, by omega⟩
    have reached : setting.arena.unalias (.prim p) = .ok (.prim p) := rfl
    simp only [liftWithin, reached, ok_bind, slots_prim]
    by_cases text : p = .string
    · subst text
      exact stringLift_emits
    · have narrowed : Emits setting given _ 1 1 := numericNarrow_emits (slotWidths_contains text)
      cases p <;> first | exact narrowed | exact absurd rfl text
  | tuple id elements passable found each ih =>
    obtain ⟨depth, rfl⟩ : ∃ d, depth = d + 1 := ⟨depth - 1, by omega⟩
    simp only [liftWithin, passable.unalias_eq, found, ok_bind, slots_tuple passable found,
      liftRecord, mapM_flatten each]
    rw [List.map_map, ← List.map_prod_left_eq_zip]
    refine (liftFields_computes (fun ty member => ih ty member (passable.under found member deep)
      (large ∘ passable.oversized_part found member)) 0).bind
        fun parts (emits : Emits setting given _ _ _) => ?_
    exact (emits.append (tupleLift_emits id elements.length)).cast (by omega) (by omega)
  | option id payload passable found inner ih =>
    obtain ⟨depth, rfl⟩ : ∃ d, depth = d + 1 := ⟨depth - 1, by omega⟩
    simp only [liftWithin, passable.unalias_eq, found, ok_bind, slots_option passable found,
      inner.passable.flatten_eq]
    have member : payload ∈ (Kind.option payload).parts := by simp [Kind.parts]
    obtain ⟨text, spelled⟩ := inner.exists_spelling
    refine (ih (passable.under found member deep) (large ∘ passable.oversized_part found member)).bind
      fun parts (emits : Emits setting (fun _ => True) _ _ _) => ?_
    have code : Emits setting given _ ((setting.arena.slots payload).length + 1) 1 :=
      optionLift_emits spelled emits fun _ _ => trivial
    refine Computes.of_ok rfl ?_
    simpa using code
  | list id element passable found inner ih =>
    obtain ⟨depth, rfl⟩ : ∃ d, depth = d + 1 := ⟨depth - 1, by omega⟩
    simp only [liftWithin, passable.unalias_eq, found, ok_bind, slots_list found]
    have part := large ∘ passable.oversized_part found (List.mem_singleton_self element)
    exact liftList_computes inner part (read_computes inner.passable part .iterBasePointer 0)

theorem lower_computes {ty : Ty} (passable : Passable setting.arena ty)
    (large : setting.arena.Oversized ty → huge) :
    Computes huge (Crossing.lower setting.arena ty) fun code =>
      Emits setting given code 1 (setting.arena.slots ty).length :=
  lowerWithin_computes passable (Passable.level_under passable) large

theorem lift_computes {ty : Ty} (passable : Passable setting.arena ty)
    (large : setting.arena.Oversized ty → huge) :
    Computes huge (Crossing.lift setting.arena ty) fun code =>
      Emits setting given code (setting.arena.slots ty).length 1 :=
  liftWithin_computes passable (Passable.level_under passable) large

end ZigBindings.Emission
