import ZigBindings.Crossing.Flat
import ZigBindings.Proofs.Machine.References
import ZigBindings.Proofs.Types.Contents
import ZigBindings.Proofs.Types.Inside

/-! Code that stays where there is room for its values. Writing and reading descend from a type to
its parts with an address and an offset, and every step down keeps the part inside of the whole.
Only loops take an address of their own, which leads to one element of the list. -/

namespace ZigBindings
open Layout (Extent)

namespace Crossing
open Instruction Machine

/-- In the body of a loop, an address has room for a value of this extent at an offset. -/
structure Room (limits : Limits) (loop : Option Instruction) (address : Instruction) (offset : Nat)
    (extent : Extent) : Prop where
  quiet : limits.Quiet address
  allowed : ∀ access o, access.extent.Inside o extent →
    limits.access ⟨some address, loop, access, offset + o⟩

def Iterates (a : Arena) (limits : Limits) : Prop :=
  ∀ element extent, Layout.measure a element = .ok extent →
    Room limits (some (listLower element extent.size extent.align)) iterBasePointer 0 extent ∧
    Room limits (some (listLift element extent.size)) iterBasePointer 0 extent

section
variable {a : Arena} {limits : Limits} {loop : Option Instruction} {address : Instruction}
  {offset : Nat} {extent : Extent}

theorem Room.part (room : Room limits loop address offset extent) {inner : Extent} {o : Nat}
    (inside : inner.Inside o extent) : Room limits loop address (offset + o) inner where
  quiet := room.quiet
  allowed access o' within := by
    rw [Nat.add_assoc]
    exact room.allowed access (o + o') (within.trans inside)

theorem Room.moves (room : Room limits loop address offset extent) {inst : Instruction}
    {access : Access} {o : Nat} (inside : access.extent.Inside o extent)
    (accesses : inst.access? = some (access, offset + o)) : Confined limits loop [address, inst] :=
  .access room.quiet accesses (room.allowed access o inside)

theorem Room.pair (room : Room limits loop address offset ⟨8, 4⟩) :
    Confined limits loop (storePair address offset) ∧
      Confined limits loop (loadPair address offset) := by
  have pointer : Access.i32.extent.Inside 0 ⟨8, 4⟩ := ⟨by decide, by decide, by decide⟩
  have length : Access.i32.extent.Inside 4 ⟨8, 4⟩ := ⟨by decide, by decide, by decide⟩
  exact ⟨(room.moves length rfl).append (room.moves pointer rfl),
    (room.moves pointer rfl).append (room.moves length rfl)⟩

theorem option_written {access : Access} {payload : Ty} {parts : List Instruction}
    (stored : Confined limits loop [address, store access offset])
    (confined : Confined limits loop parts) :
    Confined limits loop ([blockBegin 0 false, i32Const 0, address, store access offset, blockEnd 0,
      blockBegin 0 false, i32Const 1, address, store access offset, variantPayload] ++ parts ++
      [blockEnd 0, optionLower payload []]) := by
  have absent : Confined limits loop (i32Const 0 :: [address, store access offset]) :=
    stored.cons ⟨rfl, rfl, trivial⟩
  have present : Confined limits loop
      (i32Const 1 :: ([address, store access offset] ++ variantPayload :: parts)) :=
    .cons ⟨rfl, rfl, trivial⟩ (stored.append (.cons ⟨rfl, rfl, trivial⟩ confined))
  have chooses : limits.Quiet (optionLower payload []) := ⟨rfl, rfl, trivial⟩
  simpa using absent.choice present chooses 0 0 0 0

theorem option_read {access : Access} {payload : Ty} {parts : List Instruction}
    (loaded : Confined limits loop [address, load access offset])
    (confined : Confined limits loop parts) :
    Confined limits loop ([address, load access offset, blockBegin 0 false, blockEnd 0,
      blockBegin 0 false] ++ parts ++ [blockEnd 1, optionLift payload]) := by
  have absent : Confined limits loop [] := .nil
  have chooses : limits.Quiet (optionLift payload) := ⟨rfl, rfl, trivial⟩
  simpa using loaded.append (absent.choice confined chooses 0 0 0 1)

theorem Room.fields {types : List Ty}
    (measured : Layout.recordLayout a types = .ok extent)
    (room : Room limits loop address offset extent) {offsets : List Nat}
    (placed : Layout.fieldOffsets a types = .ok offsets) :
    ∀ field ∈ types.zip offsets, ∃ inner, Layout.measure a field.1 = .ok inner ∧
      Room limits loop address (offset + field.2) inner := fun field member => by
  obtain ⟨inner, known, inside⟩ := fields_inside measured placed member
  exact ⟨inner, known, room.part inside⟩

section
variable {types : List Ty} {move : Mover}
  (rooms : ∀ offsets, Layout.fieldOffsets a types = .ok offsets → ∀ field ∈ types.zip offsets,
    ∃ inner, Layout.measure a field.1 = .ok inner ∧ Room limits loop address (offset + field.2) inner)
  (each : ∀ ty ∈ types, ∀ inner o, Layout.measure a ty = .ok inner →
    Room limits loop address o inner → Ensures (move ty address o) (Confined limits loop))
include rooms each

theorem move_confined {offsets : List Nat} (placed : Layout.fieldOffsets a types = .ok offsets) :
    ∀ field ∈ types.zip offsets,
      Ensures (move field.1 address (offset + field.2)) (Confined limits loop) := by
  intro field member
  obtain ⟨inner, known, room⟩ := rooms offsets placed field member
  exact each field.1 (List.of_mem_zip member).1 inner _ known room

theorem writeFields_confined :
    Ensures (writeFields a move types address offset) (Confined limits loop) := by
  refine .bind (fun offsets placed => placed) fun offsets placed => ?_
  have fields := move_confined rooms each placed
  refine .bind (.mapM_all fun field member => fields field (List.mem_reverse.mp member)) ?_
  exact fun parts confined => .pure (.flatten confined)

theorem readFields_confined :
    Ensures (readFields a move types address offset) (Confined limits loop) := by
  refine .bind (fun offsets placed => placed) fun offsets placed => ?_
  exact .bind (.mapM_all (move_confined rooms each placed)) fun parts confined =>
    .pure (.flatten confined)

end

end

section
variable {a : Arena} {limits : Limits} (iterates : Iterates a limits) {loop : Option Instruction}
include iterates

theorem lowerList_confined {write : Mover} {element : Ty}
    (body : ∀ extent, Layout.measure a element = .ok extent → ∀ {consumer : Option Instruction},
      Room limits consumer iterBasePointer 0 extent →
      Ensures (write element iterBasePointer 0) (Confined limits consumer)) :
    Ensures (lowerList a write element) (Confined limits loop) := by
  refine .bind_any fun canonical => ?_
  cases canonical with
  | true => exact .pure (.single ⟨rfl, rfl, trivial⟩)
  | false =>
    intro code done
    obtain ⟨inner, written, done⟩ := bind_eq_ok.mp done
    obtain ⟨extent, known, done⟩ := bind_eq_ok.mp done
    cases done
    have confined := body extent known (iterates element extent known).1 inner written
    have item : Confined limits _ (iterElem :: inner) := confined.cons ⟨rfl, rfl, trivial⟩
    have whole : Confined limits loop ([blockBegin 0 true] ++ (iterElem :: inner) ++
        [blockEnd 0, listLower element extent.size extent.align]) :=
      item.iteration ⟨rfl, rfl, trivial⟩
    simpa using whole

theorem liftList_confined {read : Mover} {element : Ty}
    (body : ∀ extent, Layout.measure a element = .ok extent → ∀ {consumer : Option Instruction},
      Room limits consumer iterBasePointer 0 extent →
      Ensures (read element iterBasePointer 0) (Confined limits consumer)) :
    Ensures (liftList a read element) (Confined limits loop) := by
  refine .bind_any fun canonical => ?_
  cases canonical with
  | true => exact .pure (.single ⟨rfl, rfl, trivial⟩)
  | false =>
    intro code done
    obtain ⟨inner, read, done⟩ := bind_eq_ok.mp done
    obtain ⟨extent, known, done⟩ := bind_eq_ok.mp done
    cases done
    have confined := body extent known (iterates element extent known).2 inner read
    have whole : Confined limits loop ([blockBegin 0 true] ++ inner ++
        [blockEnd 1, listLift element extent.size]) := confined.iteration ⟨rfl, rfl, trivial⟩
    simpa using whole

/-- Writing a value stays where there is room for it. -/
theorem writeWithin_confined {ty : Ty} (founded : a.Founded ty) {extent : Extent}
    (measured : Layout.measure a ty = .ok extent) {address : Instruction} {offset : Nat}
    (room : Room limits loop address offset extent) (depth : Nat) :
    Ensures (writeWithin a depth ty address offset) (Confined limits loop) := by
  induction depth generalizing ty extent address offset loop with
  | zero => exact .throw _
  | succ depth ih =>
    obtain ⟨core, reached, holds⟩ := founded.unalias_core
    rw [← holds.layout] at measured
    rw [writeWithin, reached, ok_bind]
    cases core with
    | prim p =>
      cases measured
      dsimp only
      split
      · rename_i none
        rw [Access.text_extent none] at room
        exact .pure (room.pair.1.cons ⟨rfl, rfl, trivial⟩)
      · rename_i access found
        rw [access_extent found] at room
        have stored : Confined limits loop [address, store access offset] :=
          room.moves (Extent.Inside.self _) rfl
        exact .pure (stored.cons ⟨rfl, rfl, trivial⟩)
    | ref id =>
      obtain ⟨kind, found, plain⟩ := holds.plain id rfl
      have fields {form : Form} {types : List Ty} (shape : kind.product? = some (form, types)) :
          Ensures (writeFields a (writeWithin a depth) types address offset)
            (Confined limits loop) := by
        have members := holds.founded_product found shape
        rw [holds.founded.measure_product found shape] at measured
        exact writeFields_confined (fun offsets placed => room.fields measured placed)
          fun ty member inner o known room => ih (members ty member) known room
      simp only [found, ok_bind]
      cases kind with
      | tuple elements | record parts =>
        exact .bind (fields rfl) fun parts confined => .pure (confined.cons ⟨rfl, rfl, trivial⟩)
      | enumeration cases =>
        have stored : Confined limits loop
            [address, store (discriminantAccess cases.length) offset] :=
          room.moves (enumeration_inside found measured) rfl
        exact .pure (stored.cons ⟨rfl, rfl, trivial⟩)
      | list element =>
        have inner := holds.founded.parts found element (List.mem_singleton_self element)
        cases (measure_list found).symm.trans measured
        refine .bind (lowerList_confined iterates fun extent known consumer room => ?_)
          fun parts confined => .pure (confined.append room.pair.1)
        exact ih inner known room
      | option payload =>
        obtain ⟨tag, behind⟩ := option_inside holds.founded found measured
        have inner := holds.founded.parts found payload (List.mem_singleton_self payload)
        refine .bind (fun start placed => behind start placed) fun start within => ?_
        obtain ⟨extent, known, inside⟩ := within
        refine .bind (ih inner known (room.part inside)) fun parts confined => .pure ?_
        exact option_written (room.moves tag rfl) confined
      | «alias» target => exact absurd rfl (plain target)
      | _ => exact .throw _

theorem readWithin_confined {ty : Ty} (founded : a.Founded ty) {extent : Extent}
    (measured : Layout.measure a ty = .ok extent) {address : Instruction} {offset : Nat}
    (room : Room limits loop address offset extent) (depth : Nat) :
    Ensures (readWithin a depth ty address offset) (Confined limits loop) := by
  induction depth generalizing ty extent address offset loop with
  | zero => exact .throw _
  | succ depth ih =>
    obtain ⟨core, reached, holds⟩ := founded.unalias_core
    rw [← holds.layout] at measured
    rw [readWithin, reached, ok_bind]
    cases core with
    | prim p =>
      cases measured
      dsimp only
      split
      · rename_i none
        rw [Access.text_extent none] at room
        have lifted : Confined limits loop [stringLift] := .single ⟨rfl, rfl, trivial⟩
        exact .pure (room.pair.2.append lifted)
      · rename_i access found
        rw [access_extent found] at room
        have loaded : Confined limits loop [address, load access offset] :=
          room.moves (Extent.Inside.self _) rfl
        have narrowed : Confined limits loop [numericNarrow access.slot p] :=
          .single ⟨rfl, rfl, trivial⟩
        exact .pure (loaded.append narrowed)
    | ref id =>
      obtain ⟨kind, found, plain⟩ := holds.plain id rfl
      have fields {form : Form} {types : List Ty} (shape : kind.product? = some (form, types)) :
          Ensures (readFields a (readWithin a depth) types address offset)
            (Confined limits loop) := by
        have members := holds.founded_product found shape
        rw [holds.founded.measure_product found shape] at measured
        exact readFields_confined (fun offsets placed => room.fields measured placed)
          fun ty member inner o known room => ih (members ty member) known room
      simp only [found, ok_bind]
      cases kind with
      | tuple elements =>
        have lifted : Confined limits loop [tupleLift id elements.length] :=
          .single ⟨rfl, rfl, trivial⟩
        exact .bind (fields rfl) fun parts confined => .pure (confined.append lifted)
      | record parts =>
        have lifted : Confined limits loop [recordLift id] := .single ⟨rfl, rfl, trivial⟩
        exact .bind (fields rfl) fun parts confined => .pure (confined.append lifted)
      | enumeration cases =>
        have loaded : Confined limits loop
            [address, load (discriminantAccess cases.length) offset] :=
          room.moves (enumeration_inside found measured) rfl
        have lifted : Confined limits loop [enumLift id] := .single ⟨rfl, rfl, trivial⟩
        exact .pure (loaded.append lifted)
      | list element =>
        have inner := holds.founded.parts found element (List.mem_singleton_self element)
        cases (measure_list found).symm.trans measured
        refine .bind (liftList_confined iterates fun extent known consumer room => ?_)
          fun parts confined => .pure (room.pair.2.append confined)
        exact ih inner known room
      | option payload =>
        obtain ⟨tag, behind⟩ := option_inside holds.founded found measured
        have inner := holds.founded.parts found payload (List.mem_singleton_self payload)
        refine .bind (fun start placed => behind start placed) fun start within => ?_
        obtain ⟨extent, known, inside⟩ := within
        refine .bind (ih inner known (room.part inside)) fun parts confined => .pure ?_
        exact option_read (room.moves tag rfl) confined
      | «alias» target => exact absurd rfl (plain target)
      | _ => exact .throw _

omit iterates in
theorem rollTo_confined (depth : Nat) : Confined limits loop (rollTo depth) := by
  unfold rollTo
  split
  · exact .nil
  · exact .single ⟨rfl, rfl, trivial⟩

omit iterates in
theorem zeros_confined (slots : List Slot) : Confined limits loop (zeros slots) := by
  unfold zeros
  split
  · exact .nil
  · exact .single ⟨rfl, rfl, trivial⟩

omit iterates in
theorem lowerFields_confined {lower : Converter} {types : List Ty}
    (each : ∀ ty ∈ types, Ensures (lower ty) (Confined limits loop)) (lowered : Nat) :
    Ensures (lowerFields a lower lowered types) (Confined limits loop) := by
  induction types generalizing lowered with
  | nil => exact .pure .nil
  | cons ty rest ih =>
    refine .bind (each ty (by simp)) fun part first => .bind_any fun slots => ?_
    refine .bind (ih (fun other member => each other (by simp [member])) _) fun parts others => ?_
    exact .pure (((rollTo_confined _).append first).append others)

omit iterates in
theorem liftFields_confined {lift : Converter} {fields : List (Ty × Nat)}
    (each : ∀ field ∈ fields, Ensures (lift field.1) (Confined limits loop)) (lifted : Nat) :
    Ensures (liftFields lift lifted fields) (Confined limits loop) := by
  induction fields generalizing lifted with
  | nil => exact .pure .nil
  | cons field rest ih =>
    refine .bind (each field (by simp)) fun part first => ?_
    refine .bind (ih (fun other member => each other (by simp [member])) _) fun parts others => ?_
    have rolls (count depth : Nat) :
        Confined limits loop (List.replicate count (rollTo depth)).flatten :=
      .flatten fun part member => List.eq_of_mem_replicate member ▸ rollTo_confined depth
    exact .pure (((rolls _ _).append first).append others)

omit iterates in
theorem liftRecord_confined {lift : Converter} {types : List Ty}
    (each : ∀ ty ∈ types, Ensures (lift ty) (Confined limits loop)) :
    Ensures (liftRecord a lift types) (Confined limits loop) :=
  .bind_any fun _ => liftFields_confined (fun field member =>
    each field.1 (List.of_mem_zip member).1) 0

theorem lowerWithin_confined {ty : Ty} (founded : a.Founded ty) (depth : Nat) :
    Ensures (lowerWithin a depth ty) (Confined limits loop) := by
  induction depth generalizing ty with
  | zero => exact .throw _
  | succ depth ih =>
    obtain ⟨core, reached, holds⟩ := founded.unalias_core
    rw [lowerWithin, reached, ok_bind]
    cases core with
    | prim p => cases p <;> exact .pure (.single ⟨rfl, rfl, trivial⟩)
    | ref id =>
      obtain ⟨kind, found, plain⟩ := holds.plain id rfl
      have fields {form : Form} {types : List Ty} (shape : kind.product? = some (form, types)) :
          Ensures (lowerFields a (lowerWithin a depth) 0 types) (Confined limits loop) :=
        lowerFields_confined (fun ty member => ih (holds.founded_product found shape ty member)) 0
      simp only [found, ok_bind]
      cases kind with
      | tuple elements | record parts =>
        exact .bind (fields rfl) fun parts confined => .pure (confined.cons ⟨rfl, rfl, trivial⟩)
      | enumeration cases => exact .pure (.single ⟨rfl, rfl, trivial⟩)
      | list element =>
        have inner := holds.founded.parts found element (List.mem_singleton_self element)
        exact lowerList_confined iterates fun extent known consumer room =>
          writeWithin_confined iterates inner known room _
      | option payload =>
        have inner := holds.founded.parts found payload (List.mem_singleton_self payload)
        refine .bind_any fun slots => .bind (ih inner) fun part confined => .pure ?_
        have absent : Confined limits loop (i32Const 0 :: zeros slots) :=
          (zeros_confined slots).cons ⟨rfl, rfl, trivial⟩
        have present : Confined limits loop (i32Const 1 :: variantPayload :: part) :=
          .cons ⟨rfl, rfl, trivial⟩ (confined.cons ⟨rfl, rfl, trivial⟩)
        have chooses : limits.Quiet (optionLower payload (.i32 :: slots)) := ⟨rfl, rfl, trivial⟩
        simpa using absent.choice present chooses 0 (slots.length + 1) 0 (slots.length + 1)
      | «alias» target => exact absurd rfl (plain target)
      | _ => exact .throw _

theorem liftWithin_confined {ty : Ty} (founded : a.Founded ty) (depth : Nat) :
    Ensures (liftWithin a depth ty) (Confined limits loop) := by
  induction depth generalizing ty with
  | zero => exact .throw _
  | succ depth ih =>
    obtain ⟨core, reached, holds⟩ := founded.unalias_core
    rw [liftWithin, reached, ok_bind]
    cases core with
    | prim p => cases p <;> exact .pure (.single ⟨rfl, rfl, trivial⟩)
    | ref id =>
      obtain ⟨kind, found, plain⟩ := holds.plain id rfl
      have fields {form : Form} {types : List Ty} (shape : kind.product? = some (form, types)) :
          Ensures (liftRecord a (liftWithin a depth) types) (Confined limits loop) :=
        liftRecord_confined fun ty member => ih (holds.founded_product found shape ty member)
      simp only [found, ok_bind]
      cases kind with
      | tuple elements =>
        have lifted : Confined limits loop [tupleLift id elements.length] :=
          .single ⟨rfl, rfl, trivial⟩
        exact .bind (fields rfl) fun parts confined => .pure (confined.append lifted)
      | record parts =>
        have lifted : Confined limits loop [recordLift id] := .single ⟨rfl, rfl, trivial⟩
        exact .bind (fields rfl) fun parts confined => .pure (confined.append lifted)
      | enumeration cases => exact .pure (.single ⟨rfl, rfl, trivial⟩)
      | list element =>
        have inner := holds.founded.parts found element (List.mem_singleton_self element)
        exact liftList_confined iterates fun extent known consumer room =>
          readWithin_confined iterates inner known room _
      | option payload =>
        have inner := holds.founded.parts found payload (List.mem_singleton_self payload)
        refine .bind_any fun slots => .bind (ih inner) fun part confined => .pure ?_
        have absent : Confined limits loop [] := .nil
        have chooses : limits.Quiet (optionLift payload) := ⟨rfl, rfl, trivial⟩
        simpa using absent.choice confined chooses 0 0 slots.length 1
      | «alias» target => exact absurd rfl (plain target)
      | _ => exact .throw _

end

end Crossing

end ZigBindings
