import ZigBindings.Crossing.Sequence
import ZigBindings.Proofs.Types.Level

/-! How code is woven from blocks. Every block is closed and consumed right where it was opened; a
payload is asked for in the block of a present value only, and an item at the start of a loop that
lowers a list. -/

namespace ZigBindings
open Crossing Instruction

/-- Neither a bracket of a block nor a consumer of blocks, and no question for a capture. -/
def Instruction.Plain : Instruction → Prop
  | blockBegin _ _ | blockEnd _ | optionLower _ _ | optionLift _ | listLower _ _ _ | listLift _ _
  | iterElem | iterBasePointer | variantPayload => False
  | _ => True

/-- Code in which blocks are consumed where they stand. Options are lowered only if they are allowed,
and where the code is firm, every loop that lifts a list asks where its elements begin. -/
inductive Woven (firm options : Prop) : List Instruction → Prop where
  | nil : Woven firm options []
  | plain {inst : Instruction} (apart : inst.Plain) : Woven firm options [inst]
  | base : Woven firm options [iterBasePointer]
  | append {first second : List Instruction} (left : Woven firm options first)
    (right : Woven firm options second) : Woven firm options (first ++ second)
  | optionLower {absent lead part : List Instruction} (left right : Nat) (payload : Ty)
    (slots : List Slot) (allowed : options) (none : Woven firm options absent)
    (before : Woven firm options lead) (after : Woven firm options part) :
    Woven firm options ([blockBegin 0 false] ++ absent ++ [blockEnd left] ++
      ([blockBegin 0 false] ++ (lead ++ [variantPayload] ++ part) ++ [blockEnd right]) ++
        [optionLower payload slots])
  | optionLift {part : List Instruction} (inputs : Nat) (payload : Ty)
    (some : Woven firm options part) :
    Woven firm options ([blockBegin 0 false] ++ [] ++ [blockEnd 0] ++
      ([blockBegin inputs false] ++ part ++ [blockEnd 1]) ++ [optionLift payload])
  | listLower {body : List Instruction} (element : Ty) (size align : Nat)
    (each : Woven firm options body) :
    Woven firm options ([blockBegin 0 true] ++ ([iterElem] ++ body) ++ [blockEnd 0] ++
      [listLower element size align])
  | listLift {body : List Instruction} (element : Ty) (size : Nat) (loose : ¬ firm)
    (each : Woven firm options body) :
    Woven firm options ([blockBegin 0 true] ++ body ++ [blockEnd 1] ++ [listLift element size])
  | listLiftBase {lead part : List Instruction} (element : Ty) (size : Nat)
    (before : Woven firm options lead) (after : Woven firm options part) :
    Woven firm options ([blockBegin 0 true] ++ (lead ++ [iterBasePointer] ++ part) ++
      [blockEnd 1] ++ [listLift element size])

namespace Woven

variable {firm options : Prop} {code rest : List Instruction} {address : Instruction}

theorem cons {inst : Instruction} (apart : inst.Plain) (others : Woven firm options rest) :
    Woven firm options (inst :: rest) := (Woven.plain apart).append others

theorem flatten {parts : List (List Instruction)} (each : ∀ part ∈ parts, Woven firm options part) :
    Woven firm options parts.flatten := by
  induction parts with
  | nil => exact .nil
  | cons part parts ih =>
    rw [List.flatten_cons]
    exact (each part (by simp)).append (ih fun other member => each other (by simp [member]))

end Woven

def Touches (firm options : Prop) (address : Instruction) (code : List Instruction) : Prop :=
  ∃ lead part, code = lead ++ [address] ++ part ∧ Woven firm options lead ∧ Woven firm options part

namespace Touches

variable {firm options : Prop} {first second code : List Instruction} {address : Instruction}

theorem single : Touches firm options address [address] := ⟨[], [], rfl, .nil, .nil⟩

theorem woven (touches : Touches firm options address code) (points : Woven firm options [address]) :
    Woven firm options code := by
  obtain ⟨lead, part, rfl, before, after⟩ := touches
  exact (before.append points).append after

theorem left (touches : Touches firm options address first) (woven : Woven firm options second) :
    Touches firm options address (first ++ second) := by
  obtain ⟨lead, part, rfl, before, after⟩ := touches
  exact ⟨lead, part ++ second, by simp, before, after.append woven⟩

theorem right (woven : Woven firm options first) (touches : Touches firm options address second) :
    Touches firm options address (first ++ second) := by
  obtain ⟨lead, part, rfl, before, after⟩ := touches
  exact ⟨first ++ lead, part, by simp, woven.append before, after⟩

end Touches

/-- Where code is firm, elements of the lists that a type leads to have slots. -/
def Arena.Fills (a : Arena) (firm : Prop) (ty : Ty) : Prop :=
  ∀ id element, a.Reaches ty (.ref id) → a.kind id = .ok (.list element) → firm →
    a.slots element ≠ []

def Arena.Lets (a : Arena) (options : Prop) (ty : Ty) : Prop :=
  ∀ id payload, a.Reaches ty (.ref id) → a.kind id = .ok (.option payload) → options

section
variable {a : Arena} {firm options : Prop} {id : Nat} {kind : Kind} {ty : Ty}

theorem Arena.Fills.part (fills : a.Fills firm (.ref id)) (found : a.kind id = .ok kind)
    (member : ty ∈ kind.parts) : a.Fills firm ty :=
  fun other element reached => fills other element (reached.trans_part found member)

theorem Arena.Lets.part (lets : a.Lets options (.ref id)) (found : a.kind id = .ok kind)
    (member : ty ∈ kind.parts) : a.Lets options ty :=
  fun other payload reached => lets other payload (reached.trans_part found member)

theorem Spellable.reaches {inner : Ty} (spellable : Spellable a ty)
    (reached : a.Reaches ty inner) : Spellable a inner := by
  induction reached with
  | self => exact spellable
  | part _ found member ih =>
    cases ih with
    | tuple found' each =>
      rw [found] at found'
      cases found'
      exact each _ member

theorem Spellable.fills (spellable : Spellable a ty) : a.Fills firm ty :=
  fun _ _ reached found => ((spellable_iff found).mp (spellable.reaches reached)).elim

theorem Spellable.lets (spellable : Spellable a ty) : a.Lets options ty :=
  fun _ _ reached found => ((spellable_iff found).mp (spellable.reaches reached)).elim

end

namespace Crossing

section
variable {a : Arena} {firm options : Prop} {address : Instruction}

def Moves (a : Arena) (firm options : Prop) (address : Instruction) (types : List Ty)
    (code : List Instruction) : Prop :=
  Woven firm options code ∧ (a.row types ≠ [] → Touches firm options address code)

theorem Moves.of_touches {types : List Ty} {code : List Instruction}
    (points : Woven firm options [address]) (touches : Touches firm options address code) :
    Moves a firm options address types code :=
  ⟨touches.woven points, fun _ => touches⟩

theorem Moves.flatten {types : List Ty} {parts : List (List Instruction)}
    (each : List.Forall₂ (fun ty code => Moves a firm options address [ty] code) types parts) :
    Moves a firm options address types parts.flatten := by
  induction each with
  | nil => exact ⟨.nil, fun some => absurd rfl some⟩
  | @cons ty code types parts first _ ih =>
    rw [List.flatten_cons]
    refine ⟨first.1.append ih.1, fun some => ?_⟩
    by_cases empty : a.slots ty = []
    · refine .right first.1 (ih.2 ?_)
      simpa [Arena.row, empty] using some
    · exact (first.2 (by simpa [Arena.row] using empty)).left ih.1

theorem storePair_touches (points : Woven firm options [address]) (offset : Nat) :
    Touches firm options address (storePair address offset) :=
  Touches.single.left
    (.cons trivial (points.append (.plain trivial)))

theorem loadPair_touches (points : Woven firm options [address]) (offset : Nat) :
    Touches firm options address (loadPair address offset) :=
  Touches.single.left
    (.cons trivial (points.append (.plain trivial)))

theorem lowerList_woven {write : Mover} {element : Ty}
    (written : Ensures (write element iterBasePointer 0) (Woven firm options)) :
    Ensures (lowerList a write element) (Woven firm options) := by
  refine .bind_any fun canonical => ?_
  cases canonical with
  | true => exact .pure (.plain trivial)
  | false =>
    refine written.bind fun body woven => .bind_any fun extent => .of_ok ?_
    have code := Woven.listLower element extent.size extent.align woven
    simpa using code

theorem liftList_woven {read : Mover} {element : Ty} (slots : firm → a.slots element ≠ [])
    (found : Ensures (read element iterBasePointer 0)
      (Moves a firm options iterBasePointer [element])) :
    Ensures (liftList a read element) (Woven firm options) := by
  refine .bind_any fun canonical => ?_
  cases canonical with
  | true => exact .pure (.plain trivial)
  | false =>
    refine found.bind fun body moves => .bind_any fun extent => .of_ok ?_
    by_cases strict : firm
    · obtain ⟨lead, part, rfl, before, after⟩ := moves.2 (by simpa [Arena.row] using slots strict)
      have code := Woven.listLiftBase element extent.size before after
      simpa using code
    · have code := Woven.listLift element extent.size strict moves.1
      simpa using code

theorem writeFields_woven {write : Mover} {types : List Ty} {offset : Nat}
    (written : ∀ ty ∈ types, ∀ o, Ensures (write ty address o) (Woven firm options)) :
    Ensures (writeFields a write types address offset) (Woven firm options) := by
  refine .bind_any fun offsets => ?_
  exact (Ensures.mapM_all fun field member => written field.1
    (List.of_mem_zip (List.mem_reverse.mp member)).1 _).bind fun parts each => .pure (.flatten each)

theorem readFields_moves {read : Mover} {types : List Ty} {offset : Nat}
    (found : ∀ ty ∈ types, ∀ o, Ensures (read ty address o) (Moves a firm options address [ty])) :
    Ensures (readFields a read types address offset) (Moves a firm options address types) := by
  refine (Layout.fieldOffsets_length a types).bind fun offsets length => ?_
  refine (Ensures.mapM fun field member => found field.1 (List.of_mem_zip member).1 _).bind
    fun parts each => .pure ?_
  have moved := Moves.flatten (List.forall₂_map_left_iff.mpr each)
  rwa [List.map_fst_zip length.ge] at moved

theorem writeWithin_woven {ty : Ty} (passable : Passable a ty)
    (lets : a.Lets options ty) (points : Woven firm options [address]) {depth offset : Nat} :
    Ensures (writeWithin a depth ty address offset) (Woven firm options) := by
  induction passable using Passable.induct generalizing depth address offset with
  | prim p =>
    cases depth with
    | zero => exact .throw _
    | succ depth =>
      have reached : a.unalias (.prim p) = .ok (.prim p) := rfl
      simp only [writeWithin, reached, ok_bind]
      cases access : Access.ofPrimitive? p with
      | none => exact .pure (.cons trivial ((storePair_touches points offset).woven points))
      | some access => exact .pure (.cons trivial (points.append (.plain trivial)))
  | tuple id elements passable found each ih =>
    cases depth with
    | zero => exact .throw _
    | succ depth =>
      simp only [writeWithin, passable.unalias_eq, found, ok_bind]
      refine (writeFields_woven fun ty member o => ih ty member (lets.part found member)
        points).bind fun parts woven => .pure ?_
      exact .cons trivial woven
  | option id payload passable found inner ih =>
    cases depth with
    | zero => exact .throw _
    | succ depth =>
      simp only [writeWithin, passable.unalias_eq, found, ok_bind]
      refine .bind_any fun start => ?_
      refine (ih (lets.part found (List.mem_singleton_self _)) points).bind
        fun parts woven => .pure ?_
      have store : ∀ value : Int, Woven firm options
          [i32Const value, address, .store (discriminantAccess 2) offset] := fun value =>
        .cons trivial (points.append (.plain trivial))
      have code := Woven.optionLower 0 0 payload []
        (lets id payload .self found) (store 0) (store 1) woven
      simpa using code
  | list id element passable found inner ih =>
    cases depth with
    | zero => exact .throw _
    | succ depth =>
      simp only [writeWithin, passable.unalias_eq, found, ok_bind]
      refine (lowerList_woven (ih (lets.part found (List.mem_singleton_self _)) .base)).bind
        fun parts woven => .pure ?_
      exact woven.append ((storePair_touches points offset).woven points)

theorem readWithin_moves {ty : Ty} (passable : Passable a ty)
    (fills : a.Fills firm ty) (points : Woven firm options [address]) {depth offset : Nat} :
    Ensures (readWithin a depth ty address offset) (Moves a firm options address [ty]) := by
  induction passable using Passable.induct generalizing depth address offset with
  | prim p =>
    cases depth with
    | zero => exact .throw _
    | succ depth =>
      have reached : a.unalias (.prim p) = .ok (.prim p) := rfl
      simp only [readWithin, reached, ok_bind]
      cases access : Access.ofPrimitive? p with
      | none => exact .pure (.of_touches points
          ((loadPair_touches points offset).left (.plain trivial)))
      | some access => exact .pure (.of_touches points
          (Touches.single.left (.cons trivial (.plain trivial))))
  | tuple id elements passable found each ih =>
    cases depth with
    | zero => exact .throw _
    | succ depth =>
      simp only [readWithin, passable.unalias_eq, found, ok_bind]
      refine (readFields_moves fun ty member o => ih ty member (fills.part found member)
        points).bind fun parts moves => .pure ⟨moves.1.append (.plain trivial), fun some => ?_⟩
      refine (moves.2 ?_).left (.plain trivial)
      simpa [Arena.row, slots_tuple passable found] using some
  | option id payload passable found inner ih =>
    cases depth with
    | zero => exact .throw _
    | succ depth =>
      simp only [readWithin, passable.unalias_eq, found, ok_bind]
      refine .bind_any fun start => ?_
      refine (ih (fills.part found (List.mem_singleton_self _)) points).bind
        fun parts moves => .pure (.of_touches points ?_)
      have code := Woven.optionLift 0 payload moves.1
      refine Touches.single.left (.cons trivial ?_)
      simpa using code
  | list id element passable found inner ih =>
    cases depth with
    | zero => exact .throw _
    | succ depth =>
      simp only [readWithin, passable.unalias_eq, found, ok_bind]
      refine (liftList_woven (fills id element .self found)
        (ih (fills.part found (List.mem_singleton_self _)) .base)).bind fun parts woven =>
          .pure (.of_touches points ?_)
      exact (loadPair_touches points offset).left woven

theorem rollTo_woven (depth : Nat) : Woven firm options (rollTo depth) := by
  rw [rollTo]
  split
  · exact .nil
  · exact .plain trivial

theorem zeros_woven (slots : List Slot) : Woven firm options (zeros slots) := by
  rw [zeros]
  split
  · exact .nil
  · exact .plain trivial

theorem lowerFields_woven {lower : Converter} {types : List Ty} {lowered : Nat}
    (each : ∀ ty ∈ types, Ensures (lower ty) (Woven firm options)) :
    Ensures (lowerFields a lower lowered types) (Woven firm options) := by
  induction types generalizing lowered with
  | nil => exact .pure .nil
  | cons ty rest ih =>
    rw [lowerFields]
    refine (each ty (by simp)).bind fun part first => .bind_any fun slots => ?_
    refine (ih fun other member => each other (by simp [member])).bind fun parts others => .pure ?_
    exact ((rollTo_woven _).append first).append others

theorem liftFields_woven {lift : Converter} {fields : List (Ty × Nat)} {lifted : Nat}
    (each : ∀ field ∈ fields, Ensures (lift field.1) (Woven firm options)) :
    Ensures (liftFields lift lifted fields) (Woven firm options) := by
  induction fields generalizing lifted with
  | nil => exact .pure .nil
  | cons field rest ih =>
    rw [liftFields]
    refine (each field (by simp)).bind fun part first => ?_
    refine (ih fun other member => each other (by simp [member])).bind fun parts others => .pure ?_
    refine ((Woven.flatten fun roll member => ?_).append first).append others
    rw [List.eq_of_mem_replicate member]
    exact rollTo_woven _

theorem lowerWithin_woven {ty : Ty} (passable : Passable a ty)
    (lets : a.Lets options ty) {depth : Nat} :
    Ensures (lowerWithin a depth ty) (Woven firm options) := by
  induction passable using Passable.induct generalizing depth with
  | prim p =>
    cases depth with
    | zero => exact .throw _
    | succ depth =>
      have reached : a.unalias (.prim p) = .ok (.prim p) := rfl
      simp only [lowerWithin, reached, ok_bind]
      cases p <;> exact .pure (.plain trivial)
  | tuple id elements passable found each ih =>
    cases depth with
    | zero => exact .throw _
    | succ depth =>
      simp only [lowerWithin, passable.unalias_eq, found, ok_bind]
      refine (lowerFields_woven fun ty member => ih ty member (lets.part found member)).bind
        fun parts woven => .pure ?_
      exact .cons trivial woven
  | option id payload passable found inner ih =>
    cases depth with
    | zero => exact .throw _
    | succ depth =>
      simp only [lowerWithin, passable.unalias_eq, found, ok_bind]
      refine .bind_any fun slots => ?_
      refine (ih (lets.part found (List.mem_singleton_self _))).bind fun parts woven => .pure ?_
      have number : ∀ value : Int, Woven firm options [i32Const value] := fun _ => .plain trivial
      have code := Woven.optionLower (slots.length + 1) (slots.length + 1) payload (.i32 :: slots)
        (lets id payload .self found) ((number 0).append (zeros_woven slots)) (number 1) woven
      simpa using code
  | list id element passable found inner ih =>
    cases depth with
    | zero => exact .throw _
    | succ depth =>
      simp only [lowerWithin, passable.unalias_eq, found, ok_bind]
      exact lowerList_woven (writeWithin_woven inner.passable
        (lets.part found (List.mem_singleton_self _)) .base)

theorem liftWithin_woven {ty : Ty} (passable : Passable a ty)
    (fills : a.Fills firm ty) {depth : Nat} :
    Ensures (liftWithin a depth ty) (Woven firm options) := by
  induction passable using Passable.induct generalizing depth with
  | prim p =>
    cases depth with
    | zero => exact .throw _
    | succ depth =>
      have reached : a.unalias (.prim p) = .ok (.prim p) := rfl
      simp only [liftWithin, reached, ok_bind]
      cases p <;> exact .pure (.plain trivial)
  | tuple id elements passable found each ih =>
    cases depth with
    | zero => exact .throw _
    | succ depth =>
      simp only [liftWithin, passable.unalias_eq, found, ok_bind, liftRecord, bind_assoc]
      refine .bind_any fun rows => ?_
      refine (liftFields_woven fun field member => ih field.1 (List.of_mem_zip member).1
        (fills.part found (List.of_mem_zip member).1)).bind fun parts woven => .pure ?_
      exact woven.append (.plain trivial)
  | option id payload passable found inner ih =>
    cases depth with
    | zero => exact .throw _
    | succ depth =>
      simp only [liftWithin, passable.unalias_eq, found, ok_bind]
      refine .bind_any fun slots => ?_
      refine (ih (fills.part found (List.mem_singleton_self _))).bind fun parts woven => .pure ?_
      have code := Woven.optionLift slots.length payload woven
      simpa using code
  | list id element passable found inner ih =>
    cases depth with
    | zero => exact .throw _
    | succ depth =>
      simp only [liftWithin, passable.unalias_eq, found, ok_bind]
      exact liftList_woven (fills id element .self found) (readWithin_moves inner.passable
        (fills.part found (List.mem_singleton_self _)) .base)

end

end Crossing

end ZigBindings
