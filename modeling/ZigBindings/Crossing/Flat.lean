import ZigBindings.Crossing.Memory

/-!
Sequences that turn the value on top of the stack into its flat slots, and back.
-/

namespace ZigBindings.Crossing
open Instruction

def rollTo (depth : Nat) : List Instruction :=
  if depth = 0 then [] else [roll depth]

/-- A way to move one value of a type between the stack and the stack. -/
abbrev Converter := Ty → Except Fault (List Instruction)

/-- Fields stand on the stack in order. Each is brought to the top and lowered there, above the
`lowered` slots of those before it, so the slots end up in order too. -/
def lowerFields (a : Arena) (lower : Converter) (lowered : Nat) :
    List Ty → Except Fault (List Instruction)
  | [] => pure []
  | ty :: rest => do
    let part ← lower ty
    let slots ← Layout.flatten a ty
    let parts ← lowerFields a lower (lowered + slots.length) rest
    pure (rollTo (rest.length + lowered) ++ part ++ parts)

def widthOf : List (Ty × Nat) → Nat
  | [] => 0
  | (_, width) :: rest => width + widthOf rest

/-- The slots of all fields stand on the stack, `waiting` of them not moved yet below the `lifted`
fields. The lowest of them is rolled to the top as often as the next field has slots. -/
def liftFields (lift : Converter) (lifted : Nat) :
    List (Ty × Nat) → Except Fault (List Instruction)
  | [] => pure []
  | (ty, width) :: rest => do
    let waiting := width + widthOf rest
    let part ← lift ty
    let parts ← liftFields lift (lifted + 1) rest
    pure ((List.replicate width (rollTo (waiting - 1 + lifted))).flatten ++ part ++ parts)

def liftRecord (a : Arena) (lift : Converter) (types : List Ty) :
    Except Fault (List Instruction) := do
  let rows ← types.mapM (Layout.flatten a)
  liftFields lift 0 (types.zip (rows.map (·.length)))

def zeros (slots : List Slot) : List Instruction :=
  if slots.isEmpty then [] else [constZero slots]

def lowerWithin (a : Arena) : Nat → Converter
  | 0, _ => throw .endless
  | depth + 1, ty => do
    match ← a.unalias ty with
    | .prim .string => pure [stringLower]
    | .prim p => pure [numericWiden p ((Layout.primitiveSlots p).headD .i32)]
    | .ref id =>
      match ← a.kind id with
      | .tuple elements =>
        let parts ← lowerFields a (lowerWithin a depth) 0 elements
        pure (tupleLower id elements.length :: parts)
      | .record fields =>
        let parts ← lowerFields a (lowerWithin a depth) 0 (fields.map (·.2))
        pure (recordLower id :: parts)
      | .enumeration _ => pure [enumLower id]
      | .list element => lowerList a (write a) element
      | .option payload =>
        let slots ← Layout.flatten a payload
        let part ← lowerWithin a depth payload
        pure ([blockBegin 0 false, i32Const 0] ++ zeros slots ++ [blockEnd (slots.length + 1)] ++
          [blockBegin 0 false, i32Const 1, variantPayload] ++ part ++
          [blockEnd (slots.length + 1), optionLower payload (.i32 :: slots)])
      | kind => throw (.unsupportedType kind id)

def liftWithin (a : Arena) : Nat → Converter
  | 0, _ => throw .endless
  | depth + 1, ty => do
    match ← a.unalias ty with
    | .prim .string => pure [stringLift]
    | .prim p => pure [numericNarrow ((Layout.primitiveSlots p).headD .i32) p]
    | .ref id =>
      match ← a.kind id with
      | .tuple elements =>
        let parts ← liftRecord a (liftWithin a depth) elements
        pure (parts ++ [tupleLift id elements.length])
      | .record fields =>
        let parts ← liftRecord a (liftWithin a depth) (fields.map (·.2))
        pure (parts ++ [recordLift id])
      | .enumeration _ => pure [enumLift id]
      | .list element => liftList a (read a) element
      | .option payload =>
        let slots ← Layout.flatten a payload
        let part ← liftWithin a depth payload
        pure ([blockBegin 0 false, blockEnd 0, blockBegin slots.length false] ++ part ++
          [blockEnd 1, optionLift payload])
      | kind => throw (.unsupportedType kind id)

def lower (a : Arena) : Converter :=
  lowerWithin a (a.depth + 1)

def lift (a : Arena) : Converter :=
  liftWithin a (a.depth + 1)

end ZigBindings.Crossing
