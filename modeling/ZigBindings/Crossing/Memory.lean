import ZigBindings.Crossing.Instruction
import ZigBindings.Layout.Measure
import ZigBindings.Layout.Flat

/-!
Sequences that write the value on top of the stack to memory, and that read one from there. The
address is pushed by an instruction of its own for every access.
-/

namespace ZigBindings.Crossing
open Instruction

/-- Whether a list of these elements lies in memory as it lies in a slice. -/
def isCanonical (a : Arena) (element : Ty) : Except Fault Bool := do
  match ← a.unalias element with
  | .prim p => pure (p.isInteger || p.isFloat)
  | .ref _ => pure false

def discriminantAccess (count : Nat) : Access :=
  match Layout.discriminantSize count with
  | 1 => .u8
  | 2 => .u16
  | _ => .i32

/-- Stores a pointer and a length, of which the length is on top. -/
def storePair (address : Instruction) (offset : Nat) : List Instruction :=
  [address, store .i32 (offset + 4), address, store .i32 offset]

def loadPair (address : Instruction) (offset : Nat) : List Instruction :=
  [address, load .i32 offset, address, load .i32 (offset + 4)]

abbrev Mover := Ty → Instruction → Nat → Except Fault (List Instruction)

/-- A list becomes a pointer and a length, through a loop unless a slice has the layout already. -/
def lowerList (a : Arena) (write : Mover) (element : Ty) : Except Fault (List Instruction) := do
  if ← isCanonical a element then return [listCanonLower element]
  let body ← write element iterBasePointer 0
  let extent ← Layout.measure a element
  pure ([blockBegin 0 true, iterElem] ++ body ++
    [blockEnd 0, listLower element extent.size extent.align])

def liftList (a : Arena) (read : Mover) (element : Ty) : Except Fault (List Instruction) := do
  if ← isCanonical a element then return [listCanonLift element]
  let body ← read element iterBasePointer 0
  let extent ← Layout.measure a element
  pure ([blockBegin 0 true] ++ body ++ [blockEnd 1, listLift element extent.size])

/-- Fields stand on the stack in order, so the last one is stored first. -/
def writeFields (a : Arena) (write : Mover) (types : List Ty) (address : Instruction)
    (offset : Nat) : Except Fault (List Instruction) := do
  let offsets ← Layout.fieldOffsets a types
  let parts ← (types.zip offsets).reverse.mapM fun (ty, o) => write ty address (offset + o)
  pure parts.flatten

def readFields (a : Arena) (read : Mover) (types : List Ty) (address : Instruction)
    (offset : Nat) : Except Fault (List Instruction) := do
  let offsets ← Layout.fieldOffsets a types
  let parts ← (types.zip offsets).mapM fun (ty, o) => read ty address (offset + o)
  pure parts.flatten

def writeWithin (a : Arena) : Nat → Mover
  | 0, _, _, _ => throw .endless
  | depth + 1, ty, address, offset => do
    match ← a.unalias ty with
    | .prim p =>
      match Access.ofPrimitive? p with
      | none => pure (stringLower :: storePair address offset)
      | some access => pure [numericWiden p access.slot, address, store access offset]
    | .ref id =>
      match ← a.kind id with
      | .tuple elements =>
        let parts ← writeFields a (writeWithin a depth) elements address offset
        pure (tupleLower id elements.length :: parts)
      | .record fields =>
        let parts ← writeFields a (writeWithin a depth) (fields.map (·.2)) address offset
        pure (recordLower id :: parts)
      | .enumeration cases =>
        pure [enumLower id, address, store (discriminantAccess cases.length) offset]
      | .list element =>
        let parts ← lowerList a (writeWithin a depth) element
        pure (parts ++ storePair address offset)
      | .option payload =>
        let access := discriminantAccess 2
        let start ← Layout.payloadOffset a id
        let parts ← writeWithin a depth payload address (offset + start)
        pure ([blockBegin 0 false, i32Const 0, address, store access offset, blockEnd 0,
          blockBegin 0 false, i32Const 1, address, store access offset, variantPayload] ++
          parts ++ [blockEnd 0, optionLower payload []])
      | kind => throw (.unsupportedType kind id)

def readWithin (a : Arena) : Nat → Mover
  | 0, _, _, _ => throw .endless
  | depth + 1, ty, address, offset => do
    match ← a.unalias ty with
    | .prim p =>
      match Access.ofPrimitive? p with
      | none => pure (loadPair address offset ++ [stringLift])
      | some access => pure [address, load access offset, numericNarrow access.slot p]
    | .ref id =>
      match ← a.kind id with
      | .tuple elements =>
        let parts ← readFields a (readWithin a depth) elements address offset
        pure (parts ++ [tupleLift id elements.length])
      | .record fields =>
        let parts ← readFields a (readWithin a depth) (fields.map (·.2)) address offset
        pure (parts ++ [recordLift id])
      | .enumeration cases =>
        pure [address, load (discriminantAccess cases.length) offset, enumLift id]
      | .list element =>
        let parts ← liftList a (readWithin a depth) element
        pure (loadPair address offset ++ parts)
      | .option payload =>
        let start ← Layout.payloadOffset a id
        let parts ← readWithin a depth payload address (offset + start)
        pure ([address, load (discriminantAccess 2) offset, blockBegin 0 false, blockEnd 0,
          blockBegin 0 false] ++ parts ++ [blockEnd 1, optionLift payload])
      | kind => throw (.unsupportedType kind id)

/-- A walk over types passes a definition at every step but the last. -/
def write (a : Arena) : Mover :=
  writeWithin a (a.depth + 1)

def read (a : Arena) : Mover :=
  readWithin a (a.depth + 1)

end ZigBindings.Crossing
