import ZigBindings.Crossing.Signature
import ZigBindings.Crossing.Flat

/-!
The whole sequence for one function in one direction. Outward, arguments are lowered, the host is
called and its results are lifted; inward, slots are lifted, the implementation is called and its
results are lowered.
-/

namespace ZigBindings.Crossing
open Instruction

def lowerArguments (a : Arena) (nth : Nat) : List Ty → Except Fault (List Instruction)
  | [] => pure []
  | ty :: rest => do
    let part ← lower a ty
    let parts ← lowerArguments a (nth + 1) rest
    pure (getArg nth :: part ++ parts)

def writeArguments (a : Arena) (area : Instruction) (nth : Nat) :
    List (Ty × Nat) → Except Fault (List Instruction)
  | [] => pure []
  | (ty, offset) :: rest => do
    let part ← write a ty area offset
    let parts ← writeArguments a area (nth + 1) rest
    pure (getArg nth :: part ++ parts)

def liftArguments (a : Arena) (nth : Nat) : List Ty → Except Fault (List Instruction)
  | [] => pure []
  | ty :: rest => do
    let slots ← Layout.flatten a ty
    let part ← lift a ty
    let parts ← liftArguments a (nth + slots.length) rest
    pure ((List.range' nth slots.length).map getArg ++ part ++ parts)

def readAll (a : Arena) (address : Instruction) (types : List Ty) :
    Except Fault (List Instruction) :=
  readFields a (read a) types address 0

def passOut (a : Arena) (indirect : Bool) (types : List Ty) : Except Fault (List Instruction) := do
  if !indirect then lowerArguments a 0 types
  else
    let extent ← Layout.recordLayout a types
    let area := paramPointer extent.size extent.align
    let offsets ← Layout.fieldOffsets a types
    let parts ← writeArguments a area 0 (types.zip offsets)
    pure (parts ++ [area])

def outward (a : Arena) (f : Function) : Except Fault (List Instruction) := do
  let sig ← signature a .outward f
  let results := f.results.types
  let arguments ← passOut a sig.indirectParams (f.params.map (·.2))
  if sig.returnPointer then
    let extent ← Layout.recordLayout a results
    let area := returnPointer extent.size extent.align
    let lifted ← readAll a area results
    pure (arguments ++ [area, callWasm f.name sig] ++ lifted ++ [ret results.length])
  else
    let parts ← results.mapM (lift a)
    pure (arguments ++ [callWasm f.name sig] ++ parts.flatten ++ [ret results.length])

def inward (a : Arena) (f : Function) : Except Fault (List Instruction) := do
  let sig ← signature a .inward f
  let types := f.params.map (·.2)
  let results := f.results.types
  let arguments ← if sig.indirectParams then readAll a (getArg 0) types else liftArguments a 0 types
  if sig.returnPointer then
    let extent ← Layout.recordLayout a results
    let area := returnPointer extent.size extent.align
    let stored ← writeFields a (write a) results area 0
    pure (arguments ++ [callInterface f] ++ stored ++ [area, ret 1])
  else
    let parts ← results.mapM (lower a)
    pure (arguments ++ [callInterface f] ++ parts.flatten ++ [ret sig.results.length])

/-- The instructions that carry a call of `f` across. -/
def sequence (a : Arena) (direction : Direction) (f : Function) :
    Except Fault (List Instruction) :=
  match direction with
  | .outward => outward a f
  | .inward => inward a f

end ZigBindings.Crossing
