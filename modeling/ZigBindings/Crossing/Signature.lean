import ZigBindings.Crossing.Instruction
import ZigBindings.Layout.Flat

/-!
Core signatures of functions, for either direction.
-/

namespace ZigBindings.Crossing

def maxFlatParams : Nat := 16

def maxFlatResults : Nat := 1

def signature (a : Arena) (direction : Direction) (f : Function) : Except Fault Signature := do
  let params ← Layout.flattenAll a (f.params.map (·.2))
  let results ← Layout.flattenAll a f.results.types
  let indirect := decide (maxFlatParams < params.length)
  let params := if indirect then [Slot.i32] else params
  if results.length ≤ maxFlatResults then pure ⟨params, results, indirect, false⟩
  else match direction with
    | .outward => pure ⟨params ++ [.i32], [], indirect, true⟩
    | .inward => pure ⟨params, [.i32], indirect, true⟩

end ZigBindings.Crossing
