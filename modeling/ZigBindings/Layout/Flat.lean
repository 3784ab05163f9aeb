import ZigBindings.Layout.Slot
import ZigBindings.Layout.Arena

/-!
Flat forms: the slots that carry a value when it is passed without memory.
-/

namespace ZigBindings.Layout

def primitiveSlots : Primitive → List Slot
  | .s64 | .u64 => [.i64]
  | .f32 => [.f32]
  | .f64 => [.f64]
  | .string => [.i32, .i32]
  | _ => [.i32]

/-- The slots of either of two rows, joined where both have one. -/
def joinRows : List Slot → List Slot → List Slot
  | a :: as, b :: bs => a.join b :: joinRows as bs
  | [], bs => bs
  | as, [] => as

def joinAll (rows : List (List Slot)) : List Slot :=
  rows.foldl joinRows []

def flattenWithin (a : Arena) : Nat → Ty → Except Fault (List Slot)
  | _, .prim p => pure (primitiveSlots p)
  | 0, .ref _ => throw .endless
  | depth + 1, .ref id => do
    match ← a.kind id with
    | .record fields =>
      let rows ← fields.mapM fun f => flattenWithin a depth f.2
      pure rows.flatten
    | .tuple elements =>
      let rows ← elements.mapM (flattenWithin a depth)
      pure rows.flatten
    | .variant cases =>
      let rows ← (cases.filterMap (·.2)).mapM (flattenWithin a depth)
      pure (.i32 :: joinAll rows)
    | .enumeration _ => pure [.i32]
    | .option payload =>
      let row ← flattenWithin a depth payload
      pure (.i32 :: row)
    | .result ok err =>
      let rows ← ([ok, err].filterMap fun c => c).mapM (flattenWithin a depth)
      pure (.i32 :: joinAll rows)
    | .flags names => pure (List.replicate ((names.length + 31) / 32) .i32)
    | .list _ => pure [.i32, .i32]
    | .resource => pure [.i32]
    | .alias target => flattenWithin a depth target

def flatten (a : Arena) (ty : Ty) : Except Fault (List Slot) :=
  flattenWithin a a.depth ty

def flattenAll (a : Arena) (types : List Ty) : Except Fault (List Slot) := do
  let rows ← types.mapM (flatten a)
  pure rows.flatten

def flattenPayloads (a : Arena) (cases : List (Option Ty)) : Except Fault (List Slot) := do
  let rows ← (cases.filterMap fun c => c).mapM (flatten a)
  pure (joinAll rows)

end ZigBindings.Layout
