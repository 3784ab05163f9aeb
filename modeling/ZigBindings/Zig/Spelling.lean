import ZigBindings.Layout.Arena
import ZigBindings.Layout.Slot
import ZigBindings.Name.Escaped

/-!
How interface types are spelled in the generated source. Primitives and tuples of spellable types
have a spelling; options and lists of them have none of their own but can still be passed.
-/

namespace ZigBindings.Zig

def primitiveSpelling : Primitive → String
  | .bool => "bool"
  | .s8 => "i8"
  | .u8 => "u8"
  | .s16 => "i16"
  | .u16 => "u16"
  | .s32 => "i32"
  | .u32 => "u32"
  | .s64 => "i64"
  | .u64 => "u64"
  | .f32 => "f32"
  | .f64 => "f64"
  | .char => "u21"
  | .string => "[]const u8"

def tupleSpelling (elements : List String) : String :=
  if elements.isEmpty then "struct \x7b\x7d"
  else "struct \x7b " ++ ", ".intercalate elements ++ " \x7d"

def spellWithin (a : Arena) : Nat → Ty → Except Fault String
  | _, .prim p => pure (primitiveSpelling p)
  | 0, .ref _ => throw .endless
  | depth + 1, .ref id => do
    match ← a.kind id with
    | .tuple elements =>
      let parts ← elements.mapM (spellWithin a depth)
      pure (tupleSpelling parts)
    | kind => throw (.unsupportedType kind id)

def spell (a : Arena) (ty : Ty) : Except Fault String :=
  spellWithin a a.depth ty

def spellField (a : Arena) (field : String × Ty) : Except Fault String := do
  let type ← spell a field.2
  pure (Name.identifier field.1 ++ ": " ++ type)

def spellResults (a : Arena) (results : Results) : Except Fault String := do
  match results.anon with
  | some ty => spell a ty
  | none =>
    if results.named.isEmpty then return "void"
    let fields ← results.named.mapM (spellField a)
    pure ("struct \x7b " ++ ", ".intercalate fields ++ " \x7d")

def checkWithin (a : Arena) : Nat → Ty → Except Fault Unit
  | _, .prim _ => pure ()
  | 0, .ref _ => throw .endless
  | depth + 1, .ref id => do
    match ← a.kind id with
    | .tuple elements => elements.forM (checkWithin a depth)
    | .option inner | .list inner => discard (spell a inner)
    | kind => throw (.unsupportedType kind id)

def check (a : Arena) (ty : Ty) : Except Fault Unit :=
  checkWithin a a.depth ty

def slotWidths : Primitive → List Nat
  | .string => []
  | .s64 | .u64 | .f64 => [64]
  | .f32 => [32]
  | _ => [32, 64]

end ZigBindings.Zig
