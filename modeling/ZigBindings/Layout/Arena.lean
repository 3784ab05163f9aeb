import ZigBindings.Fault

/-!
Looking types up in an arena. A walk from one definition to the next goes through each of them at
most once unless a type contains itself by value, so its depth is bounded by the arena's size.
-/

namespace ZigBindings.Arena

def typedef (a : Arena) (id : Nat) : Except Fault TypeDef :=
  match a[id]? with
  | some d => pure d
  | none => throw .dangling

def kind (a : Arena) (id : Nat) : Except Fault Kind :=
  (a.typedef id).map (·.kind)

/-- A walk that is deeper than this goes round in a circle. -/
def depth (a : Arena) : Nat := a.size + 1

def unaliasWithin (a : Arena) : Nat → Ty → Except Fault Ty
  | _, .prim p => pure (.prim p)
  | 0, .ref _ => throw .endless
  | depth + 1, .ref id => do
    match ← a.kind id with
    | .alias target => unaliasWithin a depth target
    | _ => pure (.ref id)

def unalias (a : Arena) (ty : Ty) : Except Fault Ty :=
  a.unaliasWithin a.depth ty

end ZigBindings.Arena
