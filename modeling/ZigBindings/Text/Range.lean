/-!
Sets of characters given as tables of code point ranges, both ends included.
-/

namespace ZigBindings.Text

def inRanges (table : List (Nat × Nat)) (c : Char) : Bool :=
  table.any fun (first, last) => first ≤ c.toNat && c.toNat ≤ last

end ZigBindings.Text
