import ZigBindings.Emission.Value

/-!
Emission of the instructions that consume closed blocks: options and lists.
-/

namespace ZigBindings.Emission
open Zig
open Zig.Expr (fixed number builtin call field deref plus times orPanic usizeOf slotOf pointerSlot)

def requireResults (block : Block) (count : Nat) (consumer : String) : Except Fault Unit :=
  if block.results.length = count then pure ()
  else throw (.stack (.blockResults consumer count block.results.length))

/-- The block for a present payload stands above the one for an absent payload. -/
def optionLower (results : List Slot) (s : Emission) : Except Fault Emission := do
  let (present, s) ← s.popBlock
  let (absent, s) ← s.popBlock
  requireResults present results.length "OptionLower"
  requireResults absent results.length "OptionLower"
  let (value, s) ← s.pop
  let (name, s) := s.tmp "option"
  let slots := (List.range results.length).map fun i => s!"{name}_{i}"
  let s := s.reserve slots
  let s := (slots.zip results).foldl (fun s (slot, ty) => s.write (.slotVar slot ty.name)) s
  let s := s.write (.ifSome value present.captures.payload slots
    present.body present.results absent.body absent.results)
  pure (s.pushAll (slots.map .name))

def optionLift (a : Arena) (payload : Ty) (s : Emission) : Except Fault Emission := do
  let (present, s) ← s.popBlock
  let (absent, s) ← s.popBlock
  requireResults present 1 "OptionLift"
  requireResults absent 0 "OptionLift"
  let (discriminant, s) ← s.pop
  let (name, s) := s.tmp "option"
  let type ← spell a payload
  let value := present.results.headD (fixed "")
  let s := s.write (.switchOption name type discriminant absent.body present.body value)
  pure (s.push (.name name))

def allocator : String := "@import(\"std\").heap.wasm_allocator"

def allocate (unit : String) (count : Expr) : Expr :=
  orPanic (call (fixed (allocator ++ ".alloc")) [fixed unit, count])

def elementBase (captures : Captures) (start : Expr) (size : Nat) : Option (String × Expr) :=
  captures.base.map fun base =>
    (base, slotOf (plus start (times (.name (capture captures.index)) (number size))))

/-- The buffer is allocated in units of the element's alignment, which keeps it aligned. -/
def listLower (setting : Setting) (size align : Nat) (s : Emission) : Except Fault Emission := do
  let (block, s) ← s.popBlock
  requireResults block 0 "ListLower"
  let (value, s) ← s.pop
  let (vec, s) := s.materialize value "vec"
  let (result, s) := s.tmp "result"
  if align = 0 then throw .zeroDivision
  let count := times (field vec "len") (number (size / align : Nat))
  let s := s.write (.const result none (allocate s!"u{align * 8}" count))
  let s := if setting.direction = .outward then
      s.write (.onExit (call (fixed (allocator ++ ".free")) [.name result])) else s
  let start := builtin "intFromPtr" [field (.name result) "ptr"]
  let s := s.write (.forEach vec false block.captures.item block.captures.index
    (elementBase block.captures start size) block.body none)
  pure (s.pushAll [pointerSlot (field (.name result) "ptr"), slotOf (field vec "len")])

def listLift (a : Arena) (element : Ty) (size : Nat) (s : Emission) : Except Fault Emission := do
  let (block, s) ← s.popBlock
  requireResults block 1 "ListLift"
  let (length, s) ← s.pop
  let (pointer, s) ← s.pop
  let type ← spell a element
  let (result, s) := s.tmp "result"
  let s := s.write (.const result none (allocate type (usizeOf length)))
  let (item, s) := s.tmp "item"
  let value := block.results.headD (fixed "")
  let s := s.write (.forEach (.name result) true (some item) block.captures.index
    (elementBase block.captures (usizeOf pointer) size) block.body
    (some (deref (.name item), value)))
  pure (s.push (.name result))

end ZigBindings.Emission
