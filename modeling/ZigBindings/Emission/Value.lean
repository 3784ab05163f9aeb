import ZigBindings.Emission.State
import ZigBindings.Zig.Spelling

/-!
Emission of instructions on single values: arguments, constants, numeric conversions, slices,
tuples, and accesses to memory.
-/

namespace ZigBindings.Emission
open Zig
open Zig.Expr (typed number builtin field deref addressOf usizeOf slotOf pointerSlot address convert
  widen? narrow?)

def getArg (nth : Nat) (s : Emission) : Except Fault Emission :=
  match s.params[nth]? with
  | none => throw (.stack (.noArgument nth s.params.length))
  | some name => pure (s.push (.name name))

def zeroOf (slot : Slot) : Expr :=
  typed slot.name (number 0)

/-- Refuses a slot that cannot hold every value of the primitive. -/
def requireWidth (tag : String) (p : Primitive) (slot : Slot) : Except Fault Unit :=
  if (slotWidths p).contains slot.bits then pure ()
  else throw (.unsupportedInstruction s!"{tag}({p.name}, {slot.name})")

def notNumeric (p : Primitive) : Fault :=
  .value (.notNumeric p.name)

def widened (value : Expr) (p : Primitive) (slot : Slot) : Except Fault Expr :=
  match widen? value p slot with
  | some e => pure e
  | none => throw (notNumeric p)

def narrowed (value : Expr) (slot : Slot) (p : Primitive) : Except Fault Expr :=
  match narrow? value slot p with
  | some e => pure e
  | none => throw (notNumeric p)

def numericWiden (src : Primitive) (dst : Slot) (s : Emission) : Except Fault Emission := do
  requireWidth "NumericWiden" src dst
  let (value, s) ← s.pop
  let slot ← widened value src dst
  pure (s.push slot)

def numericNarrow (src : Slot) (dst : Primitive) (s : Emission) : Except Fault Emission := do
  requireWidth "NumericNarrow" dst src
  let (slot, s) ← s.pop
  let value ← narrowed slot src dst
  pure (s.push value)

def bitcasts (casts : List (Slot × Slot)) (s : Emission) : Except Fault Emission := do
  let (values, s) ← s.popN casts.length
  pure (s.pushAll (List.zipWith
    (fun value (src, dst) => convert value (.ofSlot src) (.ofSlot dst)) values casts))

def lowerSlice (s : Emission) : Except Fault Emission := do
  let (value, s) ← s.pop
  let (slice, s) := s.materialize value "slice"
  pure (s.pushAll [pointerSlot (field slice "ptr"), slotOf (field slice "len")])

def liftSlice (element stem : String) (s : Emission) : Except Fault Emission := do
  let (length, s) ← s.pop
  let (pointer, s) ← s.pop
  let (name, s) := s.tmp stem
  let start := typed ("[*]const " ++ element) (builtin "ptrFromInt" [usizeOf pointer])
  let s := s.write (.const name (some ("[]const " ++ element)) (Expr.slice start (usizeOf length)))
  pure (s.push (.name name))

def listCanonLift (a : Arena) (element : Ty) (s : Emission) : Except Fault Emission := do
  let spelling ← spell a element
  liftSlice spelling "list" s

def elementAt (value : Expr) (i : Nat) : Expr :=
  field value s!"@\"{i}\""

/-- An empty tuple is discarded, since an unused name would be refused. -/
def tupleLower (arity : Nat) (s : Emission) : Except Fault Emission := do
  let (value, s) ← s.pop
  if arity = 0 then pure (s.write (.discard value))
  else
    let (value, s) := s.materialize value "tuple"
    pure (s.pushAll ((List.range arity).map (elementAt value)))

def tupleLift (arity : Nat) (s : Emission) : Except Fault Emission := do
  let (items, s) ← s.popN arity
  pure (s.push (.tuple items))

def place (pointer : String) (access : Access) (base : Expr) (offset : Nat) : Expr :=
  deref (typed (pointer ++ (Numeric.ofAccess access).spelling)
    (builtin "ptrFromInt" [address base offset]))

def load (access : Access) (offset : Nat) (s : Emission) : Except Fault Emission := do
  let (base, s) ← s.pop
  let read := place "*align(1) const " access base offset
  let (name, s) := s.tmp "load"
  let value := convert read (.ofAccess access) (.ofSlot access.slot)
  let s := s.write (.const name (some access.slot.name) value)
  pure (s.push (.name name))

def store (access : Access) (offset : Nat) (s : Emission) : Except Fault Emission := do
  let (base, s) ← s.pop
  let (value, s) ← s.pop
  let target := place "*align(1) " access base offset
  pure (s.write (.assign target (convert value (.ofSlot access.slot) (.ofAccess access))))

/-- Areas of an entry point outlive the call, so they live in a container. -/
def areaPointer (direction : Direction) (area : Area) : Expr :=
  match direction with
  | .outward => pointerSlot (addressOf (.name area.name))
  | .inward => pointerSlot (addressOf (field (.name area.name) "bytes"))

def areaDeclaration (direction : Direction) (area : Area) : String :=
  let storage := s!"[{area.size}]u8 align({area.align}) = undefined"
  match direction with
  | .outward => s!"var {area.name}: {storage};"
  | .inward => s!"const {area.name} = struct \x7b var bytes: {storage}; \x7d;"

end ZigBindings.Emission
