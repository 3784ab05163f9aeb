import ZigBindings.Layout.Alignment
import ZigBindings.Layout.Arena

/-!
Sizes, alignments and offsets of values in linear memory.
-/

namespace ZigBindings.Layout

structure Extent where
  size : Nat
  align : Nat
deriving DecidableEq, Inhabited

def primitiveExtent : Primitive → Extent
  | .bool | .s8 | .u8 => ⟨1, 1⟩
  | .s16 | .u16 => ⟨2, 2⟩
  | .s32 | .u32 | .f32 | .char => ⟨4, 4⟩
  | .s64 | .u64 | .f64 => ⟨8, 8⟩
  | .string => ⟨8, 4⟩

def discriminantSize (count : Nat) : Nat :=
  if count ≤ 256 then 1 else if count ≤ 65536 then 2 else 4

def flagsExtent (count : Nat) : Extent :=
  if count ≤ 8 then ⟨1, 1⟩
  else if count ≤ 16 then ⟨2, 2⟩
  else ⟨4 * ((count + 31) / 32), 4⟩

def maxAlign (fields : List Extent) : Nat :=
  (fields.map (·.align)).foldl max 1

def maxSize (fields : List Extent) : Nat :=
  (fields.map (·.size)).foldl max 0

/-- Offsets of fields laid out in order from `start`, and the offset past the last of them. -/
def place (start : Nat) : List Extent → Except Fault (List Nat × Nat)
  | [] => pure ([], start)
  | field :: rest => do
    let offset ← alignUp start field.align
    let (offsets, stop) ← place (offset + field.size) rest
    pure (offset :: offsets, stop)

def recordExtent (fields : List Extent) : Except Fault Extent := do
  if fields.isEmpty then return ⟨0, 1⟩
  let (_, stop) ← place 0 fields
  let size ← alignUp stop (maxAlign fields)
  pure ⟨size, maxAlign fields⟩

def payloadStart (count : Nat) (payloads : List Extent) : Except Fault Nat :=
  alignUp (discriminantSize count) (maxAlign payloads)

def sumExtent (count : Nat) (payloads : List Extent) : Except Fault Extent := do
  let start ← payloadStart count payloads
  let align := max (discriminantSize count) (maxAlign payloads)
  let size ← alignUp (start + maxSize payloads) align
  pure ⟨size, align⟩

def measureWithin (a : Arena) : Nat → Ty → Except Fault Extent
  | _, .prim p => pure (primitiveExtent p)
  | 0, .ref _ => throw .endless
  | depth + 1, .ref id => do
    match ← a.kind id with
    | .record fields =>
      let extents ← fields.mapM fun f => measureWithin a depth f.2
      recordExtent extents
    | .tuple elements =>
      let extents ← elements.mapM (measureWithin a depth)
      recordExtent extents
    | .variant cases =>
      let payloads ← (cases.filterMap (·.2)).mapM (measureWithin a depth)
      sumExtent cases.length payloads
    | .enumeration cases => sumExtent cases.length []
    | .option payload =>
      let extent ← measureWithin a depth payload
      sumExtent 2 [extent]
    | .result ok err =>
      let payloads ← ([ok, err].filterMap fun c => c).mapM (measureWithin a depth)
      sumExtent 2 payloads
    | .flags names => pure (flagsExtent names.length)
    | .list _ => pure ⟨8, 4⟩
    | .resource => pure ⟨4, 4⟩
    | .alias target => measureWithin a depth target

def measure (a : Arena) (ty : Ty) : Except Fault Extent :=
  measureWithin a a.depth ty

def measureAll (a : Arena) (types : List Ty) : Except Fault (List Extent) :=
  types.mapM (measure a)

def fieldOffsets (a : Arena) (types : List Ty) : Except Fault (List Nat) := do
  let extents ← measureAll a types
  let (offsets, _) ← place 0 extents
  pure offsets

def recordLayout (a : Arena) (types : List Ty) : Except Fault Extent := do
  let extents ← measureAll a types
  recordExtent extents

def payloadOffset (a : Arena) (id : Nat) : Except Fault Nat := do
  match (← a.kind id).cases? with
  | none => throw (.value (.noPayload id))
  | some cases =>
    let payloads ← measureAll a (cases.filterMap fun c => c)
    payloadStart cases.length payloads

end ZigBindings.Layout
