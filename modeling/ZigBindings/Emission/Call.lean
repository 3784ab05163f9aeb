import ZigBindings.Emission.State

/-!
Emission of calls and returns.
-/

namespace ZigBindings.Emission
open Zig
open Zig.Expr (fixed builtin call field struct)

def slotOrVoid (results : List Slot) : String :=
  match results with
  | [] => "void"
  | slot :: _ => slot.name

def functionType (sig : Signature) : String :=
  "*const fn (" ++ commas (sig.params.map Slot.name) ++ ") callconv(.c) " ++
    slotOrVoid sig.results

def quote (text : String) : String :=
  "\"" ++ text ++ "\""

def externOf (setting : Setting) (name : String) : Expr :=
  builtin "extern" [fixed (functionType setting.signature),
    struct ["library_name", "name"] [fixed (quote setting.linkName), fixed (quote name)]]

def callWasm (setting : Setting) (name : String) (sig : Signature) (s : Emission) :
    Except Fault Emission := do
  if setting.direction ≠ .outward then throw (.unsupportedInstruction "CallWasm")
  if 1 < sig.results.length then
    throw (.generation (.missingResultConvention name sig.results.length) none)
  let (args, s) ← s.popN sig.params.length
  let (callee, s) := s.fresh "wasm_import"
  let s := s.write (.const callee none (externOf setting name))
  let value := call (.name callee) args
  if sig.results.isEmpty then pure (s.write (.run value))
  else
    let (result, s) := s.fresh "ret"
    pure ((s.write (.const result none value)).push (.name result))

def implementation (setting : Setting) (f : Function) : Except Fault Expr :=
  match setting.implParam.text? with
  | some impl => pure (fixed (".".intercalate (impl :: setting.path ++ [Name.identifier f.name])))
  | none => throw .wrongShape

def callInterface (setting : Setting) (f : Function) (s : Emission) : Except Fault Emission := do
  if setting.direction = .outward then throw (.unsupportedInstruction "CallInterface")
  let (args, s) ← s.popN f.params.length
  let target ← implementation setting f
  let value := call target args
  if f.results.types.isEmpty then pure (s.write (.run value))
  else
    let (result, s) := s.fresh "ret"
    let s := s.write (.const result none value)
    if f.results.isNamed then
      pure (s.pushAll (f.results.named.map fun r => field (.name result) (Name.identifier r.1)))
    else pure (s.push (.name result))

def ret (setting : Setting) (amount : Nat) (s : Emission) : Except Fault Emission := do
  let (values, s) ← s.popN amount
  let results := setting.function.results
  if setting.direction = .outward && results.isNamed then
    if values.length ≠ results.named.length then
      throw (.stack (.namedResults results.named.length values.length))
    let fields := results.named.map fun r => Name.identifier r.1
    pure (s.write (.ret (struct fields values)))
  else match values with
    | [] => pure s
    | [value] => pure (s.write (.ret value))
    | _ =>
      throw (.generation (.missingResultConvention setting.function.name values.length) none)

end ZigBindings.Emission
