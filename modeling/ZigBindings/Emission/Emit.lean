import ZigBindings.Emission.Call
import ZigBindings.Emission.Nested

/-!
Emission of one instruction, and of a sequence.
-/

namespace ZigBindings.Emission
open Zig
open Zig.Expr (typed number)

/-- Records and enumerations have no form in the generated source. -/
def emit (setting : Setting) (inst : Instruction) (s : Emission) : Except Fault Emission := do
  match inst with
  | .getArg nth => s.getArg nth
  | .i32Const value => pure (s.push (typed "i32" (number value)))
  | .constZero types => pure (s.pushAll (types.map zeroOf))
  | .roll depth => s.roll depth
  | .numericWiden src dst => s.numericWiden src dst
  | .numericNarrow src dst => s.numericNarrow src dst
  | .bitcasts casts => s.bitcasts casts
  | .stringLower | .listCanonLower _ => s.lowerSlice
  | .stringLift => s.liftSlice "u8" "str"
  | .listCanonLift element => s.listCanonLift setting.arena element
  | .listLower _ size align => s.listLower setting size align
  | .listLift element size => s.listLift setting.arena element size
  | .iterElem =>
    let (name, s) ← s.item
    pure (s.push (.name name))
  | .iterBasePointer =>
    let (name, s) ← s.base
    pure (s.push (.name name))
  | .tupleLower _ arity => s.tupleLower arity
  | .tupleLift _ arity => s.tupleLift arity
  | .recordLower _ | .recordLift _ | .enumLower _ | .enumLift _ =>
    throw (.unsupportedInstruction inst.tag)
  | .optionLower _ results => s.optionLower results
  | .optionLift payload => s.optionLift setting.arena payload
  | .variantPayload =>
    let (name, s) ← s.payload
    pure (s.push (.name name))
  | .blockBegin inputs loop => s.beginBlock inputs loop
  | .blockEnd results => s.endBlock results
  | .load access offset => s.load access offset
  | .store access offset => s.store access offset
  | .returnPointer size align =>
    let (area, s) := s.useReturnArea size align
    pure (s.push (areaPointer setting.direction area))
  | .paramPointer size align =>
    let (area, s) := s.useParamArea size align
    pure (s.push (areaPointer setting.direction area))
  | .callWasm name sig => s.callWasm setting name sig
  | .callInterface f => s.callInterface setting f
  | .ret amount => s.ret setting amount

def emitAll (setting : Setting) (instructions : List Instruction) (s : Emission) :
    Except Fault Emission :=
  instructions.foldlM (fun s inst => emit setting inst s) s

def bodyText (s : Emission) (width : Int) : List Char :=
  Stmt.renderAll width s.body

end ZigBindings.Emission
