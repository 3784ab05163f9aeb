import ZigBindings.Layout.Slot

/-!
Instructions that move values between declared types and slots, for a machine with a stack of
operands and nested blocks that have stacks of their own.
-/

namespace ZigBindings

/-- The core signature of a function. Parameters that need too many slots go through one pointer,
and results that need more than one go through a return area. -/
structure Signature where
  params : List Slot := []
  results : List Slot := []
  indirectParams : Bool := false
  returnPointer : Bool := false
deriving DecidableEq, Inhabited

inductive Instruction where
  | getArg (nth : Nat)
  | i32Const (value : Int)
  | constZero (types : List Slot)
  /-- Brings the operand `depth` places below the top to the top. -/
  | roll (depth : Nat)
  | numericWiden (src : Primitive) (dst : Slot)
  | numericNarrow (src : Slot) (dst : Primitive)
  | bitcasts (casts : List (Slot × Slot))
  | stringLower
  | stringLift
  | listCanonLower (element : Ty)
  | listCanonLift (element : Ty)
  | listLower (element : Ty) (size align : Nat)
  | listLift (element : Ty) (size : Nat)
  | iterElem
  | iterBasePointer
  | tupleLower (id arity : Nat)
  | tupleLift (id arity : Nat)
  | recordLower (id : Nat)
  | recordLift (id : Nat)
  | enumLower (id : Nat)
  | enumLift (id : Nat)
  | optionLower (payload : Ty) (results : List Slot)
  | optionLift (payload : Ty)
  | variantPayload
  /-- Opens a block and moves the top `inputs` operands into it. -/
  | blockBegin (inputs : Nat) (loop : Bool)
  | blockEnd (results : Nat)
  | load (access : Access) (offset : Nat)
  | store (access : Access) (offset : Nat)
  | returnPointer (size align : Nat)
  | paramPointer (size align : Nat)
  | callWasm (name : String) (signature : Signature)
  | callInterface (function : Function)
  | ret (amount : Nat)
deriving DecidableEq, Inhabited

def Instruction.tag : Instruction → String
  | getArg _ => "GetArg"
  | i32Const _ => "I32Const"
  | constZero _ => "ConstZero"
  | roll _ => "Roll"
  | numericWiden _ _ => "NumericWiden"
  | numericNarrow _ _ => "NumericNarrow"
  | bitcasts _ => "Bitcasts"
  | stringLower => "StringLower"
  | stringLift => "StringLift"
  | listCanonLower _ => "ListCanonLower"
  | listCanonLift _ => "ListCanonLift"
  | listLower _ _ _ => "ListLower"
  | listLift _ _ => "ListLift"
  | iterElem => "IterElem"
  | iterBasePointer => "IterBasePointer"
  | tupleLower _ _ => "TupleLower"
  | tupleLift _ _ => "TupleLift"
  | recordLower _ => "RecordLower"
  | recordLift _ => "RecordLift"
  | enumLower _ => "EnumLower"
  | enumLift _ => "EnumLift"
  | optionLower _ _ => "OptionLower"
  | optionLift _ => "OptionLift"
  | variantPayload => "VariantPayload"
  | blockBegin _ _ => "BlockBegin"
  | blockEnd _ => "BlockEnd"
  | load _ _ => "Load"
  | store _ _ => "Store"
  | returnPointer _ _ => "ReturnPointer"
  | paramPointer _ _ => "ParamPointer"
  | callWasm _ _ => "CallWasm"
  | callInterface _ => "CallInterface"
  | ret _ => "Return"

end ZigBindings
