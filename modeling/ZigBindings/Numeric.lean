import ZigBindings.Layout.Slot

/-!
Conversions between declared types and slots. A conversion is planned as steps that each cast to a
type, some of them through a builtin; the plan keeps bit patterns, extends by the sign of the
source, and crosses between floats and integers at one width.
-/

namespace ZigBindings

structure Numeric where
  bits : Nat
  signed : Bool
  floating : Bool := false
deriving DecidableEq, Inhabited

inductive Cast where
  | bitCast
  | truncate
  | floatCast
deriving DecidableEq, Inhabited

def Cast.name : Cast → String
  | bitCast => "bitCast"
  | truncate => "truncate"
  | floatCast => "floatCast"

/-- A cast to the target type, of the value itself or of what the builtin makes of it. -/
structure Step where
  cast : Option Cast
  target : Numeric
deriving DecidableEq, Inhabited

namespace Numeric

def spelling (n : Numeric) : String :=
  let letter := if n.floating then "f" else if n.signed then "i" else "u"
  letter ++ toString n.bits

def ofSlot (slot : Slot) : Numeric :=
  ⟨slot.bits, true, slot.isFloat⟩

def ofAccess (access : Access) : Numeric :=
  ⟨access.size * 8, access.isSigned, access.isFloat⟩

/-- Booleans are one bit wide and characters twenty-one; a string is no number. -/
def ofPrimitive? (p : Primitive) : Option Numeric :=
  if p.isFloat then some ⟨p.bits, true, true⟩
  else if p = .string then none
  else some ⟨p.bits, p.isSigned, false⟩

def unsignedOf (n : Numeric) : Numeric :=
  ⟨n.bits, false, false⟩

def planInteger (src dst : Numeric) : List Step :=
  if src = dst then []
  else if src.bits = dst.bits then [⟨some .bitCast, dst⟩]
  else if src.bits < dst.bits then
    if src.signed && !dst.signed then [⟨none, ⟨dst.bits, true, false⟩⟩, ⟨some .bitCast, dst⟩]
    else [⟨none, dst⟩]
  else if src.signed != dst.signed then
    [⟨some .bitCast, ⟨src.bits, dst.signed, false⟩⟩, ⟨some .truncate, dst⟩]
  else [⟨some .truncate, dst⟩]

def plan (src dst : Numeric) : List Step :=
  if src = dst then []
  else match src.floating, dst.floating with
    | true, true => if src.bits < dst.bits then [⟨none, dst⟩] else [⟨some .floatCast, dst⟩]
    | true, false => ⟨some .bitCast, src.unsignedOf⟩ :: planInteger src.unsignedOf dst
    | false, true => planInteger src dst.unsignedOf ++ [⟨some .bitCast, dst⟩]
    | false, false => planInteger src dst

end Numeric

end ZigBindings
