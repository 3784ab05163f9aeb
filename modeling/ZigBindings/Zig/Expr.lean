import ZigBindings.Layout.Slot
import ZigBindings.Numeric

/-!
Expressions of the generated source, and how they are written.
-/

namespace ZigBindings.Zig

inductive Expr where
  /-- Text that mentions no local of the function. -/
  | fixed (text : String)
  /-- A local of the function. -/
  | name (name : String)
  | number (value : Int)
  | typed (type : String) (value : Expr)
  | builtin (function : String) (args : List Expr)
  | call (target : Expr) (args : List Expr)
  | field (value : Expr) (field : String)
  | deref (value : Expr)
  | addressOf (value : Expr)
  | nonzero (value : Expr)
  | plus (left right : Expr)
  | times (left right : Expr)
  | slice (value stop : Expr)
  | tuple (items : List Expr)
  | struct (fields : List String) (values : List Expr)
  | orPanic (value : Expr)
deriving Inhabited

def commas (items : List String) : String :=
  ", ".intercalate items

namespace Expr

mutual
def render : Expr → String
  | fixed text => text
  | name ident => ident
  | number value => toString value
  | typed type value => "@as(" ++ type ++ ", " ++ value.render ++ ")"
  | builtin function args => "@" ++ function ++ "(" ++ commas (renderAll args) ++ ")"
  | call target args => target.render ++ "(" ++ commas (renderAll args) ++ ")"
  | field value member => value.render ++ "." ++ member
  | deref value => value.render ++ ".*"
  | addressOf value => "&" ++ value.render
  | nonzero value => "(" ++ value.render ++ " != 0)"
  | plus left right => left.render ++ " + " ++ right.render
  | times left right => left.render ++ " * " ++ right.render
  | slice value stop => value.render ++ "[0.." ++ stop.render ++ "]"
  | tuple items =>
    if items.isEmpty then ".\x7b\x7d" else ".\x7b " ++ commas (renderAll items) ++ " \x7d"
  | struct fields values =>
    ".\x7b " ++ commas (List.zipWith (fun f v => "." ++ f ++ " = " ++ v) fields (renderAll values)) ++
      " \x7d"
  | orPanic value => value.render ++ " catch @panic(\"out of memory\")"

def renderAll : List Expr → List String
  | [] => []
  | e :: rest => e.render :: renderAll rest
end

mutual
def names : Expr → List String
  | fixed _ | number _ => []
  | name ident => [ident]
  | typed _ value | field value _ | deref value | addressOf value | nonzero value
  | orPanic value => value.names
  | builtin _ args => namesAll args
  | call target args => target.names ++ namesAll args
  | plus left right | times left right | slice left right => left.names ++ right.names
  | tuple items => namesAll items
  | struct _ values => namesAll values

def namesAll : List Expr → List String
  | [] => []
  | e :: rest => e.names ++ namesAll rest
end

/-- The `usize` value of an `i32` slot that holds an address or a length. The detour over `u32`
keeps addresses in the upper half of memory positive. -/
def usizeOf (slot : Expr) : Expr :=
  typed "usize" (typed "u32" (builtin "bitCast" [slot]))

def slotOf (value : Expr) : Expr :=
  typed "i32" (builtin "bitCast" [typed "u32" (builtin "intCast" [value])])

def pointerSlot (pointer : Expr) : Expr :=
  slotOf (builtin "intFromPtr" [pointer])

def address (base : Expr) (offset : Nat) : Expr :=
  if offset = 0 then usizeOf base else plus (usizeOf base) (number offset)

def applyStep (value : Expr) (step : Step) : Expr :=
  match step.cast with
  | some cast => typed step.target.spelling (builtin cast.name [value])
  | none => typed step.target.spelling value

def convert (value : Expr) (src dst : Numeric) : Expr :=
  (src.plan dst).foldl applyStep value

def widen? (value : Expr) (p : Primitive) (slot : Slot) : Option Expr :=
  let value := if p = .bool then builtin "intFromBool" [value] else value
  (Numeric.ofPrimitive? p).map fun src => convert value src (.ofSlot slot)

/-- A slot as a declared value. Code points out of range trap in safe builds. -/
def narrow? (value : Expr) (slot : Slot) (p : Primitive) : Option Expr :=
  match p with
  | .bool => some (nonzero value)
  | .char => some (typed "u21" (builtin "intCast" [value]))
  | _ => (Numeric.ofPrimitive? p).map fun dst => convert value (.ofSlot slot) dst

end Expr

end ZigBindings.Zig
