import ZigBindings.Types

/-!
Slots of the core calling convention, and the widths at which linear memory is read and written.
-/

namespace ZigBindings

inductive Slot where
  | i32 | i64 | f32 | f64
deriving DecidableEq, Inhabited

namespace Slot

def all : List Slot := [i32, i64, f32, f64]

def name : Slot → String
  | i32 => "i32"
  | i64 => "i64"
  | f32 => "f32"
  | f64 => "f64"

def ofName? (name : String) : Option Slot :=
  all.find? (·.name == name)

def bits : Slot → Nat
  | i32 | f32 => 32
  | i64 | f64 => 64

def isFloat : Slot → Bool
  | f32 | f64 => true
  | i32 | i64 => false

def join (a b : Slot) : Slot :=
  match a, b with
  | i32, i32 => i32
  | f32, f32 => f32
  | f64, f64 => f64
  | i32, f32 | f32, i32 => i32
  | _, _ => i64

end Slot

/-- An access to memory: its width, and how the bytes are read. -/
inductive Access where
  | u8 | i8 | u16 | i16 | i32 | i64 | f32 | f64
deriving DecidableEq, Inhabited

namespace Access

def all : List Access := [u8, i8, u16, i16, i32, i64, f32, f64]

def name : Access → String
  | u8 => "u8"
  | i8 => "i8"
  | u16 => "u16"
  | i16 => "i16"
  | i32 => "i32"
  | i64 => "i64"
  | f32 => "f32"
  | f64 => "f64"

def ofName? (name : String) : Option Access :=
  all.find? (·.name == name)

def size : Access → Nat
  | u8 | i8 => 1
  | u16 | i16 => 2
  | i32 | f32 => 4
  | i64 | f64 => 8

def isSigned : Access → Bool
  | u8 | u16 => false
  | _ => true

def isFloat : Access → Bool
  | f32 | f64 => true
  | _ => false

def slot : Access → Slot
  | i64 => .i64
  | f32 => .f32
  | f64 => .f64
  | _ => .i32

def ofPrimitive? : Primitive → Option Access
  | .bool | .u8 => some u8
  | .s8 => some i8
  | .s16 => some i16
  | .u16 => some u16
  | .s32 | .u32 | .char => some i32
  | .s64 | .u64 => some i64
  | .f32 => some f32
  | .f64 => some f64
  | .string => none

end Access

end ZigBindings
