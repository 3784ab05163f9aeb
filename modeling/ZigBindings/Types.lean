/-!
Interface types: primitives, and definitions that refer to each other by their place in an arena.
-/

namespace ZigBindings

inductive Primitive where
  | bool | s8 | u8 | s16 | u16 | s32 | u32 | s64 | u64 | f32 | f64 | char | string
deriving DecidableEq, Inhabited

namespace Primitive

def all : List Primitive :=
  [bool, s8, u8, s16, u16, s32, u32, s64, u64, f32, f64, char, string]

def name : Primitive → String
  | bool => "bool"
  | s8 => "s8"
  | u8 => "u8"
  | s16 => "s16"
  | u16 => "u16"
  | s32 => "s32"
  | u32 => "u32"
  | s64 => "s64"
  | u64 => "u64"
  | f32 => "f32"
  | f64 => "f64"
  | char => "char"
  | string => "string"

def ofName? (name : String) : Option Primitive :=
  all.find? (·.name == name)

def bits : Primitive → Nat
  | bool => 1
  | s8 | u8 => 8
  | s16 | u16 => 16
  | s32 | u32 | f32 => 32
  | s64 | u64 | f64 => 64
  | char => 21
  | string => 0

def isSigned : Primitive → Bool
  | s8 | s16 | s32 | s64 => true
  | _ => false

def isInteger : Primitive → Bool
  | s8 | u8 | s16 | u16 | s32 | u32 | s64 | u64 => true
  | _ => false

def isFloat : Primitive → Bool
  | f32 | f64 => true
  | _ => false

end Primitive

/-- A primitive, or the definition at a place of the arena. -/
inductive Ty where
  | prim (primitive : Primitive)
  | ref (id : Nat)
deriving DecidableEq, Inhabited

inductive Kind where
  | record (fields : List (String × Ty))
  | tuple (elements : List Ty)
  | variant (cases : List (String × Option Ty))
  | enumeration (cases : List String)
  | flags (names : List String)
  | option (payload : Ty)
  | result (ok err : Option Ty)
  | list (element : Ty)
  | resource
  | alias (target : Ty)
deriving DecidableEq, Inhabited

namespace Kind

def label : Kind → String
  | record _ => "Record"
  | tuple _ => "Tuple"
  | variant _ => "Variant"
  | enumeration _ => "Enum"
  | flags _ => "Flags"
  | option _ => "Option"
  | result _ _ => "Result"
  | list _ => "List"
  | resource => "Resource"
  | .alias _ => "Alias"

def cases? : Kind → Option (List (Option Ty))
  | variant cases => some (cases.map (·.2))
  | enumeration cases => some (cases.map fun _ => none)
  | option payload => some [none, some payload]
  | result ok err => some [ok, err]
  | _ => none

end Kind

structure TypeDef where
  kind : Kind
  name : Option String
deriving DecidableEq, Inhabited

abbrev Arena := Array TypeDef

/-- What a function gives back: nothing, one nameless value, or a list of named ones. The nameless
value hides the named ones. -/
structure Results where
  anon : Option Ty := none
  named : List (String × Ty) := []
deriving DecidableEq, Inhabited

namespace Results

def isNamed (r : Results) : Bool :=
  r.anon.isNone && !r.named.isEmpty

def types (r : Results) : List Ty :=
  match r.anon with
  | some ty => [ty]
  | none => r.named.map (·.2)

end Results

structure Function where
  name : String
  params : List (String × Ty) := []
  results : Results := {}
deriving DecidableEq, Inhabited

/-- Which side a wrapper stands on: it calls out to the host, or is called by it. -/
inductive Direction where
  | outward
  | inward
deriving DecidableEq, Inhabited

def Direction.name : Direction → String
  | outward => "import"
  | inward => "export"

end ZigBindings
