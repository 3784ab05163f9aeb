import ZigBindings.Layout.Arena
import ZigBindings.Name.Escaped

/-!
The registry of everything a world refers to by number: types, packages, interfaces and worlds.
Interfaces that belong to a package have a link name and a path of three namespaces.
-/

namespace ZigBindings

structure Package where
  space : String
  name : String
  version : Option String := none
deriving DecidableEq, Inhabited

structure Interface where
  name : Option String
  package : Option Nat := none
  functions : List (String × Function) := []
deriving DecidableEq, Inhabited

/-- What a world's item goes by: a name of its own, or the interface it is. -/
inductive Key where
  | name (name : String)
  | interface (id : Nat)
deriving DecidableEq, Inhabited

inductive Item where
  | function (function : Function)
  | interface (id : Nat)
  | type (id : Nat)
deriving DecidableEq, Inhabited

structure World where
  name : String
  package : Option Nat := none
  imports : List (Key × Item) := []
  exports : List (Key × Item) := []
deriving DecidableEq, Inhabited

structure Registry where
  types : Arena := #[]
  packages : Array Package := #[]
  interfaces : Array Interface := #[]
  worlds : Array World := #[]
deriving Inhabited

namespace Registry

def addType (r : Registry) (d : TypeDef) : Nat × Registry :=
  (r.types.size, { r with types := r.types.push d })

def addPackage (r : Registry) (p : Package) : Nat × Registry :=
  (r.packages.size, { r with packages := r.packages.push p })

def addInterface (r : Registry) (i : Interface) : Nat × Registry :=
  (r.interfaces.size, { r with interfaces := r.interfaces.push i })

def addWorld (r : Registry) (w : World) : Nat × Registry :=
  (r.worlds.size, { r with worlds := r.worlds.push w })

def at? {α : Type} (table : Array α) (id : Nat) : Except Fault α :=
  match table[id]? with
  | some entry => pure entry
  | none => throw .dangling

def findWorld (r : Registry) (name : String) : Except Fault Nat :=
  match r.worlds.findIdx? (·.name == name) with
  | some id => pure id
  | none => throw (.noWorld name)

/-- An interface with its package; one without either is refused. -/
def packaged (r : Registry) (id : Nat) : Except Fault (Package × String) := do
  let interface ← at? r.interfaces id
  match interface.package, interface.name with
  | some package, some name =>
    let package ← at? r.packages package
    pure (package, name)
  | _, _ => throw (.value (.unpackagedInterface id))

/-- A version that is missing or empty is not written. -/
def qualifiedName (p : Package) (interface : String) : String :=
  let name := p.space ++ ":" ++ p.name ++ "/" ++ interface
  match p.version with
  | none => name
  | some version => if version.isEmpty then name else name ++ "@" ++ version

def linkName (r : Registry) : Key → Except Fault String
  | .name name => pure name
  | .interface id => do
    let (package, name) ← r.packaged id
    pure (qualifiedName package name)

def scopePath (r : Registry) : Key → Except Fault (List String)
  | .name name => pure [Name.identifier name]
  | .interface id => do
    let (package, name) ← r.packaged id
    pure [Name.identifier package.space, Name.identifier package.name, Name.identifier name]

end Registry

end ZigBindings
