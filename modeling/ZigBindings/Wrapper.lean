import ZigBindings.Crossing.Sequence
import ZigBindings.Emission.Emit
import ZigBindings.Options

/-!
Wrappers: the source of one function in one direction. Outward it is a function that calls the
host, inward an entry point that the host calls.
-/

namespace ZigBindings.Wrapper
open Zig

/-- What the wrappers of one world share; locals must not take the reserved names. -/
structure Shared where
  arena : Arena
  options : Options := {}
  reserved : List String := []
deriving Inhabited

structure Place where
  path : List String := []
  linkName : String := "$root"
deriving DecidableEq, Inhabited

def setting (shared : Shared) (place : Place) (direction : Direction) (f : Function) :
    Except Fault Setting := do
  let signature ← Crossing.signature shared.arena direction f
  pure { arena := shared.arena, function := f, direction, signature,
         path := place.path, linkName := place.linkName, implParam := shared.options.implParam }

def emitBody (setting : Setting) (s : Emission) : Except Fault Emission := do
  let instructions ← Crossing.sequence setting.arena setting.direction setting.function
  let s ← Emission.emitAll setting instructions s
  s.checkFinished
  pure s

def parameters (names types : List String) : String :=
  commas (List.zipWith (fun name type => name ++ ": " ++ type) names types)

def assemble (direction : Direction) (width : Int) (header : String) (s : Emission) : List Char :=
  let areas := [s.paramArea, s.returnArea].filterMap fun area => area
  line 0 header.toList ++
    areas.flatMap (fun area => line width (Emission.areaDeclaration direction area).toList) ++
    splice width (s.bodyText width) ++
    line 0 "\x7d".toList

def outward (shared : Shared) (place : Place) (f : Function) : Except Fault (List Char) := do
  let types ← f.params.mapM fun p => spell shared.arena p.2
  let result ← spellResults shared.arena f.results
  let setting ← setting shared place .outward f
  let start := (({} : Emission).reserve shared.reserved).bindParams
    (f.params.map fun p => Name.identifier p.1)
  let s ← emitBody setting start
  let header := "pub fn " ++ Name.identifier f.name ++ "(" ++ parameters s.params types ++ ") " ++
    result ++ " \x7b"
  pure (assemble .outward shared.options.width header s)

def exportSymbol (place : Place) (f : Function) : String :=
  if place.path.isEmpty then f.name else place.linkName ++ "#" ++ f.name

def inward (shared : Shared) (place : Place) (f : Function) : Except Fault (List Char) := do
  f.params.forM fun p => check shared.arena p.2
  f.results.types.forM (check shared.arena)
  let setting ← setting shared place .inward f
  let sig := setting.signature
  let (params, start) := (({} : Emission).reserve shared.reserved).tmpAll "arg" sig.params.length
  let s ← emitBody setting { start with params }
  let header := "pub export fn " ++ Name.escaped (exportSymbol place f) ++ "(" ++
    parameters s.params (sig.params.map Slot.name) ++ ") " ++ Emission.slotOrVoid sig.results ++
    " \x7b"
  pure (assemble .inward shared.options.width header s)

/-- The wrapper's source; a generation fault is located at the function. -/
def source (shared : Shared) (place : Place) (direction : Direction) (f : Function) :
    Except Fault (List Char) :=
  let compiled := match direction with
    | .outward => outward shared place f
    | .inward => inward shared place f
  compiled.mapError (Fault.locate ⟨f.name, direction⟩)

end ZigBindings.Wrapper
