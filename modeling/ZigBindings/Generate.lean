import ZigBindings.Module.Assembly
import ZigBindings.World.Registry
import ZigBindings.Wrapper

/-!
Generation: every function that a world imports or exports becomes a wrapper, filed under the path
of its item, and the wrappers are put together to one module. The first fault ends it.
-/

namespace ZigBindings.Generate

inductive Task where
  | wrap (direction : Direction) (place : Wrapper.Place) (function : Function)
  | skipType (direction : Direction) (name : Option String)
deriving DecidableEq, Inhabited

def itemTasks (r : Registry) (direction : Direction) (entry : Key × Item) :
    Except Fault (List Task) :=
  match entry.2 with
  | .function f => pure [.wrap direction {} f]
  | .interface id => do
    let path ← r.scopePath entry.1
    let linkName ← r.linkName entry.1
    let interface ← Registry.at? r.interfaces id
    pure (interface.functions.map fun f => .wrap direction ⟨path, linkName⟩ f.2)
  | .type id => do
    let definition ← r.types.typedef id
    pure [.skipType direction definition.name]

def tasks (r : Registry) (w : World) : Except Fault (List Task) := do
  let imports ← w.imports.mapM (itemTasks r .outward)
  let exports ← w.exports.mapM (itemTasks r .inward)
  pure (imports.flatten ++ exports.flatten)

def reservedBy (r : Registry) (entry : Key × Item) : Except Fault (List String) :=
  match entry.2 with
  | .function f => pure [Name.identifier f.name, Name.escaped f.name]
  | .interface id => do
    let path ← r.scopePath entry.1
    let interface ← Registry.at? r.interfaces id
    pure (path ++ interface.functions.map fun f => Name.identifier f.2.name)
  | .type _ => pure []

def optionName (value : Document) : Except Fault (List String) :=
  match value with
  | .scalar (.text name) => pure [name]
  | .scalar _ => pure []
  | _ => throw .wrongShape

/-- Names declared in a container of the module, which locals must not take. -/
def reserved (r : Registry) (w : World) (o : Options) : Except Fault (List String) := do
  let exportsType ← optionName o.exportsType
  let implParam ← optionName o.implParam
  let names ← (w.imports ++ w.exports).mapM (reservedBy r)
  pure (exportsType ++ implParam ++ [Module.verifyFunction] ++ names.flatten)

def pathLabel (path : List String) : String :=
  let joined := ".".intercalate path
  if joined.isEmpty then "<root>" else joined

def Task.report : Task → String
  | wrap direction place f => s!"{direction.name} {f.name} -> {pathLabel place.path}"
  | skipType direction name =>
    let shown := name.getD "None"
    s!"skipping {direction.name}ed type {shown}"

def file (direction : Direction) (place : Wrapper.Place) (f : Function) (source : List Char)
    (c : Module.Contents) : Module.Contents :=
  match direction with
  | .outward => { c with imports := c.imports.file source place.path }
  | .inward =>
    { c with exports := c.exports.file source place.path,
             symbols := c.symbols ++ [(place.path, Wrapper.exportSymbol place f)] }

def Task.run (shared : Wrapper.Shared) (c : Module.Contents) : Task → Except Fault Module.Contents
  | wrap direction place f => do
    let source ← Wrapper.source shared place direction f
    pure (file direction place f source c)
  | skipType _ _ => pure c

/-- The log of the tasks done, and what they made or the first fault. -/
def runAll (shared : Wrapper.Shared) (c : Module.Contents) :
    List Task → List String × Except Fault Module.Contents
  | [] => ([], pure c)
  | task :: rest =>
    match task.run shared c with
    | .error fault => ([], throw fault)
    | .ok c =>
      let (log, result) := runAll shared c rest
      (task.report :: log, result)

def fileName (w : World) : String :=
  Name.declaration w.name ++ ".zig"

structure Output where
  name : String
  text : String
deriving DecidableEq, Inhabited

def files (r : Registry) (id : Nat) (o : Options) : List String × Except Fault (List Output) :=
  let prepared : Except Fault (World × List String × List Task) := do
    let w ← Registry.at? r.worlds id
    let reserved ← reserved r w o
    let tasks ← tasks r w
    pure (w, reserved, tasks)
  match prepared with
  | .error fault => ([], throw fault)
  | .ok (w, reserved, tasks) =>
    let (log, result) := runAll ⟨r.types, o, reserved⟩ {} tasks
    (log, do
      let contents ← result
      let text ← Module.assemble o w.name contents
      pure [⟨fileName w, String.ofList text⟩])

end ZigBindings.Generate
