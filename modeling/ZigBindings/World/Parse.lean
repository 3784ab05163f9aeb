import ZigBindings.Document
import ZigBindings.World.Registry
import ZigBindings.World.TypeExpr

/-!
World descriptions: a document that names a world, the types and interfaces it uses, and its
imports and exports, is read into a registry.
-/

namespace ZigBindings.World

structure Draft where
  registry : Registry := {}
  declared : TypeExpr.Declared := []
  interfaces : List (String × Nat) := []
deriving Inhabited

abbrev Entries := List (Scalar × Document)

/-- The entries of a mapping; an absent or empty value of any kind has none. -/
def entriesOf (d : Option Document) : Except Fault Entries :=
  match d with
  | none => pure []
  | some (.mapping entries) => pure entries
  | some d => if d.isEmpty then pure [] else throw .notMapping

/-- The first entry of a name keeps its place and the last one gives the value. -/
def put {α : Type} (name : String) (value : α) : List (String × α) → List (String × α)
  | [] => [(name, value)]
  | (other, old) :: rest =>
    if other = name then (other, value) :: rest else (other, old) :: put name value rest

/-! ### Packages -/

def isLabelChar (c : Char) : Bool :=
  Name.isSmall c || Name.isAsciiDigit c || c == '-'

def label : List Char → Option (List Char × List Char)
  | c :: rest =>
    if Name.isSmall c then some (c :: rest.takeWhile isLabelChar, rest.dropWhile isLabelChar)
    else none
  | [] => none

def isVersionChar (c : Char) : Bool :=
  Name.isCapital c || Name.isSmall c || Name.isAsciiDigit c || c == '.' || c == '+' || c == '-'

/-- A version up to the end of the text, or the end itself. -/
def versionEnd : List Char → Option (Option String)
  | [] => some none
  | '@' :: rest =>
    if rest.isEmpty || !rest.all isVersionChar then none else some (some (String.ofList rest))
  | _ => none

def expect (c : Char) : List Char → Option (List Char)
  | d :: rest => if c == d then some rest else none
  | [] => none

/-- A package name, `space:name` with an optional version. -/
def package? (text : String) : Option Package := do
  let (space, rest) ← label (Text.dropFinalBreak text.toList)
  let rest ← expect ':' rest
  let (name, rest) ← label rest
  let version ← versionEnd rest
  pure ⟨String.ofList space, String.ofList name, version⟩

/-- An interface name inside a package, `space:name/interface` with an optional version. -/
def qualified? (text : String) : Option (Package × String) := do
  let (space, rest) ← label (Text.dropFinalBreak text.toList)
  let rest ← expect ':' rest
  let (name, rest) ← label rest
  let rest ← expect '/' rest
  let (interface, rest) ← label rest
  let version ← versionEnd rest
  pure (⟨String.ofList space, String.ofList name, version⟩, String.ofList interface)

def Draft.package (d : Draft) (p : Package) : Nat × Draft :=
  match d.registry.packages.findIdx? (· == p) with
  | some id => (id, d)
  | none =>
    let (id, registry) := d.registry.addPackage p
    (id, { d with registry })

/-! ### Types -/

def Draft.typeExpr (d : Draft) (text : String) : Except Fault (Ty × Draft) := do
  let (ty, types) ← TypeExpr.read d.declared text d.registry.types
  pure (ty, { d with registry := { d.registry with types } })

def Draft.typed (d : Draft) : Entries → Except Fault (List (String × Ty) × Draft)
  | [] => pure ([], d)
  | (name, body) :: rest => do
    let (ty, d) ← d.typeExpr body.display
    let (others, d) ← d.typed rest
    pure ((name.display, ty) :: others, d)

/-- Cases of a variant; one without a type has no payload. -/
def Draft.cases (d : Draft) : Entries → Except Fault (List (String × Option Ty) × Draft)
  | [] => pure ([], d)
  | (name, body) :: rest => do
    if body.isNull then
      let (others, d) ← d.cases rest
      pure ((name.display, none) :: others, d)
    else
      let (ty, d) ← d.typeExpr body.display
      let (others, d) ← d.cases rest
      pure ((name.display, some ty) :: others, d)

/-- A type defined by an expression: a copy of what the expression makes, or an alias of what it
names. -/
def Draft.synonym (d : Draft) (name : String) (id : Nat) (text : String) :
    Except Fault (Kind × Draft) := do
  let (target, d) ← d.typeExpr text
  if target = .ref id then throw (.format (.selfDefinition name))
  match target with
  | .prim _ => pure (.alias target, d)
  | .ref made =>
    let definition ← d.registry.types.typedef made
    if definition.name.isNone then pure (definition.kind, d) else pure (.alias target, d)

def Draft.definition (d : Draft) (name : String) (id : Nat) (body : Document) :
    Except Fault (Kind × Draft) := do
  match body with
  | .scalar (.text text) => d.synonym name id text
  | .mapping [(kind, value)] =>
    match kind, value with
    | .text "record", .mapping entries =>
      let (fields, d) ← d.typed entries
      pure (.record fields, d)
    | .text "variant", .mapping entries =>
      let (cases, d) ← d.cases entries
      pure (.variant cases, d)
    | .text "enum", .list items => pure (.enumeration (items.map (·.display)), d)
    | .text "flags", .list items => pure (.flags (items.map (·.display)), d)
    | .text "resource", _ => pure (.resource, d)
    | .text "record", _ => throw (.format (.bodyNotMapping name "record"))
    | .text "variant", _ => throw (.format (.bodyNotMapping name "variant"))
    | .text "enum", _ => throw (.format (.bodyNotList name "enum"))
    | .text "flags", _ => throw (.format (.bodyNotList name "flags"))
    | kind, _ => throw (.format (.unknownKind name kind.shown))
  | _ => throw (.format (.definitionShape name))

def Draft.declare (d : Draft) (name : String) : Draft :=
  let (id, registry) := d.registry.addType ⟨.resource, some name⟩
  { d with registry, declared := put name id d.declared }

def Draft.define (d : Draft) (name : String) (body : Document) : Except Fault Draft := do
  let id := (d.declared.lookup name).getD 0
  let (kind, d) ← d.definition name id body
  let types := d.registry.types.setIfInBounds id ⟨kind, some name⟩
  pure { d with registry := { d.registry with types } }

/-- All names are declared first, so that definitions may refer to each other. -/
def Draft.types (d : Draft) (types : Option Document) : Except Fault Draft := do
  match types with
  | some (.mapping entries) =>
    let d := (entries.map fun e => e.1.display).foldl Draft.declare d
    entries.foldlM (fun d (name, body) => d.define name.display body) d
  | some (.scalar (.text text)) => if text.isEmpty then pure d else throw .notMapping
  | some (.list items) => if items.isEmpty then pure d else throw .notMapping
  | some other => if other.isEmpty then pure d else throw .wrongShape
  | none => pure d

/-! ### Functions and interfaces -/

def Draft.results (d : Draft) (name : String) (body : Entries) :
    Except Fault (Results × Draft) := do
  let single := Document.find? body "result"
  let several := Document.find? body "results"
  if single.isSome && several.isSome then throw (.format (.twoResultForms name))
  match single with
  | some result =>
    if result.isNull then pure ({}, d)
    else
      let (ty, d) ← d.typeExpr result.display
      pure ({ anon := some ty }, d)
  | none =>
    let (named, d) ← d.typed (← entriesOf several)
    pure ({ named }, d)

def Draft.function (d : Draft) (name : String) (body : Entries) :
    Except Fault (Function × Draft) := do
  let (params, d) ← d.typed (← entriesOf (Document.find? body "params"))
  let (results, d) ← d.results name body
  pure ({ name, params, results }, d)

def Draft.functions (d : Draft) (done : List (String × Function)) :
    Entries → Except Fault (List (String × Function) × Draft)
  | [] => pure (done, d)
  | (name, body) :: rest => do
    let (f, d) ← d.function name.display (← entriesOf (some body))
    d.functions (put name.display f done) rest

def Draft.interface (d : Draft) (name : String) (body : Document) : Except Fault Draft := do
  if (d.interfaces.lookup name).isSome then throw (.format (.interfaceTwice name))
  let (entry, d) := match qualified? name with
    | some (package, short) =>
      let (id, d) := d.package package
      ((⟨some short, some id, []⟩ : Interface), d)
    | none => (⟨some name, none, []⟩, d)
  let body ← entriesOf (some body)
  let functions ← entriesOf (Document.find? body "functions")
  let (functions, d) ← d.functions [] functions
  let (id, registry) := d.registry.addInterface { entry with functions }
  pure { d with registry, interfaces := d.interfaces ++ [(name, id)] }

/-! ### Imports and exports -/

/-- The entries of a list of items. A mapping or a text is walked by its keys or characters. -/
def itemsOf (d : Option Document) : Except Fault (List Document) :=
  match d with
  | none => pure []
  | some (.list items) => pure items
  | some (.mapping entries) => pure (entries.map fun e => .scalar e.1)
  | some (.scalar (.text text)) => pure (text.toList.map fun c => .text (String.singleton c))
  | some (.scalar s) => if s.isEmpty then pure [] else throw .wrongShape

def Draft.item (d : Draft) (part : String) (entry : Document) :
    Except Fault (String × Key × Item × Draft) := do
  match entry with
  | .mapping body =>
    match Document.find? body "function", Document.find? body "interface",
        Document.find? body "type" with
    | some name, _, _ =>
      let (f, d) ← d.function name.display body
      pure (name.display, .name name.display, .function f, d)
    | none, some name, _ =>
      match d.interfaces.lookup name.display with
      | none => throw (.format (.unknownInterface part name.display))
      | some id =>
        let interface ← Registry.at? d.registry.interfaces id
        let key := if interface.package.isNone then Key.name name.display else .interface id
        pure (name.display, key, .interface id, d)
    | none, none, some name =>
      match d.declared.lookup name.display with
      | none => throw (.format (.unknownType name.display))
      | some id => pure (name.display, .name name.display, .type id, d)
    | none, none, none => throw (.format (.entryWithoutItem part))
  | other => throw (.format (.entryNotMapping part other.shown))

def Draft.items (d : Draft) (part : String) (done : List (Key × Item)) :
    List Document → Except Fault (List (Key × Item) × Draft)
  | [] => pure (done, d)
  | entry :: rest => do
    let (name, key, item, d) ← d.item part entry
    if (done.lookup key).isSome then throw (.format (.duplicateEntry part name))
    d.items part (done ++ [(key, item)]) rest

/-! ### Worlds -/

def Draft.worldPackage (d : Draft) (package : Option Document) :
    Except Fault (Option Nat × Draft) := do
  match package with
  | none => pure (none, d)
  | some text =>
    match package? text.display with
    | none => throw (.format (.invalidPackage text.display))
    | some p =>
      let (id, d) := d.package p
      pure (some id, d)

/-- The registry of everything a description holds, and the number of its world. -/
def parse (description : Entries) : Except Fault (Registry × Nat) := do
  match (Document.find? description "world").bind Document.text? with
  | none => throw (.format .missingWorldName)
  | some name =>
    let (package, d) ← ({} : Draft).worldPackage (Document.find? description "package")
    let d ← d.types (Document.find? description "types")
    let interfaces ← entriesOf (Document.find? description "interfaces")
    let d ← interfaces.foldlM (fun d (name, body) => d.interface name.display body) d
    let imports ← itemsOf (Document.find? description "imports")
    let (imports, d) ← d.items "imports" [] imports
    let exports ← itemsOf (Document.find? description "exports")
    let (exports, d) ← d.items "exports" [] exports
    let (id, registry) := d.registry.addWorld ⟨name, package, imports, exports⟩
    pure (registry, id)

/-- Only a mapping describes a world, and no value stands for an empty one. -/
def parseDocument : Document → Except Fault (Registry × Nat)
  | .mapping entries => parse entries
  | _ => throw .notMapping

end ZigBindings.World
