import ZigBindings.Document
import ZigBindings.Fault

/-!
Options of the generator. Values are kept as the document gives them; only the indentation is
checked, and it may be a truth value that counts as a number.
-/

namespace ZigBindings

structure Options where
  indent : Document := .int 4
  exportsType : Document := .text "Exports"
  implParam : Document := .text "Impl"
  header : Document := .bool true
deriving Inhabited

namespace Options

def names : List String :=
  ["indent", "exports_type", "impl_param", "header"]

def integer? : Document → Option Int
  | .scalar (.int n) => some n
  | .scalar (.bool b) => some (if b then 1 else 0)
  | _ => none

def width (o : Options) : Int :=
  (integer? o.indent).getD 4

/-- The keys a document would set options by. A text stands for its characters. -/
def keys : Document → Except Fault (List Scalar)
  | .mapping entries => pure (entries.map (·.1))
  | .list items => items.mapM fun
    | .scalar key => pure key
    | _ => throw .wrongShape
  | .scalar (.text s) => pure (s.toList.map fun c => .text (String.singleton c))
  | .scalar _ => throw .wrongShape

def textOf : Scalar → Except Fault String
  | .text s => pure s
  | _ => throw .wrongShape

/-- Every key is a known name; unknown ones are reported together, in order. -/
def checkNames (found : List Scalar) : Except Fault Unit := do
  let unknown := found.filter fun key => !(names.map Scalar.text).contains key
  if unknown.isEmpty then return
  let texts ← unknown.mapM textOf
  throw (.value (.unknownOptions (texts.eraseDups.mergeSort fun a b => a ≤ b)))

def ofEntries (entries : List (Scalar × Document)) : Options :=
  let defaults : Options := {}
  { indent := (Document.find? entries "indent").getD defaults.indent
    exportsType := (Document.find? entries "exports_type").getD defaults.exportsType
    implParam := (Document.find? entries "impl_param").getD defaults.implParam
    header := (Document.find? entries "header").getD defaults.header }

def checkIndent (o : Options) : Except Fault Options :=
  match integer? o.indent with
  | some n => if n < 1 then throw (.value (.indent o.indent.shown)) else pure o
  | none => throw (.value (.indent o.indent.shown))

def ofDocument (data : Document) : Except Fault Options := do
  if data.isEmpty then return {}
  checkNames (← keys data)
  match data with
  | .mapping entries => checkIndent (ofEntries entries)
  | _ => throw .wrongShape

/-- A document read from a file is a mapping or missing. -/
def ofFile (path : String) (data : Document) : Except Fault Options :=
  match data with
  | .mapping _ | .scalar .null => ofDocument data
  | _ => throw (.value (.optionsShape path))

end Options

end ZigBindings
