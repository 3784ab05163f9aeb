import ZigBindings.Types
import ZigBindings.Text.Quoted

/-!
Everything that can go wrong between a world description and the module generated for it, and the
message that each fault has.
-/

namespace ZigBindings

inductive StackFault where
  | empty
  | tooFew (expected found : Nat)
  | noArgument (nth bound : Nat)
  | roll (depth found : Nat)
  | blockNotOpen
  | blockLeaves (expected found : Nat)
  | noBlock
  | noEnclosingBlock
  | noEnclosingLoop
  | blockResults (consumer : String) (expected found : Nat)
  | namedResults (expected found : Nat)
  | leftOpen (count : Nat)
  | neverConsumed (count : Nat)
  | leftOver (count : Nat)
deriving DecidableEq, Inhabited

def StackFault.message : StackFault → String
  | empty => "Operand stack is empty"
  | tooFew expected found => s!"Expected {expected} operands, found {found}"
  | noArgument nth bound => s!"Argument {nth} out of range ({bound} bound)"
  | roll depth found => s!"Cannot roll depth {depth} of {found} operands"
  | blockNotOpen => "Block end without a matching block begin"
  | blockLeaves expected found => s!"Block must leave {expected} operands, found {found}"
  | noBlock => "No block available"
  | noEnclosingBlock => "Instruction requires an enclosing block"
  | noEnclosingLoop => "Instruction requires an enclosing list loop"
  | blockResults consumer expected found =>
    s!"{consumer} expects blocks with {expected} result(s), got {found}"
  | namedResults expected found => s!"Expected {expected} results, found {found}"
  | leftOpen count => s!"{count} block(s) left open"
  | neverConsumed count => s!"{count} block(s) never consumed"
  | leftOver count => s!"{count} operand(s) left on the stack"

inductive GenerationFault where
  | unsupportedType (kind : String) (id : Nat)
  | unsupportedInstruction (tag : String)
  | missingResultConvention (function : String) (count : Nat)
  | stack (cause : StackFault)
  | unreachableExport (symbol : String)
deriving DecidableEq, Inhabited

def GenerationFault.message : GenerationFault → String
  | unsupportedType kind id => s!"Unsupported type: {kind} (type {id})"
  | unsupportedInstruction tag => s!"Unsupported instruction: {tag}"
  | missingResultConvention function count =>
    s!"No result convention for {count} results of `{function}`"
  | stack cause => cause.message
  | unreachableExport symbol => s!"Exported symbol not reachable: {symbol}"

structure Site where
  function : String
  direction : Direction
deriving DecidableEq, Inhabited

inductive FormatFault where
  | missingWorldName
  | invalidPackage (text : String)
  | interfaceTwice (name : String)
  | entryNotMapping (part entry : String)
  | unknownInterface (part name : String)
  | entryWithoutItem (part : String)
  | duplicateEntry (part name : String)
  | twoResultForms (function : String)
  | selfDefinition (name : String)
  | definitionShape (name : String)
  | bodyNotMapping (name kind : String)
  | bodyNotList (name kind : String)
  | unknownKind (name kind : String)
  | unknownType (name : String)
  | unknownTypeIn (head text : String)
  | invalidExpression (text : String)
  | expectedType (text : String)
  | trailingInput (text : String)
  | unterminatedArguments (text : String)
  | expectedComma (text : String)
  | topLevel (path : String)
deriving DecidableEq, Inhabited

def FormatFault.message : FormatFault → String
  | missingWorldName => "Missing world name (`world: <name>`)"
  | invalidPackage text => s!"Invalid package name: {Text.quoted text}"
  | interfaceTwice name => s!"Interface {Text.quoted name} declared twice"
  | entryNotMapping part entry => s!"{part}: expected a mapping, got {entry}"
  | unknownInterface part name => s!"{part}: unknown interface {Text.quoted name}"
  | entryWithoutItem part => s!"{part}: expected `function`, `interface` or `type`"
  | duplicateEntry part name => s!"{part}: duplicate entry {Text.quoted name}"
  | twoResultForms function =>
    s!"Function {Text.quoted function}: use either `result` or `results`"
  | selfDefinition name => s!"Type {Text.quoted name} is defined as itself"
  | definitionShape name =>
    s!"Type {Text.quoted name}: expected a type expression or one-key mapping"
  | bodyNotMapping name kind => s!"Type {Text.quoted name}: {kind} body must be a mapping"
  | bodyNotList name kind => s!"Type {Text.quoted name}: {kind} body must be a list"
  | unknownKind name kind => s!"Type {Text.quoted name}: unknown kind {kind}"
  | unknownType name => s!"Unknown type: {Text.quoted name}"
  | unknownTypeIn head text => s!"Unknown type {Text.quoted head} in {Text.quoted text}"
  | invalidExpression text => s!"Invalid type expression: {Text.quoted text}"
  | expectedType text => s!"Expected a type in {Text.quoted text}"
  | trailingInput text => s!"Trailing input in type {Text.quoted text}"
  | unterminatedArguments text => s!"Unterminated type arguments in {Text.quoted text}"
  | expectedComma text => s!"Expected `,` or `>` in {Text.quoted text}"
  | topLevel path => s!"{path}: expected a mapping at the top level"

inductive ValueFault where
  | noPayload (id : Nat)
  | unpackagedInterface (id : Nat)
  | notNumeric (primitive : String)
  | unknownOptions (names : List String)
  | indent (found : String)
  | optionsShape (path : String)
  | emptyNumber (base : Nat)
deriving DecidableEq, Inhabited

def ValueFault.message : ValueFault → String
  | noPayload id => s!"Type {id} has no payload"
  | unpackagedInterface id => s!"Interface {id} is not part of a package"
  | notNumeric primitive => s!"{primitive} is not numeric"
  | unknownOptions names =>
    let listed := ", ".intercalate names
    s!"Unknown option(s): {listed}"
  | indent found => s!"indent must be a positive integer, got {found}"
  | optionsShape path => s!"{path}: expected a mapping of options"
  | emptyNumber base => s!"invalid literal for int() with base {base}: \x27\x27"

inductive FileFault where
  | missing (path : String)
  | directory (path : String)
  | notDirectory (path : String)
deriving DecidableEq, Inhabited

def FileFault.message : FileFault → String
  | missing path => s!"[Errno 2] No such file or directory: {Text.quoted path}"
  | directory path => s!"[Errno 21] Is a directory: {Text.quoted path}"
  | notDirectory path => s!"[Errno 20] Not a directory: {Text.quoted path}"

/-- `notMapping` and `wrongShape` are documents that have another shape than the one walked over;
`dangling` is an id outside its arena, and `endless` a type that contains itself by value.
`malformed` is a file that is no document, and `occupied` a file in the place of a directory. -/
inductive Fault where
  | generation (cause : GenerationFault) (site : Option Site)
  | format (cause : FormatFault)
  | value (cause : ValueFault)
  | noWorld (name : String)
  | file (cause : FileFault)
  | malformed
  | occupied
  | notMapping
  | wrongShape
  | dangling
  | endless
  | zeroDivision
  | quotientRange
deriving DecidableEq, Inhabited

namespace Fault

def unsupportedType (kind : Kind) (id : Nat) : Fault :=
  generation (.unsupportedType kind.label id) none

def unsupportedInstruction (tag : String) : Fault :=
  generation (.unsupportedInstruction tag) none

def stack (cause : StackFault) : Fault :=
  generation (.stack cause) none

/-- The first site given to a fault stays. -/
def locate (site : Site) : Fault → Fault
  | generation cause none => generation cause (some site)
  | fault => fault

/-- Faults of the document walk and of arithmetic have no message of their own. -/
def message? : Fault → Option String
  | generation cause none => some cause.message
  | generation cause (some site) =>
    some s!"{cause.message} (in {site.direction.name} of `{site.function}`)"
  | format cause => some cause.message
  | value cause => some cause.message
  | file cause => some cause.message
  | malformed => some "<YAMLError>"
  | noWorld name => some (Text.quoted s!"No world named {Text.quoted name}")
  | _ => none

end Fault

end ZigBindings
