import ZigBindings.Fault
import ZigBindings.Name.Escaped

/-!
Type expressions: names, and names applied to arguments in angle brackets, of which `_` stands for
no type. Reading one appends the types it makes to the arena, inner ones first.
-/

namespace ZigBindings.TypeExpr

inductive Token where
  | name (text : String)
  | opening
  | closing
  | comma
deriving DecidableEq, Inhabited

def continuesName (c : Char) : Bool :=
  Name.continuesIdentifier c || c == '-'

def flush (pending : List Char) (tokens : List Token) : List Token :=
  if pending.isEmpty then tokens else .name (String.ofList pending.reverse) :: tokens

/-- Tokens of a text of which the characters of a name in `pending` were read. -/
def lexAfter (pending : List Char) : List Char → Option (List Token)
  | [] => some (flush pending [])
  | c :: rest =>
    if !pending.isEmpty && continuesName c then lexAfter (c :: pending) rest
    else if Name.startsIdentifier c then (lexAfter [c] rest).map (flush pending)
    else if c == '<' then (lexAfter [] rest).map fun tokens => flush pending (.opening :: tokens)
    else if c == '>' then (lexAfter [] rest).map fun tokens => flush pending (.closing :: tokens)
    else if c == ',' then (lexAfter [] rest).map fun tokens => flush pending (.comma :: tokens)
    else if Text.isBlank c then (lexAfter [] rest).map (flush pending)
    else none

abbrev Declared := List (String × Nat)

def append (kind : Kind) (types : Arena) : Ty × Arena :=
  (.ref types.size, types.push ⟨kind, none⟩)

/-- The type that a name makes of its arguments. The generic forms win over the primitives, and
these over declared types. -/
def apply (declared : Declared) (text head : String) (args : List (Option Ty)) (types : Arena) :
    Except Fault (Ty × Arena) :=
  let plain : Except Fault (Ty × Arena) :=
    match args, Primitive.ofName? head, declared.lookup head with
    | [], some p, _ => pure (.prim p, types)
    | [], none, some id => pure (.ref id, types)
    | _, _, _ => throw (.format (.unknownTypeIn head text))
  match head, args with
  | "tuple", args =>
    if args.all Option.isSome then pure (append (.tuple (args.filterMap fun arg => arg)) types)
    else plain
  | "list", [some element] => pure (append (.list element) types)
  | "option", [some payload] => pure (append (.option payload) types)
  | "result", [] => pure (append (.result none none) types)
  | "result", [ok] => pure (append (.result ok none) types)
  | "result", [ok, err] => pure (append (.result ok err) types)
  | _, _ => plain

abbrev Reading (α : Type) := α × Arena × List Token

mutual
/-- One type. The bound on the depth counts both mutual steps. -/
def readType (declared : Declared) (text : String) : Nat → Arena → List Token →
    Except Fault (Reading Ty)
  | depth + 1, types, .name head :: .opening :: rest => do
    let (args, types, rest) ← readArgs declared text depth types rest
    let (ty, types) ← apply declared text head args types
    pure (ty, types, rest)
  | _ + 1, types, .name head :: rest => do
    let (ty, types) ← apply declared text head [] types
    pure (ty, types, rest)
  | _, _, _ => throw (.format (.expectedType text))

def readArgs (declared : Declared) (text : String) :
    Nat → Arena → List Token → Except Fault (Reading (List (Option Ty)))
  | 0, _, _ => throw (.format (.expectedType text))
  | depth + 1, types, tokens => do
    let (arg, types, rest) ← readArg declared text depth types tokens
    match rest with
    | [] => throw (.format (.unterminatedArguments text))
    | .closing :: rest => pure ([arg], types, rest)
    | .comma :: rest =>
      let (args, types, rest) ← readArgs declared text depth types rest
      pure (arg :: args, types, rest)
    | _ => throw (.format (.expectedComma text))

def readArg (declared : Declared) (text : String) :
    Nat → Arena → List Token → Except Fault (Reading (Option Ty))
  | _, types, .name "_" :: rest => pure (none, types, rest)
  | 0, _, _ => throw (.format (.expectedType text))
  | depth + 1, types, tokens => do
    let (ty, types, rest) ← readType declared text depth types tokens
    pure (some ty, types, rest)
end

/-- The type of a whole text. Every three steps of the reader take at least one token. -/
def read (declared : Declared) (text : String) (types : Arena) : Except Fault (Ty × Arena) := do
  let trimmed := Text.trim text.toList
  match lexAfter [] trimmed with
  | none => throw (.format (.invalidExpression (String.ofList trimmed)))
  | some tokens =>
    let (ty, types, rest) ← readType declared text (3 * tokens.length + 3) types tokens
    if rest.isEmpty then pure (ty, types) else throw (.format (.trailingInput text))

end ZigBindings.TypeExpr
