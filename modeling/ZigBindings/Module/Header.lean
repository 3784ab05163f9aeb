import ZigBindings.Scope
import ZigBindings.Name.Escaped

/-!
Headers of entry points in a fragment: at the start of a line, after any white space, the words
`pub export fn`, a plain or quoted name, and an opening parenthesis.
-/

namespace ZigBindings.Module

def dropWord (word : List Char) (s : List Char) : Option (List Char) :=
  if word.isPrefixOf s then some (s.drop word.length) else none

/-- The rest of a quoted name up to its closing quote, and what follows. A backslash takes one
character with it, which is not a line break. -/
def quotedRest : List Char → Option (List Char × List Char)
  | [] => none
  | '\\' :: [] => none
  | '\\' :: c :: rest =>
    if c == '\n' then none else (quotedRest rest).map fun (name, rest) => ('\\' :: c :: name, rest)
  | c :: rest =>
    if c == '"' then some (['"'], rest)
    else (quotedRest rest).map fun (name, rest) => (c :: name, rest)

def declaredName : List Char → Option (List Char × List Char)
  | '@' :: '"' :: rest => (quotedRest rest).map fun (name, rest) => ('@' :: '"' :: name, rest)
  | c :: rest =>
    if Name.startsIdentifier c then
      some (c :: rest.takeWhile Text.isWord, rest.dropWhile Text.isWord)
    else none
  | [] => none

/-- The name declared by a header that the text starts with, and what follows the header. -/
def header? (s : List Char) : Option (List Char × List Char) := do
  let rest ← dropWord "pub export fn ".toList (Text.trimLeft s)
  let (name, rest) ← declaredName rest
  let rest ← dropWord ['('] rest
  pure (name, rest)

/-- Names declared by the headers of a text. The next `skip` characters belong to a header that was
read already; `atStart` says that a line starts here. -/
def declaredFrom : Nat → Bool → List Char → List (List Char)
  | _, _, [] => []
  | skip + 1, _, c :: rest => declaredFrom skip (c == '\n') rest
  | 0, atStart, c :: rest =>
    match if atStart then header? (c :: rest) else none with
    | some (name, after) =>
      name :: declaredFrom (rest.length - after.length) false rest
    | none => declaredFrom 0 (c == '\n') rest

def declared (s : List Char) : List (List Char) :=
  declaredFrom 0 true s

def declaredIn (scope : Scope) : List (List String × String) :=
  (scope.walk []).flatMap fun (path, fragments) =>
    (fragments.flatMap declared).map fun name => (path, String.ofList name)

end ZigBindings.Module
