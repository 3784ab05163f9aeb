import ZigBindings.Name.Reserved
import ZigBindings.Name.Declaration

/-!
Identifiers: a plain name that is not reserved stands as it is, and any other text is quoted as
`@"..."` with its quotes and backslashes escaped.
-/

namespace ZigBindings.Name

def startsIdentifier (c : Char) : Bool := isCapital c || isSmall c || c == '_'

def continuesIdentifier (c : Char) : Bool := startsIdentifier c || isAsciiDigit c

def isIdentifier : List Char → Bool
  | [] => false
  | c :: rest => startsIdentifier c && rest.all continuesIdentifier

/-- One line break after the identifier does not count. -/
def isPlain (name : List Char) : Bool :=
  isIdentifier (Text.dropFinalBreak name)

def escape : List Char → List Char
  | [] => []
  | c :: rest => if c == '\\' || c == '"' then '\\' :: c :: escape rest else c :: escape rest

def escapedChars (raw : List Char) : List Char :=
  if isPlain raw && !isReserved raw then raw else '@' :: '"' :: escape raw ++ ['"']

def escaped (raw : String) : String :=
  String.ofList (escapedChars raw.toList)

def identifier (raw : String) : String :=
  escaped (declaration raw)

end ZigBindings.Name
