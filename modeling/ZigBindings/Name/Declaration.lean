import ZigBindings.Text.Blank
import ZigBindings.Text.Lowercase

/-!
Declaration names: the words of a name in small letters, joined by underscores. Words end at
separators, before a capital that follows a small letter or a digit, and before the last capital of
an acronym that a small letter follows.
-/

namespace ZigBindings.Name

def isCapital (c : Char) : Bool := 'A' ≤ c && c ≤ 'Z'

def isSmall (c : Char) : Bool := 'a' ≤ c && c ≤ 'z'

def isAsciiDigit (c : Char) : Bool := '0' ≤ c && c ≤ '9'

def isSeparator (c : Char) : Bool :=
  c == '-' || c == '_' || c == '.' || c == ':' || c == '/' || Text.isBlank c

/-- `HTTPServer` becomes `HTTP_Server`. -/
def breakAcronyms : List Char → List Char
  | a :: b :: c :: rest =>
    if isCapital a && isCapital b && isSmall c then a :: '_' :: breakAcronyms (b :: c :: rest)
    else a :: breakAcronyms (b :: c :: rest)
  | s => s

/-- `getValue` becomes `get_Value`. -/
def breakHumps : List Char → List Char
  | a :: b :: rest =>
    if (isSmall a || isAsciiDigit a) && isCapital b then a :: '_' :: breakHumps (b :: rest)
    else a :: breakHumps (b :: rest)
  | s => s

/-- The pieces between separators, empty ones included; there is always a first piece. -/
def pieces : List Char → List Char × List (List Char)
  | [] => ([], [])
  | c :: rest =>
    let (first, others) := pieces rest
    if isSeparator c then ([], first :: others) else (c :: first, others)

def words (s : List Char) : List (List Char) :=
  let (first, others) := pieces (breakHumps (breakAcronyms s))
  (first :: others).filter (!·.isEmpty)

def joinWords (words : List (List Char)) : List Char :=
  List.intercalate ['_'] words

def declarationChars (raw : List Char) : List Char :=
  joinWords ((words raw).map Text.lower)

def declaration (raw : String) : String :=
  String.ofList (declarationChars raw.toList)

end ZigBindings.Name
