import ZigBindings.Text.Blank

/-!
Writing source text line by line at an indentation in spaces. An indentation below zero writes no
spaces.
-/

namespace ZigBindings.Zig

/-- The pieces between line breaks; there is always a first one. -/
def splitLines : List Char → List Char × List (List Char)
  | [] => ([], [])
  | c :: rest =>
    let (first, others) := splitLines rest
    if c == '\n' then ([], first :: others) else (c :: first, others)

def trimBreaks (s : List Char) : List Char :=
  ((s.dropWhile (· == '\n')).reverse.dropWhile (· == '\n')).reverse

def isBlankText (s : List Char) : Bool :=
  s.all Text.isBlank

def line (indent : Int) (code : List Char) : List Char :=
  List.replicate indent.toNat ' ' ++ code ++ ['\n']

/-- Blank lines inside a text are written empty. -/
def textLine (indent : Int) (code : List Char) : List Char :=
  if isBlankText code then ['\n'] else line indent code

/-- Several lines, each at the indentation; line breaks around the text do not count. -/
def text (indent : Int) (code : List Char) : List Char :=
  let (first, others) := splitLines (trimBreaks code)
  (first :: others).flatMap (textLine indent)

/-- The indentation some levels deeper; a negative number of levels goes back. -/
def deeper (width indent levels : Int) : Int :=
  indent + levels * width

def comment (indent : Int) (code : List Char) : List Char :=
  line indent ("// ".toList ++ code)

end ZigBindings.Zig
