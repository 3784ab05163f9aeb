import ZigBindings.Fault

/-!
Places in a YAML text, and reading what stands on one line or is folded over several: blanks,
comments, plain scalars and quoted scalars.
-/

namespace ZigBindings.Yaml

/-- The rest of a text, and the line and column it begins at. -/
structure Cursor where
  rest : List Char
  line : Nat
  column : Nat
deriving Inhabited

def isGap : List Char → Bool
  | [] => true
  | c :: _ => c == ' ' || c == '\t' || c == '\n'

namespace Cursor

def ofText (text : List Char) : Cursor := ⟨text, 0, 0⟩

def skip (c : Cursor) (n : Nat) : Cursor :=
  ⟨c.rest.drop n, c.line, c.column + n⟩

def skipBlanksFrom (inComment : Bool) (line column : Nat) : List Char → Cursor
  | [] => ⟨[], line, column⟩
  | c :: rest =>
    if c == '\n' then skipBlanksFrom false (line + 1) 0 rest
    else if inComment || c == '#' then skipBlanksFrom true line (column + 1) rest
    else if c == ' ' then skipBlanksFrom false line (column + 1) rest
    else ⟨c :: rest, line, column⟩

def skipBlanks (c : Cursor) : Cursor :=
  skipBlanksFrom false c.line c.column c.rest

def startsWith (c : Cursor) (mark : Char) : Bool :=
  c.rest.head? == some mark

/-- A line that begins with three marks and a gap begins or ends a document. -/
def isFence (c : Cursor) (mark : Char) : Bool :=
  c.column == 0 && c.rest.take 3 == [mark, mark, mark] && isGap (c.rest.drop 3)

def atEnd (c : Cursor) : Bool :=
  c.rest.isEmpty || c.isFence '-' || c.isFence '.'

def startsEntry (c : Cursor) : Bool :=
  c.startsWith '-' && isGap (c.rest.drop 1)

def startsValue (c : Cursor) : Bool :=
  c.startsWith ':' && isGap (c.rest.drop 1)

end Cursor

/-! ### Plain scalars -/

def indicators : List Char :=
  ['-', '?', ':', ',', '[', ']', '\x7b', '\x7d', '#', '&', '*', '!', '|', '>', '\x27', '"', '%',
   '@', '\x60']

def flowMarks : List Char := [',', '?', '[', ']', '\x7b', '\x7d']

def startsPlain (flow : Bool) (s : List Char) : Bool :=
  match s with
  | [] => false
  | c :: rest =>
    (!isGap s && !indicators.contains c) ||
      (!isGap rest && (c == '-' || (!flow && (c == '?' || c == ':'))))

def endsPlain (flow : Bool) (s : List Char) : Bool :=
  isGap s ||
    match s with
    | [] => true
    | ':' :: rest =>
      isGap rest || (flow && [',', '[', ']', '\x7b', '\x7d'].contains (rest.headD ' '))
    | c :: _ => flow && flowMarks.contains c

def plainWord (flow : Bool) : List Char → List Char
  | [] => []
  | c :: rest => if endsPlain flow (c :: rest) then [] else c :: plainWord flow rest

def skipSpaces : Nat → Cursor → Cursor
  | 0, c => c
  | fuel + 1, c =>
    if c.isFence '-' || c.isFence '.' then c
    else match c.rest with
      | ' ' :: rest => skipSpaces fuel ⟨rest, c.line, c.column + 1⟩
      | '\n' :: rest => skipSpaces fuel ⟨rest, c.line + 1, 0⟩
      | _ => c

/-- What a gap over some line breaks is folded to: one break is a space, and more of them stand for
one break less. -/
def foldBreaks (breaks : Nat) : List Char :=
  if breaks ≤ 1 then [' '] else List.replicate (breaks - 1) '\n'

/-- Words of a plain scalar with the gaps between them. Lines it goes on in are indented beyond
`indent`, except inside brackets. -/
def plainText (flow : Bool) (indent : Int) : Nat → Cursor → List Char × Cursor
  | 0, c => ([], c)
  | fuel + 1, c =>
    let word := plainWord flow c.rest
    let c := c.skip word.length
    let next := skipSpaces (c.rest.length + 1) c
    let gap := if next.line = c.line then List.replicate (next.column - c.column) ' '
      else foldBreaks (next.line - c.line)
    if gap.isEmpty || next.startsWith '#' || next.atEnd || (!flow && (next.column : Int) ≤ indent) ||
        endsPlain flow next.rest then
      (word, next)
    else
      let (more, stop) := plainText flow indent fuel next
      (word ++ gap ++ more, stop)

/-! ### Quoted scalars -/

def isWhite (c : Char) : Bool := c == ' ' || c == '\t'

def hexValue (digits : List Char) : Option Nat :=
  digits.foldl (fun n c =>
    n.bind fun n =>
      if c.isDigit then some (16 * n + (c.toNat - 48))
      else if 'a' ≤ c && c ≤ 'f' then some (16 * n + (c.toNat - 87))
      else if 'A' ≤ c && c ≤ 'F' then some (16 * n + (c.toNat - 55))
      else none) (some 0)

def hexChar (width : Nat) (s : List Char) : Option Char := do
  let digits := s.take width
  if digits.length < width then none
  else
    let n ← hexValue digits
    if h : n.isValidChar then some (Char.ofNatAux n h) else none

def shortEscapes : List (Char × Char) :=
  [('0', '\x00'), ('a', '\x07'), ('b', '\x08'), ('t', '\x09'), ('\t', '\x09'), ('n', '\n'),
   ('v', '\x0b'), ('f', '\x0c'), ('r', '\r'), ('e', '\x1b'), (' ', ' '), ('"', '"'), ('\\', '\\'),
   ('/', '/'), ('N', '\u0085'), ('_', '\u00a0'), ('L', '\u2028'), ('P', '\u2029')]

def hexWidths : List (Char × Nat) := [('x', 2), ('u', 4), ('U', 8)]

/-- The text of a quoted scalar from behind its opening quote on, and the place behind the closing
one. Inside single quotes a quote is written twice; inside double quotes a backslash escapes. -/
def quotedText (quote : Char) : Nat → Cursor → Except Fault (List Char × Cursor)
  | 0, _ => throw .malformed
  | fuel + 1, c => do
    let continueWith := fun (text : List Char) (c : Cursor) => do
      let (more, stop) ← quotedText quote fuel c
      pure (text ++ more, stop)
    match c.rest with
    | [] => throw .malformed
    | ch :: rest =>
      if ch == quote then
        if quote == '\x27' && rest.head? == some quote then continueWith [quote] (c.skip 2)
        else pure ([], c.skip 1)
      else if ch == '\\' && quote == '"' then
        match rest with
        | [] => throw .malformed
        | '\n' :: _ =>
          let next := skipSpaces (rest.length + 1) (c.skip 1)
          continueWith (List.replicate (next.line - c.line - 1) '\n') next
        | letter :: rest =>
          match shortEscapes.lookup letter, hexWidths.lookup letter with
          | some meant, _ => continueWith [meant] (c.skip 2)
          | none, some width =>
            match hexChar width rest with
            | some meant => continueWith [meant] (c.skip (2 + width))
            | none => throw .malformed
          | none, none => throw .malformed
      else if isWhite ch || ch == '\n' then
        let white := c.rest.takeWhile isWhite
        let after := c.skip white.length
        if after.startsWith '\n' then
          let lines := after.rest.takeWhile fun x => isWhite x || x == '\n'
          let breaks := (lines.filter (· == '\n')).length
          let column := (lines.reverse.takeWhile isWhite).length
          let next : Cursor := ⟨after.rest.drop lines.length, after.line + breaks, column⟩
          continueWith (foldBreaks breaks) next
        else continueWith white after
      else continueWith [ch] (c.skip 1)

end ZigBindings.Yaml
