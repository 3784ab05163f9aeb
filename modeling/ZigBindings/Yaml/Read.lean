import ZigBindings.Yaml.Cursor
import ZigBindings.Yaml.Node

/-!
Reading a YAML text: mappings and sequences by indentation or in brackets, down to scalars. The
text holds at most one document. This is a part of the language: no anchors, tags, merges, dates
or block scalars.
-/

namespace ZigBindings.Yaml

def emptyNode : Node := .plain []

/-! ### Brackets -/

mutual
def flowNode : Nat → Cursor → Except Fault (Node × Cursor)
  | 0, _ => throw .malformed
  | fuel + 1, c =>
    if c.startsWith '[' then do
      let (items, c) ← flowItems fuel true (c.skip 1)
      pure (.sequence items, c)
    else if c.startsWith '\x7b' then do
      let (entries, c) ← flowEntries fuel true (c.skip 1)
      pure (.mapping entries, c)
    else if c.startsWith '"' || c.startsWith '\x27' then do
      let (text, c) ← quotedText (c.rest.headD '"') c.rest.length (c.skip 1)
      pure (.quoted text, c)
    else if startsPlain true c.rest then
      let (text, c) := plainText true 0 c.rest.length c
      pure (.plain text, c)
    else throw .malformed

def flowPair : Nat → Cursor → Except Fault (Node × Option Node × Cursor)
  | 0, _ => throw .malformed
  | fuel + 1, c => do
    let (node, after) ← flowNode fuel c
    let next := after.skipBlanks
    if next.startsWith ':' && next.line == c.line then
      let value := (next.skip 1).skipBlanks
      if value.startsWith ',' || value.startsWith ']' || value.startsWith '\x7d' then
        pure (node, some emptyNode, value)
      else
        let (value, after) ← flowNode fuel value
        pure (node, some value, after.skipBlanks)
    else pure (node, none, next)

/-- Items up to the closing bracket; a pair stands for a mapping of its own. A comma may stand
behind the last item. -/
def flowItems : Nat → Bool → Cursor → Except Fault (List Node × Cursor)
  | 0, _, _ => throw .malformed
  | fuel + 1, isFirst, c => do
    let c := c.skipBlanks
    if c.startsWith ']' then return ([], c.skip 1)
    if !isFirst && !c.startsWith ',' then throw .malformed
    let c := if isFirst then c else (c.skip 1).skipBlanks
    if c.startsWith ']' then return ([], c.skip 1)
    let (node, value, c) ← flowPair fuel c
    let item := match value with
      | some value => Node.mapping [(node, value)]
      | none => node
    let (items, c) ← flowItems fuel false c
    pure (item :: items, c)

def flowEntries : Nat → Bool → Cursor → Except Fault (List (Node × Node) × Cursor)
  | 0, _, _ => throw .malformed
  | fuel + 1, isFirst, c => do
    let c := c.skipBlanks
    if c.startsWith '\x7d' then return ([], c.skip 1)
    if !isFirst && !c.startsWith ',' then throw .malformed
    let c := if isFirst then c else (c.skip 1).skipBlanks
    if c.startsWith '\x7d' then return ([], c.skip 1)
    let (node, value, c) ← flowPair fuel c
    let (entries, c) ← flowEntries fuel false c
    pure ((node, value.getD emptyNode) :: entries, c)
end

/-! ### Blocks -/

def inlineNode (indent : Int) (c : Cursor) : Except Fault (Node × Cursor) :=
  if c.startsWith '[' || c.startsWith '\x7b' || c.startsWith '"' || c.startsWith '\x27' then
    flowNode (2 * c.rest.length + 1) c
  else if startsPlain false c.rest then
    let (text, c) := plainText false indent c.rest.length c
    pure (.plain text, c)
  else throw .malformed

/-- Keys are longer than this only by mistake. -/
def maxKeyLength : Nat := 1024

/-- A node that is followed by a colon on its line is a key; the place is behind the colon then. -/
def keyOrNode (indent : Int) (c : Cursor) : Except Fault (Node × Bool × Cursor) := do
  let (node, after) ← inlineNode indent c
  let next := after.skipBlanks
  if !next.startsValue then pure (node, false, next)
  else if next.line == c.line && next.column - c.column ≤ maxKeyLength then
    pure (node, true, next.skip 1)
  else throw .malformed

mutual
/-- A node that stands deeper than `indent`; one behind a key on the same line cannot be a block. -/
def blockNode : Nat → Int → Bool → Cursor → Except Fault (Node × Cursor)
  | 0, _, _, _ => throw .malformed
  | fuel + 1, indent, mayNest, c => do
    if c.startsEntry then
      if !mayNest then throw .malformed
      let (items, c) ← blockItems fuel c.column false c
      return (.sequence items, c)
    let (node, isKey, next) ← keyOrNode indent c
    if !isKey then return (node, next)
    if !mayNest then throw .malformed
    let (entries, next) ← blockEntries fuel c.column node next
    pure (.mapping entries, next)

/-- The value of a key at `column`. A sequence under the key may stand at the key's own column. -/
def blockValue : Nat → Nat → Cursor → Except Fault (Node × Cursor)
  | 0, _, _ => throw .malformed
  | fuel + 1, column, c =>
    let next := c.skipBlanks
    if next.atEnd then pure (emptyNode, next)
    else if next.line == c.line then blockNode fuel column false next
    else if column < next.column then blockNode fuel column true next
    else if column == next.column && next.startsEntry then do
      let (items, stop) ← blockItems fuel column true next
      pure (.sequence items, stop)
    else pure (emptyNode, next)

def blockEntries : Nat → Nat → Node → Cursor → Except Fault (List (Node × Node) × Cursor)
  | 0, _, _, _ => throw .malformed
  | fuel + 1, column, key, c => do
    let (value, after) ← blockValue fuel column c
    let next := after.skipBlanks
    if next.atEnd || next.column < column then return ([(key, value)], next)
    if column < next.column || next.startsEntry then throw .malformed
    let (key', isKey, c) ← keyOrNode column next
    if !isKey then throw .malformed
    let (entries, stop) ← blockEntries fuel column key' c
    pure ((key, value) :: entries, stop)

/-- The items of a sequence. One at the column of its key ends where no dash follows. -/
def blockItems : Nat → Nat → Bool → Cursor → Except Fault (List Node × Cursor)
  | 0, _, _, _ => throw .malformed
  | fuel + 1, column, underKey, c => do
    let start := c.skip 1
    let first := start.skipBlanks
    let (item, after) ←
      if !first.atEnd && (first.line == start.line || column < first.column) then
        blockNode fuel column true first
      else pure (emptyNode, first)
    let next := after.skipBlanks
    if next.atEnd || next.column < column then return ([item], next)
    if column < next.column then throw .malformed
    if next.startsEntry then
      let (items, stop) ← blockItems fuel column underKey next
      return (item :: items, stop)
    if underKey then pure ([item], next) else throw .malformed
end

/-! ### Whole texts -/

def isAllowed (c : Char) : Bool :=
  let n := c.toNat
  n == 9 || n == 10 || n == 13 || (32 ≤ n && n ≤ 126) || n == 0x85 ||
    (0xa0 ≤ n && n ≤ 0xfffd) || 0x10000 ≤ n

def joinLineEnds : List Char → List Char
  | '\r' :: '\n' :: rest => '\n' :: joinLineEnds rest
  | '\r' :: rest => '\n' :: joinLineEnds rest
  | '\u0085' :: rest => '\n' :: joinLineEnds rest
  | c :: rest => c :: joinLineEnds rest
  | [] => []

/-- What stands in the text after its document: nothing, or one mark that ends the document. -/
def finish (c : Cursor) : Except Fault Unit :=
  let c := c.skipBlanks
  let c := if c.isFence '.' then (c.skip 3).skipBlanks else c
  if c.rest.isEmpty then pure () else throw .malformed

def node (text : List Char) : Except Fault Node := do
  let text := joinLineEnds text
  if !text.all isAllowed then throw .malformed
  let text := if text.head? = some '\ufeff' then text.drop 1 else text
  let start := (Cursor.ofText text).skipBlanks
  let fuel := 4 * text.length + 4
  let fenced := start.isFence '-'
  let first := if fenced then (start.skip 3).skipBlanks else start
  if first.atEnd then
    finish first
    return emptyNode
  if first.startsWith '%' && first.column == 0 then throw .malformed
  let (node, stop) ← blockNode fuel (-1) (!fenced || first.line != start.line) first
  finish stop
  pure node

def read (text : String) : Except Fault Document := do
  let node ← node text.toList
  node.document

end ZigBindings.Yaml
