import ZigBindings.Text.Range
import ZigBindings.Text.CaseTable

/-!
Lower-casing for every script. All letters but two map to one small letter wherever they stand: the
dotted capital I becomes two characters, and the capital sigma looks at its neighbours.
-/

namespace ZigBindings.Text

def CapitalRun.holds (run : CapitalRun) (c : Char) : Bool :=
  run.first ≤ c.toNat && c.toNat ≤ run.last && (c.toNat - run.first) % run.step == 0

def lowerLetter (c : Char) : Char :=
  if c.toNat < 128 then c.toLower
  else match capitalRuns.find? (·.holds c) with
    | some run => Char.ofNat (run.small + (c.toNat - run.first))
    | none => c

def meetsCased (s : List Char) : Bool :=
  (s.dropWhile (inRanges passedOverRanges)).head?.any (inRanges casedRanges)

/-- Lower-cases the rest of a text of which `before` was read, nearest character first. A capital
sigma is final when a cased letter stands before it and none after it. -/
def lowerAfter (before : List Char) : List Char → List Char
  | [] => []
  | c :: rest =>
    let small :=
      if c == 'Σ' then [if meetsCased before && !meetsCased rest then 'ς' else 'σ']
      else if c == 'İ' then ['i', '\u0307']
      else [lowerLetter c]
    small ++ lowerAfter (c :: before) rest

def lower (s : List Char) : List Char :=
  lowerAfter [] s

end ZigBindings.Text
