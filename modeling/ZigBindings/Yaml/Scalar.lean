import ZigBindings.Document
import ZigBindings.Fault

/-!
What plain scalars of YAML 1.1 stand for: null, a truth value, an integer in one of five notations,
a float in one of four, or else a text.
-/

namespace ZigBindings.Yaml

def nulls : List String := ["", "~", "null", "Null", "NULL"]

def truths : List String := ["yes", "Yes", "YES", "true", "True", "TRUE", "on", "On", "ON"]

def falsehoods : List String := ["no", "No", "NO", "false", "False", "FALSE", "off", "Off", "OFF"]

def isDigitIn (base : Nat) (c : Char) : Bool :=
  if c.isDigit then c.toNat - 48 < base
  else base == 16 && (('a' ≤ c && c ≤ 'f') || ('A' ≤ c && c ≤ 'F'))

def digitValue (c : Char) : Nat :=
  if c.isDigit then c.toNat - 48 else c.toLower.toNat - 87

/-- The number that digits stand for; underscores among them do not count. -/
def numberIn (base : Nat) (digits : List Char) : Nat :=
  (digits.filter (· != '_')).foldl (fun n c => base * n + digitValue c) 0

def isRun (base : Nat) (s : List Char) : Bool :=
  !s.isEmpty && s.all fun c => c == '_' || isDigitIn base c

def isNumeral (s : List Char) : Bool :=
  isRun 10 s && s.head? != some '_'

def splitSign : List Char → Bool × List Char
  | '-' :: rest => (true, rest)
  | '+' :: rest => (false, rest)
  | s => (false, s)

def splitAt (separator : Char) : List Char → List (List Char)
  | [] => [[]]
  | c :: rest =>
    match splitAt separator rest with
    | [] => [[c]]
    | piece :: others => if c == separator then [] :: piece :: others else (c :: piece) :: others

def isSixtieth : List Char → Bool
  | [c] => c.isDigit
  | [c, d] => isDigitIn 6 c && d.isDigit
  | _ => false

/-- Pieces of a number in base sixty, at least two. -/
def sixties (s : List Char) : Option (List (List Char)) :=
  match splitAt ':' s with
  | first :: second :: rest =>
    if isNumeral first && (second :: rest).all isSixtieth then some (first :: second :: rest) else none
  | _ => none

def natural? (s : List Char) : Option (Except Fault Nat) :=
  match s with
  | '0' :: 'b' :: rest =>
    if !isRun 2 rest then none
    else if rest.all (· == '_') then some (throw (.value (.emptyNumber 2)))
    else some (pure (numberIn 2 rest))
  | '0' :: 'x' :: rest =>
    if !isRun 16 rest then none
    else if rest.all (· == '_') then some (throw (.value (.emptyNumber 16)))
    else some (pure (numberIn 16 rest))
  | ['0'] => some (pure 0)
  | '0' :: rest => if isRun 8 rest then some (pure (numberIn 8 rest)) else none
  | _ =>
    if isNumeral s then some (pure (numberIn 10 s))
    else (sixties s).map fun pieces =>
      pure (pieces.foldl (fun n piece => 60 * n + numberIn 10 piece) 0)

/-- The double nearest to `digits * 10 ^ exponent`. Exponents far outside the range of doubles are
brought to its edge. -/
def nearestDouble (digits : Nat) (exponent : Int) : Float :=
  let size := (Nat.toDigits 10 digits).length
  let e := max (-(size + 400 : Int)) (min exponent 400)
  if digits = 0 then 0 else Float.ofScientific digits (e < 0) e.natAbs

def pointed? (s : List Char) (exponent : Int) : Option Float :=
  match splitAt '.' s with
  | [whole, fraction] =>
    let places := (fraction.filter (· != '_')).length
    if (isNumeral whole && (fraction.isEmpty || isRun 10 fraction)) ||
        (whole.isEmpty && isNumeral fraction) then
      some (nearestDouble (numberIn 10 (whole ++ fraction)) (exponent - places))
    else none
  | _ => none

def exponent? : List Char → Option Int
  | [] => some 0
  | _ :: sign :: digits =>
    let value : Int := numberIn 10 digits
    if digits.isEmpty || !digits.all Char.isDigit then none
    else if sign == '-' then some (-value)
    else if sign == '+' then some value
    else none
  | _ => none

def sixtiesFloat? (s : List Char) : Option Float :=
  match splitAt '.' s with
  | [whole, fraction] => do
    let pieces ← sixties whole
    let last := pieces.getLast?.getD []
    let digits := numberIn 10 (last ++ fraction)
    let places := (fraction.filter (· != '_')).length
    if !fraction.isEmpty && !isRun 10 fraction then none
    else
      let lowest := nearestDouble digits (-places)
      let step := fun (sum, unit) piece =>
        (sum + Float.ofNat (numberIn 10 piece) * Float.ofNat unit, unit * 60)
      pure ((pieces.dropLast.reverse.foldl step (lowest, 60)).1)
  | _ => none

/-- A float without its sign; without digits before its point it has none. -/
def magnitude? (signed : Bool) (s : List Char) : Option Float :=
  if [".inf", ".Inf", ".INF"].contains (String.ofList s) then some (1 / 0)
  else if !signed && [".nan", ".NaN", ".NAN"].contains (String.ofList s) then some (0 / 0)
  else if signed && s.head? == some '.' then none
  else
    let digits := s.takeWhile fun c => c != 'e' && c != 'E'
    match (exponent? (s.dropWhile fun c => c != 'e' && c != 'E')).bind (pointed? digits) with
    | some value => some value
    | none => sixtiesFloat? s

def float? (s : List Char) : Option Float :=
  let (negative, rest) := splitSign s
  (magnitude? (rest.length != s.length) rest).map fun value => if negative then -value else value

def integer? (s : List Char) : Option (Except Fault Int) :=
  let (negative, rest) := splitSign s
  (natural? rest).map fun n => n.map fun n => if negative then -(n : Int) else n

def plainScalar (s : List Char) : Except Fault Scalar :=
  let text := String.ofList s
  if nulls.contains text then pure .null
  else if truths.contains text then pure (.bool true)
  else if falsehoods.contains text then pure (.bool false)
  else match float? s, integer? s with
    | some value, _ => pure (.float value.toBits)
    | none, some n => n.map .int
    | none, none => pure (.text text)

end ZigBindings.Yaml
