import ZigBindings.Yaml.Scalar

/-!
Nodes of a YAML file before plain scalars are given a meaning, and the documents they make.
-/

namespace ZigBindings.Yaml

inductive Node where
  | plain (text : List Char)
  | quoted (text : List Char)
  | sequence (items : List Node)
  | mapping (entries : List (Node × Node))
deriving Inhabited

def fraction? : Scalar → Option (Int × Nat)
  | .bool b => some (if b then 1 else 0, 1)
  | .int n => some (n, 1)
  | .float bits =>
    if !Decimal.isFinite bits then none
    else
      let n := Decimal.significand bits * Nat.pow 2 (Decimal.binaryExponent bits).toNat
      let d := Nat.pow 2 (-Decimal.binaryExponent bits).toNat
      let value : Int := (n / n.gcd d : Nat)
      some (if Decimal.signField bits then -value else value, d / n.gcd d)
  | _ => none

def isNaN : Scalar → Bool
  | .float bits => Decimal.isNaN bits
  | _ => false

/-- Whether two keys are the same: numbers by their value, and all else as it is written. -/
def sameKey (a b : Scalar) : Bool :=
  match fraction? a, fraction? b with
  | some x, some y => x == y
  | _, _ => a == b && !isNaN a

/-- A repeated key keeps its first place and takes the last value. -/
def putEntry (key : Scalar) (value : Document) :
    List (Scalar × Document) → List (Scalar × Document)
  | [] => [(key, value)]
  | (other, old) :: rest =>
    if sameKey other key then (other, value) :: rest else (other, old) :: putEntry key value rest

/-- Plain texts with a role among keys only; they are no values. -/
def keyMarks : List String := ["=", "<<"]

namespace Node

def key : Node → Except Fault Scalar
  | plain text => plainScalar text
  | quoted text => pure (.text (String.ofList text))
  | _ => throw .malformed

mutual
def document : Node → Except Fault Document
  | plain text =>
    if keyMarks.contains (String.ofList text) then throw .malformed
    else (plainScalar text).map .scalar
  | quoted text => pure (.text (String.ofList text))
  | sequence items => (documents items).map .list
  | mapping entries => (documentEntries [] entries).map .mapping

def documents : List Node → Except Fault (List Document)
  | [] => pure []
  | node :: rest => do
    let first ← node.document
    let others ← documents rest
    pure (first :: others)

def documentEntries (done : List (Scalar × Document)) :
    List (Node × Node) → Except Fault (List (Scalar × Document))
  | [] => pure done
  | (name, value) :: rest => do
    let key ← name.key
    let document ← value.document
    documentEntries (putEntry key document done) rest
end

end Node

end ZigBindings.Yaml
