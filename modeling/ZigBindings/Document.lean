import ZigBindings.Text.Quoted
import ZigBindings.Decimal.Shortest

/-!
Documents: scalars, lists and mappings, as read from a data file. A mapping keeps the order of its
entries. `display` is a value as it stands in a text, `shown` as messages show it.
-/

namespace ZigBindings

/-- A float is held by its 64 bits. -/
inductive Scalar where
  | null
  | bool (value : Bool)
  | int (value : Int)
  | float (bits : UInt64)
  | text (value : String)
deriving DecidableEq, Inhabited

inductive Document where
  | scalar (value : Scalar)
  | list (items : List Document)
  | mapping (entries : List (Scalar × Document))
deriving Inhabited

namespace Scalar

def shown : Scalar → String
  | null => "None"
  | bool b => if b then "True" else "False"
  | int n => toString n
  | float bits => Decimal.ofBits bits
  | text s => Text.quoted s

def display : Scalar → String
  | text s => s
  | s => s.shown

/-- Null, false, zero and the empty text stand for an absent value. -/
def isEmpty : Scalar → Bool
  | null => true
  | bool b => !b
  | int n => n == 0
  | float bits => Decimal.isZero bits
  | text s => s.isEmpty

end Scalar

namespace Document

def null : Document := scalar .null
def bool (b : Bool) : Document := scalar (.bool b)
def int (n : Int) : Document := scalar (.int n)
def text (s : String) : Document := scalar (.text s)

mutual
def shown : Document → String
  | scalar s => s.shown
  | list items => "[" ++ ", ".intercalate (shownItems items) ++ "]"
  | mapping entries => "\x7b" ++ ", ".intercalate (shownEntries entries) ++ "\x7d"

def shownItems : List Document → List String
  | [] => []
  | d :: rest => d.shown :: shownItems rest

def shownEntries : List (Scalar × Document) → List String
  | [] => []
  | (k, d) :: rest => (k.shown ++ ": " ++ d.shown) :: shownEntries rest
end

def display : Document → String
  | scalar s => s.display
  | d => d.shown

def isEmpty : Document → Bool
  | scalar s => s.isEmpty
  | list items => items.isEmpty
  | mapping entries => entries.isEmpty

def isNull : Document → Bool
  | scalar .null => true
  | _ => false

def text? : Document → Option String
  | scalar (.text s) => some s
  | _ => none

def find? (entries : List (Scalar × Document)) (key : String) : Option Document :=
  (entries.find? fun (k, _) => k == .text key).map (·.2)

end Document

end ZigBindings
