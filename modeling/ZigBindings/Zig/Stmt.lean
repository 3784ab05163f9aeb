import ZigBindings.Zig.Expr
import ZigBindings.Zig.Lines

/-!
Statements of the generated source. A nested body is written from indentation zero first and then
moved in as a text; the statements around it inside the same braces are written in place.
-/

namespace ZigBindings.Zig

inductive Stmt where
  | const (name : String) (type : Option String) (value : Expr)
  | slotVar (name type : String)
  | assign (target value : Expr)
  | discard (value : Expr)
  | run (value : Expr)
  | onExit (value : Expr)
  | ret (value : Expr)
  /-- Both arms end by giving the slots their results. -/
  | ifSome (value : Expr) (capture : Option String)
      (slots : List String)
      (present : List Stmt) (presentResults : List Expr)
      (absent : List Stmt) (absentResults : List Expr)
  /-- An optional constant from a discriminant. -/
  | switchOption (name type : String) (discriminant : Expr)
      (absent present : List Stmt) (payload : Expr)
  | forEach (items : Expr) (byPointer : Bool) (item index : Option String)
      (base : Option (String × Expr)) (body : List Stmt) (last : Option (Expr × Expr))
deriving Inhabited

def capture (name : Option String) : String :=
  name.getD "_"

def splice (indent : Int) (body : List Char) : List Char :=
  if isBlankText body then [] else text indent body

def assignment (target value : Expr) : String :=
  target.render ++ " = " ++ value.render ++ ";"

def constant (name : String) (type : Option String) (value : Expr) : String :=
  let declared := match type with
    | some type => ": " ++ type
    | none => ""
  "const " ++ name ++ declared ++ " = " ++ value.render ++ ";"

def slotAssignments (indent : Int) (slots : List String) (results : List Expr) : List Char :=
  (List.zipWith (fun slot result => line indent (assignment (.name slot) result).toList)
    slots results).flatten

/-- One case of the switch over a discriminant; `body` is already written. -/
def switchArm (width : Int) (case : String) (body : List Char) (value label : String) :
    List Char :=
  if isBlankText body then line width (case ++ " => " ++ value ++ ",").toList
  else
    line width (case ++ " => " ++ label ++ ": \x7b").toList ++
      text (2 * width) body ++
      line (2 * width) ("break :" ++ label ++ " " ++ value ++ ";").toList ++
      line width "\x7d,".toList

namespace Stmt

mutual
def render (width : Int) : Stmt → List Char
  | const name type value => line 0 (constant name type value).toList
  | slotVar name type => line 0 ("var " ++ name ++ ": " ++ type ++ " = undefined;").toList
  | assign target value => line 0 (assignment target value).toList
  | discard value => line 0 ("_ = " ++ value.render ++ ";").toList
  | run value => line 0 (value.render ++ ";").toList
  | onExit value => line 0 ("defer " ++ value.render ++ ";").toList
  | ret value => line 0 ("return " ++ value.render ++ ";").toList
  | ifSome value name slots present presentResults absent absentResults =>
    line 0 ("if (" ++ value.render ++ ") |" ++ capture name ++ "| \x7b").toList ++
      splice width (renderAll width present) ++ slotAssignments width slots presentResults ++
      line 0 "\x7d else \x7b".toList ++
      splice width (renderAll width absent) ++ slotAssignments width slots absentResults ++
      line 0 "\x7d".toList
  | switchOption name type discriminant absent present payload =>
    line 0 ("const " ++ name ++ ": ?" ++ type ++ " = switch (" ++ discriminant.render ++
        ") \x7b").toList ++
      switchArm width "0" (renderAll width absent) "null" (name ++ "_none") ++
      switchArm width "1" (renderAll width present) payload.render (name ++ "_some") ++
      line width "else => unreachable,".toList ++
      line 0 "\x7d;".toList
  | forEach items byPointer item index base body last =>
    let star := if byPointer then "*" else ""
    line 0 ("for (" ++ items.render ++ ", 0..) |" ++ star ++ capture item ++ ", " ++
        capture index ++ "| \x7b").toList ++
      (match base with
        | some (name, value) => line width (constant name (some "i32") value).toList
        | none => []) ++
      splice width (renderAll width body) ++
      (match last with
        | some (target, value) => line width (assignment target value).toList
        | none => []) ++
      line 0 "\x7d".toList

def renderAll (width : Int) : List Stmt → List Char
  | [] => []
  | s :: rest => s.render width ++ renderAll width rest
end

end Stmt

end ZigBindings.Zig
