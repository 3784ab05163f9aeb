import ZigBindings.Zig.Lines

/-!
Scopes: fragments of source filed under paths of namespaces. The namespaces inside a scope are kept
in the order of their names, so a scope depends on what is filed under each path and not on the
order in which different paths come.
-/

namespace ZigBindings

mutual
inductive Scope where
  | node (fragments : List (List Char)) (children : Scopes)

inductive Scopes where
  | nil
  | cons (segment : String) (scope : Scope) (rest : Scopes)
end

instance : Inhabited Scope := ⟨.node [] .nil⟩

namespace Scopes

/-- Changes the scope of a name, which is empty at first. -/
def update (segment : String) (change : Scope → Scope) : Scopes → Scopes
  | nil => cons segment (change (.node [] nil)) nil
  | cons other scope rest =>
    if segment = other then cons other (change scope) rest
    else if segment < other then cons segment (change (.node [] nil)) (cons other scope rest)
    else cons other scope (update segment change rest)

end Scopes

namespace Scope

def empty : Scope := node [] .nil

def isEmpty : Scope → Bool
  | node [] .nil => true
  | _ => false

def file (fragment : List Char) : List String → Scope → Scope
  | [], node fragments children => node (fragments ++ [fragment]) children
  | segment :: path, node fragments children =>
    node fragments (children.update segment (file fragment path))

mutual
/-- Every scope with its path and fragments, parents first. -/
def walk (path : List String) : Scope → List (List String × List (List Char))
  | node fragments children => (path, fragments) :: walkAll path children

def walkAll (path : List String) : Scopes → List (List String × List (List Char))
  | .nil => []
  | .cons segment scope rest => scope.walk (path ++ [segment]) ++ walkAll path rest
end

def joinSections (sections : List (List Char)) : List Char :=
  List.intercalate ['\n'] sections

mutual
def renderAt (width indent : Int) : Scope → List Char
  | node fragments children =>
    joinSections (fragments.map (Zig.text indent) ++ renderAll width indent children)

def renderAll (width indent : Int) : Scopes → List (List Char)
  | .nil => []
  | .cons segment scope rest =>
    (Zig.line indent ("pub const " ++ segment ++ " = struct \x7b").toList ++
      scope.renderAt width (indent + width) ++ Zig.line indent "\x7d;".toList) ::
      renderAll width indent rest
end

def render (level width : Int) (s : Scope) : List Char :=
  s.renderAt width (level * width)

end Scope

end ZigBindings
