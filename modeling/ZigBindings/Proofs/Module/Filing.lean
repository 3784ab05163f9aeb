import Mathlib.Data.List.Basic
import ZigBindings.Scope

/-! What is filed in a scope is found by a walk under exactly the path it was filed under. -/

namespace ZigBindings

theorem Scopes.ind {P : Scopes → Prop} (nil : P .nil)
    (cons : ∀ segment scope rest, P rest → P (.cons segment scope rest)) (children : Scopes) :
    P children :=
  @Scopes.rec (fun _ => True) P (fun _ _ _ => trivial) nil
    (fun segment scope rest _ ih => cons segment scope rest ih) children

namespace Scope

/-- A walk comes by a fragment under a path. -/
def Found (walked : List (List String × List (List Char))) (path : List String)
    (fragment : List Char) : Prop :=
  ∃ fragments, (path, fragments) ∈ walked ∧ fragment ∈ fragments

section
variable {path prior : List String} {fragment other : List Char}

@[simp] theorem found_nil : ¬ Found [] path other := by
  rintro ⟨_, member, _⟩
  cases member

@[simp] theorem found_cons {fragments : List (List Char)}
    {walked : List (List String × List (List Char))} :
    Found ((prior, fragments) :: walked) path other ↔
      (path = prior ∧ other ∈ fragments) ∨ Found walked path other := by
  constructor
  · rintro ⟨_, member, inside⟩
    rcases List.mem_cons.mp member with same | member
    · cases same
      exact .inl ⟨rfl, inside⟩
    · exact .inr ⟨_, member, inside⟩
  · rintro (⟨rfl, inside⟩ | ⟨_, member, inside⟩)
    · exact ⟨_, List.mem_cons_self, inside⟩
    · exact ⟨_, List.mem_cons_of_mem _ member, inside⟩

@[simp] theorem found_append {first second : List (List String × List (List Char))} :
    Found (first ++ second) path other ↔ Found first path other ∨ Found second path other := by
  simp only [Found, List.mem_append, or_and_right, exists_or]

@[simp] theorem found_walk_bare (walked : List String) :
    ¬ Found ((node [] .nil).walk walked) path other := by
  simp [walk, walkAll]

def Adds (change : Scope → Scope) (below : List String) (fragment : List Char) : Prop :=
  ∀ scope prior path other, Found ((change scope).walk prior) path other ↔
    (path = prior ++ below ∧ other = fragment) ∨ Found (scope.walk prior) path other

theorem found_update {change : Scope → Scope} {below : List String} (adds : Adds change below fragment)
    (segment : String) (children : Scopes) :
    Found (walkAll prior (children.update segment change)) path other ↔
      (path = prior ++ segment :: below ∧ other = fragment) ∨
        Found (walkAll prior children) path other := by
  have entered : ∀ scope, Found ((change scope).walk (prior ++ [segment])) path other ↔
      (path = prior ++ segment :: below ∧ other = fragment) ∨
        Found (scope.walk (prior ++ [segment])) path other := fun scope => by
    rw [adds, List.append_assoc, List.singleton_append]
  induction children using Scopes.ind with
  | nil => simp [Scopes.update, walkAll, entered]
  | cons name scope rest ih =>
    rw [Scopes.update]
    split
    case isTrue same =>
      subst same
      simp only [walkAll, found_append, entered, or_assoc]
    case isFalse =>
      split
      · simp only [walkAll, found_append, entered, found_walk_bare, or_false]
      · simp only [walkAll, found_append, ih, or_left_comm]

theorem file_adds (fragment : List Char) (path : List String) : Adds (file fragment path) path fragment := by
  induction path with
  | nil =>
    intro scope prior path other
    cases scope with
    | node fragments children =>
      simp only [file, walk, found_cons, List.mem_append, List.mem_singleton, List.append_nil,
        and_or_left, or_assoc, or_left_comm]
  | cons segment below ih =>
    intro scope prior path other
    cases scope with
    | node fragments children =>
      simp only [file, walk, found_cons, found_update ih, or_left_comm]

end

end Scope

end ZigBindings
