import Mathlib.Data.String.Basic
import Mathlib.Data.List.Infix
import ZigBindings.Proofs.Module.Filing

/-! What a scope holds under a path: the fragments filed there, in order, and one namespace for
every segment that a longer path goes on with. -/

namespace ZigBindings

namespace Scopes

def names : Scopes → List String
  | nil => []
  | cons name _ rest => name :: rest.names

def get (segment : String) : Scopes → Scope
  | nil => .empty
  | cons other scope rest => if segment = other then scope else rest.get segment

variable {change : Scope → Scope} {segment name : String} {children : Scopes}

theorem mem_names_update :
    name ∈ (children.update segment change).names ↔ name = segment ∨ name ∈ children.names := by
  induction children using Scopes.ind with
  | nil => simp [update, names]
  | cons other scope rest ih =>
    rw [update]
    split
    case isTrue same => simp [names, same]
    case isFalse =>
      split
      · simp [names]
      · simp only [names, List.mem_cons, ih]
        tauto

theorem update_sorted (sorted : children.names.Pairwise (· < ·)) :
    (children.update segment change).names.Pairwise (· < ·) := by
  induction children using Scopes.ind with
  | nil => simp [update, names]
  | cons other scope rest ih =>
    obtain ⟨first, others⟩ := List.pairwise_cons.mp sorted
    rw [update]
    split
    case isTrue => exact sorted
    case isFalse differ =>
      split
      case isTrue before =>
        refine List.pairwise_cons.mpr ⟨fun name member => ?_, sorted⟩
        rcases List.mem_cons.mp member with rfl | member
        · exact before
        · exact before.trans (first name member)
      case isFalse behind =>
        refine List.pairwise_cons.mpr ⟨fun name member => ?_, ih others⟩
        rcases mem_names_update.mp member with rfl | member
        · exact lt_of_le_of_ne (not_lt.mp behind) (Ne.symm differ)
        · exact first name member

theorem get_of_not_mem (missing : segment ∉ children.names) : children.get segment = .empty := by
  induction children using Scopes.ind with
  | nil => rfl
  | cons other scope rest ih =>
    simp only [names, List.mem_cons, not_or] at missing
    rw [get, if_neg missing.1, ih missing.2]

theorem get_update (sorted : children.names.Pairwise (· < ·)) :
    (children.update segment change).get name =
      if name = segment then change (children.get segment) else children.get name := by
  induction children using Scopes.ind with
  | nil => simp [update, get, Scope.empty]
  | cons other scope rest ih =>
    obtain ⟨first, others⟩ := List.pairwise_cons.mp sorted
    rw [update]
    split
    case isTrue same =>
      subst same
      simp only [get, if_true]
      split <;> rfl
    case isFalse differ =>
      split
      case isTrue before =>
        have missing : (cons other scope rest).get segment = .empty := by
          refine get_of_not_mem fun member => ?_
          rcases List.mem_cons.mp member with rfl | member
          · exact lt_irrefl _ before
          · exact lt_asymm before (first segment member)
        rw [missing, get, Scope.empty]
      case isFalse behind =>
        simp only [get, ih others, if_neg differ]
        split
        case isTrue same =>
          subst same
          rw [if_neg (Ne.symm differ)]
        case isFalse => rfl

/-- Namespaces are known by their names and what stands in them. -/
theorem ext_get {children others : Scopes} (names : children.names = others.names)
    (apart : children.names.Nodup)
    (each : ∀ name ∈ children.names, children.get name = others.get name) : children = others := by
  induction children using Scopes.ind generalizing others with
  | nil =>
    cases others with
    | nil => rfl
    | cons => cases names
  | cons segment scope rest ih =>
    cases others with
    | nil => cases names
    | cons other found others =>
      obtain ⟨rfl, tails⟩ := List.cons.inj names
      obtain ⟨unlike, apart⟩ := List.nodup_cons.mp apart
      have first := each segment List.mem_cons_self
      rw [get, get, if_pos rfl, if_pos rfl] at first
      rw [first, ih tails apart fun name member => ?_]
      have differ : name ≠ segment := fun same => unlike (same ▸ member)
      have behind := each name (List.mem_cons_of_mem _ member)
      rwa [get, get, if_neg differ, if_neg differ] at behind

theorem size_get {children : Scopes} {name : String} (member : name ∈ children.names) :
    sizeOf (children.get name) < sizeOf children := by
  induction children using Scopes.ind with
  | nil => cases member
  | cons segment scope rest ih =>
    rw [get]
    split
    case isTrue => simp; omega
    case isFalse differ =>
      have := ih ((List.mem_cons.mp member).resolve_left differ)
      simp; omega

end Scopes

namespace Scope

def fragments : Scope → List (List Char)
  | node fragments _ => fragments

def children : Scope → Scopes
  | node _ children => children

/-- The scope that a path leads to. -/
def under : List String → Scope → Scope
  | [], s => s
  | segment :: path, s => (s.children.get segment).under path

def segments (s : Scope) : List String := s.children.names

def Sorted (s : Scope) : Prop := ∀ path, (s.under path).segments.Pairwise (· < ·)

variable {s : Scope} {fragment : List Char} {path other : List String}

theorem under_empty (path : List String) : under path .empty = .empty := by
  induction path with
  | nil => rfl
  | cons segment rest ih => exact ih

theorem empty_sorted : Sorted .empty := fun path => by
  rw [under_empty]
  exact .nil

theorem Sorted.get (sorted : s.Sorted) (segment : String) : (s.children.get segment).Sorted :=
  fun path => sorted (segment :: path)

theorem Sorted.names (sorted : s.Sorted) : s.children.names.Pairwise (· < ·) := sorted []

theorem file_nil_children (fragment : List Char) (s : Scope) : (s.file fragment []).children = s.children := by
  cases s
  rfl

theorem file_cons (fragment : List Char) (segment : String) (path : List String) (s : Scope) :
    s.file fragment (segment :: path) =
      node s.fragments (s.children.update segment (file fragment path)) := by
  cases s
  rfl

theorem under_file_cons (sorted : s.Sorted) (name segment : String) :
    (s.file fragment (segment :: path)).under (name :: other) =
      if name = segment then ((s.children.get segment).file fragment path).under other
      else s.under (name :: other) := by
  rw [file_cons, under, children, Scopes.get_update sorted.names]
  split <;> rfl

theorem file_sorted (sorted : s.Sorted) : (s.file fragment path).Sorted := by
  induction path generalizing s with
  | nil =>
    intro other
    cases other with
    | nil =>
      rw [under, segments, file_nil_children]
      exact sorted.names
    | cons name rest =>
      rw [under, file_nil_children]
      exact sorted (name :: rest)
  | cons segment path ih =>
    intro other
    cases other with
    | nil =>
      rw [file_cons]
      exact Scopes.update_sorted sorted.names
    | cons name rest =>
      rw [under_file_cons sorted]
      split
      · exact ih (sorted.get segment) rest
      · exact sorted (name :: rest)

theorem fragments_file (sorted : s.Sorted) :
    ((s.file fragment path).under other).fragments =
      (s.under other).fragments ++ if other = path then [fragment] else [] := by
  induction path generalizing s other with
  | nil =>
    cases other with
    | nil => cases s; rfl
    | cons name rest => simp [under, file_nil_children]
  | cons segment path ih =>
    cases other with
    | nil => simp [under, file_cons, fragments]
    | cons name rest =>
      rw [under_file_cons sorted]
      split
      case isTrue same =>
        subst same
        rw [ih (sorted.get name)]
        simp [under]
      case isFalse differ => simp [differ]

theorem segments_file (sorted : s.Sorted) {segment : String} :
    segment ∈ ((s.file fragment path).under other).segments ↔
      other ++ [segment] <+: path ∨ segment ∈ (s.under other).segments := by
  induction path generalizing s other with
  | nil =>
    cases other with
    | nil => simp [under, segments, file_nil_children]
    | cons name rest => simp [under, file_nil_children]
  | cons first path ih =>
    cases other with
    | nil => simp [under, segments, file_cons, children, Scopes.mem_names_update]
    | cons name rest =>
      rw [under_file_cons sorted]
      split
      case isTrue same =>
        subst same
        rw [ih (sorted.get name)]
        simp [under]
      case isFalse differ => simp [differ]

def Same (s t : Scope) : Prop :=
  ∀ path, (s.under path).fragments = (t.under path).fragments ∧ (s.under path).segments = (t.under path).segments

theorem Same.get {t : Scope} (same : s.Same t) (segment : String) :
    (s.children.get segment).Same (t.children.get segment) :=
  fun path => same (segment :: path)

theorem size_get {name : String} (member : name ∈ s.segments) : sizeOf (s.children.get name) < sizeOf s := by
  cases s with
  | node fragments children =>
    have smaller := Scopes.size_get member
    simp only [Scope.node.sizeOf_spec, Scope.children] at smaller ⊢
    omega

theorem ind {P : Scope → Prop} (inside : ∀ s, (∀ name ∈ s.segments, P (s.children.get name)) → P s) (s : Scope) :
    P s :=
  inside s fun name member =>
    have := size_get member
    ind inside (s.children.get name)
termination_by sizeOf s

theorem eq_of_same {s t : Scope} (same : s.Same t) (sorted : s.Sorted) : s = t := by
  induction s using Scope.ind generalizing t with
  | inside s ih =>
    obtain ⟨content, names⟩ := same []
    have inside : s.children = t.children :=
      Scopes.ext_get names (sorted.names.imp fun less => less.ne) fun name member =>
        ih name member (same.get name) (sorted.get name)
    cases s
    cases t
    exact congrArg₂ node content inside

end Scope

end ZigBindings
