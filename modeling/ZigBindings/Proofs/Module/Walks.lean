import Mathlib.Data.List.Lex
import Mathlib.Data.List.Sort
import ZigBindings.Proofs.Module.Containers

/-! Walks over a scope that fragments are filed in one after the other. Every start of a path comes
once, in the order of the paths, with the fragments that were filed under it. -/

namespace ZigBindings

namespace Scopes

variable {children : Scopes}

theorem walkAll_eq (prior : List String) (apart : children.names.Nodup) :
    Scope.walkAll prior children =
      children.names.flatMap fun name => (children.get name).walk (prior ++ [name]) := by
  induction children using Scopes.ind with
  | nil => rfl
  | cons segment scope rest ih =>
    obtain ⟨unlike, apart⟩ := List.nodup_cons.mp apart
    have behind : ∀ name ∈ rest.names, (cons segment scope rest).get name = rest.get name := by
      intro name member
      have differ : name ≠ segment := fun same => unlike (same ▸ member)
      rw [get, if_neg differ]
    rw [Scope.walkAll, ih apart, names, List.flatMap_cons, get, if_pos rfl]
    exact congrArg _ (List.flatMap_congr fun name member => by rw [behind name member])

def waiting (prior : List String) : Scopes → List (List String × Scope)
  | nil => []
  | cons segment scope rest => (prior ++ [segment], scope) :: rest.waiting prior

theorem flatMap_waiting (prior : List String) (children : Scopes) :
    (children.waiting prior).flatMap (fun entry => entry.2.walk entry.1) = Scope.walkAll prior children := by
  induction children using Scopes.ind with
  | nil => rfl
  | cons segment scope rest ih => rw [waiting, List.flatMap_cons, ih, Scope.walkAll]

end Scopes

namespace Scope

variable {s : Scope} {fragment : List Char} {fragments : List (List Char)} {path other prior : List String}

section Walk

mutual
/-- How many scopes there are in a scope, itself among them. -/
def count : Scope → Nat
  | node _ children => countAll children + 1

def countAll : Scopes → Nat
  | .nil => 0
  | .cons _ scope rest => scope.count + countAll rest
end

def pending : List (List String × Scope) → Nat
  | [] => 0
  | entry :: stack => entry.2.count + pending stack

theorem pending_append (first second : List (List String × Scope)) :
    pending (first ++ second) = pending first + pending second := by
  induction first with
  | nil => exact (Nat.zero_add _).symm
  | cons entry rest ih => rw [List.cons_append, pending, pending, ih, Nat.add_assoc]

theorem pending_waiting (prior : List String) (children : Scopes) :
    pending (children.waiting prior) = countAll children := by
  induction children using Scopes.ind with
  | nil => rfl
  | cons segment scope rest ih => rw [Scopes.waiting, pending, ih, countAll]

/-- The same walk with a stack of scopes that are still to be met. What is inside a scope is met before
whatever has waited already. -/
def visit : List (List String × Scope) → List (List String × List (List Char))
  | [] => []
  | (path, node fragments children) :: stack =>
    (path, fragments) :: visit (children.waiting path ++ stack)
termination_by stack => pending stack
decreasing_by
  -- a scope makes way for those inside it, which are one fewer
  rw [pending_append, pending_waiting, pending, count]
  omega

theorem visit_eq (stack : List (List String × Scope)) :
    visit stack = stack.flatMap fun entry => entry.2.walk entry.1 := by
  induction stack using visit.induct with
  | case1 => rw [visit, List.flatMap_nil]
  | case2 path fragments children stack ih =>
    rw [visit, ih, List.flatMap_append, Scopes.flatMap_waiting, List.flatMap_cons, walk, List.cons_append]

/-- Each segment of the path is a namespace in the one before it. -/
def Reaches : List String → Scope → Prop
  | [], _ => True
  | segment :: path, s => segment ∈ s.segments ∧ (s.children.get segment).Reaches path

theorem reaches_empty : Reaches path .empty ↔ path = [] := by
  cases path <;> simp [Reaches, segments, children, Scopes.names, empty]

theorem Sorted.walk_eq (sorted : s.Sorted) (prior : List String) :
    s.walk prior = (prior, s.fragments) ::
      s.segments.flatMap fun name => (s.children.get name).walk (prior ++ [name]) := by
  have inside := Scopes.walkAll_eq prior (sorted.names.imp fun less => less.ne)
  cases s
  exact congrArg _ inside

theorem Sorted.mem_walk (sorted : s.Sorted) :
    (path, fragments) ∈ s.walk prior ↔
      ∃ rest, path = prior ++ rest ∧ s.Reaches rest ∧ fragments = (s.under rest).fragments := by
  induction s using Scope.ind generalizing prior with
  | inside s ih =>
    rw [sorted.walk_eq, List.mem_cons, List.mem_flatMap]
    constructor
    · rintro (same | ⟨name, member, walked⟩)
      · obtain ⟨rfl, rfl⟩ := Prod.mk.inj same
        exact ⟨[], (List.append_nil _).symm, trivial, rfl⟩
      · obtain ⟨rest, rfl, reaches, found⟩ := (ih name member (sorted.get name)).mp walked
        exact ⟨name :: rest, List.append_assoc _ _ _, ⟨member, reaches⟩, found⟩
    · rintro ⟨rest, rfl, reaches, rfl⟩
      cases rest with
      | nil => exact .inl (by rw [List.append_nil]; rfl)
      | cons name rest =>
        obtain ⟨member, reaches⟩ := reaches
        exact .inr ⟨name, member, (ih name member (sorted.get name)).mpr
          ⟨rest, (List.append_assoc prior [name] rest).symm, reaches, rfl⟩⟩

theorem Sorted.walk_increasing (sorted : s.Sorted) (prior : List String) :
    (s.walk prior).Pairwise fun first second => first.1 < second.1 := by
  induction s using Scope.ind generalizing prior with
  | inside s ih =>
    rw [sorted.walk_eq]
    refine List.pairwise_cons.mpr ⟨?_, List.pairwise_flatMap.mpr ⟨fun name member => ?_, ?_⟩⟩
    · rintro ⟨path, fragments⟩ member
      obtain ⟨name, -, walked⟩ := List.mem_flatMap.mp member
      obtain ⟨rest, rfl, -⟩ := (sorted.get name).mem_walk.mp walked
      simpa using @List.append_left_lt _ _ prior _ _ (List.nil_lt_cons name rest)
    · exact ih name member (sorted.get name) (prior ++ [name])
    · refine sorted.names.imp fun {name other} less => ?_
      rintro ⟨_, _⟩ first ⟨_, _⟩ second
      obtain ⟨rest, rfl, -⟩ := (sorted.get name).mem_walk.mp first
      obtain ⟨behind, rfl, -⟩ := (sorted.get other).mem_walk.mp second
      simpa using @List.append_left_lt _ _ prior _ _ (List.cons_lt_cons_iff.mpr (.inl less))

end Walk

section Filings

abbrev Filing := List String × List Char

/-- What was filed under a path, in order. -/
def filedUnder (path : List String) (filings : List Filing) : List (List Char) :=
  (filings.filter (·.1 = path)).map Prod.snd

/-- Files one fragment after the other in an empty scope. -/
def ofFilings (filings : List Filing) : Scope :=
  filings.foldl (fun s filing => s.file filing.2 filing.1) .empty

theorem reaches_file (sorted : s.Sorted) :
    (s.file fragment path).Reaches other ↔ other <+: path ∨ s.Reaches other := by
  induction path generalizing s other with
  | nil =>
    cases other with
    | nil => simp [Reaches]
    | cons name rest => simp [Reaches, segments, file_nil_children]
  | cons segment path ih =>
    cases other with
    | nil => simp [Reaches]
    | cons name rest =>
      have entered : ((s.file fragment (segment :: path)).children.get name) =
          if name = segment then (s.children.get segment).file fragment path else s.children.get name := by
        rw [file_cons, children, Scopes.get_update sorted.names]
      have named : name ∈ (s.file fragment (segment :: path)).segments ↔ name = segment ∨ name ∈ s.segments := by
        rw [file_cons, segments, children, Scopes.mem_names_update, segments]
      rw [Reaches, named, entered, List.cons_prefix_cons, Reaches]
      split
      case isFalse differ => simp [differ]
      case isTrue same =>
        subst same
        rw [ih (sorted.get name)]
        by_cases member : name ∈ s.segments
        · simp [member]
        · have missing : s.children.get name = .empty := Scopes.get_of_not_mem member
          simp only [missing, reaches_empty, member, or_false, true_and, false_and, or_iff_left_iff_imp]
          rintro rfl
          exact List.nil_prefix

variable {filings others : List Filing}

theorem ofFilings_concat (filings : List Filing) (filing : Filing) :
    ofFilings (filings ++ [filing]) = (ofFilings filings).file filing.2 filing.1 :=
  List.foldl_concat _ _ _ _

theorem ofFilings_sorted (filings : List Filing) : (ofFilings filings).Sorted := by
  induction filings using List.reverseRecOn with
  | nil => exact empty_sorted
  | append_singleton filings filing ih =>
    rw [ofFilings_concat]
    exact file_sorted ih

theorem ofFilings_fragments (filings : List Filing) (path : List String) :
    ((ofFilings filings).under path).fragments = filedUnder path filings := by
  induction filings using List.reverseRecOn with
  | nil => exact congrArg fragments (under_empty path)
  | append_singleton filings filing ih =>
    rw [ofFilings_concat, fragments_file (ofFilings_sorted filings), ih]
    by_cases same : filing.1 = path
    · simp [filedUnder, same]
    · simp [filedUnder, same, Ne.symm same]

theorem ofFilings_reaches (filings : List Filing) (path : List String) :
    (ofFilings filings).Reaches path ↔ path = [] ∨ ∃ filing ∈ filings, path <+: filing.1 := by
  induction filings using List.reverseRecOn with
  | nil =>
    have bare : (ofFilings []).Reaches path ↔ path = [] := reaches_empty
    simpa using bare
  | append_singleton filings filing ih =>
    rw [ofFilings_concat, reaches_file (ofFilings_sorted filings), ih]
    simp [or_and_right, exists_or, or_left_comm, or_comm]

theorem ofFilings_segments (filings : List Filing) (path : List String) (segment : String) :
    segment ∈ ((ofFilings filings).under path).segments ↔
      ∃ filing ∈ filings, path ++ [segment] <+: filing.1 := by
  induction filings using List.reverseRecOn with
  | nil =>
    have bare : (ofFilings []).under path = .empty := under_empty path
    simp [bare, segments, children, empty, Scopes.names]
  | append_singleton filings filing ih =>
    rw [ofFilings_concat, segments_file (ofFilings_sorted filings), ih]
    simp [or_and_right, exists_or, or_comm]

theorem filed_iff (filings : List Filing) (path : List String) :
    filedUnder path filings ≠ [] ↔ ∃ filing ∈ filings, filing.1 = path := by
  simp [filedUnder]

/-- The scope is settled by what is filed under each path. -/
theorem ofFilings_eq (alike : ∀ path, filedUnder path filings = filedUnder path others) :
    ofFilings filings = ofFilings others := by
  have places : ∀ place, (∃ filing ∈ filings, filing.1 = place) ↔ ∃ filing ∈ others, filing.1 = place :=
    fun place => by rw [← filed_iff, ← filed_iff, alike]
  refine eq_of_same (fun path => ⟨?_, ?_⟩) (ofFilings_sorted filings)
  · rw [ofFilings_fragments, ofFilings_fragments, alike]
  · refine List.Pairwise.eq_of_mem_iff (ofFilings_sorted filings path) (ofFilings_sorted others path)
      fun segment => ?_
    rw [ofFilings_segments, ofFilings_segments]
    constructor
    · rintro ⟨filing, member, start⟩
      obtain ⟨found, inside, same⟩ := (places filing.1).mp ⟨filing, member, rfl⟩
      exact ⟨found, inside, same ▸ start⟩
    · rintro ⟨filing, member, start⟩
      obtain ⟨found, inside, same⟩ := (places filing.1).mpr ⟨filing, member, rfl⟩
      exact ⟨found, inside, same ▸ start⟩

theorem mem_walk_ofFilings (filings : List Filing) :
    (path, fragments) ∈ (ofFilings filings).walk [] ↔
      (path = [] ∨ ∃ filing ∈ filings, path <+: filing.1) ∧ fragments = filedUnder path filings := by
  rw [(ofFilings_sorted filings).mem_walk]
  constructor
  · rintro ⟨rest, same, reaches, rfl⟩
    obtain rfl : path = rest := same
    exact ⟨(ofFilings_reaches filings path).mp reaches, ofFilings_fragments filings path⟩
  · rintro ⟨start, rfl⟩
    exact ⟨path, rfl, (ofFilings_reaches filings path).mpr start, (ofFilings_fragments filings path).symm⟩

end Filings

end Scope

end ZigBindings
