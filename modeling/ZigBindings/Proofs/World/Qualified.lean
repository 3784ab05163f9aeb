import Mathlib.Algebra.GroupWithZero.Nat
import ZigBindings.Proofs.Name.Signs
import ZigBindings.World.Parse

/-! Names of interfaces in packages. What is read from such a name gives the name again, unless a line
break was left out at its end, and its labels have no signs but hyphens. -/

namespace ZigBindings.World
open Text

theorem label_spec {s l rest : List Char} (read : label s = some (l, rest)) :
    s = l ++ rest ∧ ∀ c ∈ l, isLabelChar c = true := by
  cases s with
  | nil => cases read
  | cons c s =>
    rw [label] at read
    split at read
    case isFalse => cases read
    case isTrue small =>
      cases read
      refine ⟨by rw [List.cons_append, List.takeWhile_append_dropWhile], ?_⟩
      refine List.forall_mem_cons.mpr ⟨by rw [isLabelChar, small, Bool.true_or, Bool.true_or], ?_⟩
      exact fun d member => List.mem_takeWhile_imp member

theorem expect_spec {c : Char} {s rest : List Char} (read : expect c s = some rest) : s = c :: rest := by
  cases s with
  | nil => cases read
  | cons d s =>
    rw [expect] at read
    split at read
    case isFalse => cases read
    case isTrue same =>
      cases read
      rw [beq_iff_eq.mp same]

def versionText : Option String → List Char
  | none => []
  | some version => '@' :: version.toList

theorem versionEnd_spec {s : List Char} {version : Option String} (read : versionEnd s = some version) :
    s = versionText version ∧ version ≠ some "" ∧
      ∀ text, version = some text → ∀ c ∈ text.toList, isVersionChar c = true := by
  rw [versionEnd.eq_def] at read
  split at read
  case h_1 =>
    cases read
    exact ⟨rfl, by simp, by simp⟩
  case h_2 rest =>
    split at read
    case isTrue => cases read
    case isFalse given =>
      cases read
      simp only [Bool.or_eq_true, List.isEmpty_iff, Bool.not_eq_true', not_or, Bool.not_eq_false] at given
      refine ⟨by rw [versionText, String.toList_ofList], fun empty => ?_, fun text same c member => ?_⟩
      · exact given.1 (by simpa using congrArg String.toList (Option.some.inj empty))
      · cases same
        rw [String.toList_ofList] at member
        exact List.all_eq_true.mp given.2 c member
  case h_3 => cases read

theorem toList_qualifiedName (p : Package) (short : String) (given : p.version ≠ some "") :
    (Registry.qualifiedName p short).toList =
      p.space.toList ++ ':' :: (p.name.toList ++ '/' :: (short.toList ++ versionText p.version)) := by
  rw [Registry.qualifiedName]
  cases version : p.version with
  | none => simp [versionText]
  | some text =>
    have some : text.isEmpty = false := by
      rw [Bool.eq_false_iff, ne_eq, String.isEmpty_iff]
      rintro rfl
      exact given version
    simp [versionText, some]

/-- The labels and the version that a name is made of. -/
structure Qualifies (text : String) (p : Package) (short : String) : Prop where
  name : (Registry.qualifiedName p short).toList = dropFinalBreak text.toList
  labels : ∀ part ∈ [p.space, p.name, short], ∀ c ∈ part.toList, isLabelChar c = true
  given : p.version ≠ some ""
  version : ∀ version, p.version = some version → ∀ c ∈ version.toList, isVersionChar c = true

theorem qualified?_spec {text : String} {p : Package} {short : String}
    (read : qualified? text = some (p, short)) : Qualifies text p short := by
  simp only [qualified?, bind, Option.bind_eq_some_iff, pure, Option.some.injEq, Prod.mk.injEq] at read
  obtain ⟨⟨space, _⟩, first, _, colon, ⟨name, _⟩, second, _, slash, ⟨interface, _⟩, third, version, last,
    rfl, rfl⟩ := read
  obtain ⟨whole, labelled₁⟩ := label_spec first
  obtain ⟨behind, labelled₂⟩ := label_spec second
  obtain ⟨further, labelled₃⟩ := label_spec third
  obtain ⟨ending, given, versioned⟩ := versionEnd_spec last
  refine ⟨?_, by simpa using ⟨labelled₁, labelled₂, labelled₃⟩, given, versioned⟩
  have colon := expect_spec colon
  have slash := expect_spec slash
  dsimp only at colon slash ending
  rw [toList_qualifiedName _ _ given, whole, colon, behind, slash, further, ending]
  simp only [String.toList_ofList]

theorem qualifiedName_eq {text : String} {p : Package} {short : String}
    (read : qualified? text = some (p, short)) (unbroken : text.toList.getLast? ≠ some '\n') :
    Registry.qualifiedName p short = text := by
  have same := (qualified?_spec read).name
  rw [dropFinalBreak, if_neg unbroken] at same
  exact String.toList_injective same

theorem count_of_isLabelChar {s : List Char} (labelled : ∀ c ∈ s, isLabelChar c = true) :
    s.count '#' = 0 := by
  refine List.count_eq_zero.mpr fun member => ?_
  exact absurd (labelled '#' member) (by decide)

theorem count_versionText {version : Option String}
    (versioned : ∀ text, version = some text → ∀ c ∈ text.toList, isVersionChar c = true) :
    (versionText version).count '#' = 0 := by
  cases version with
  | none => rfl
  | some text =>
    rw [versionText, List.count_cons_of_ne (by decide)]
    refine List.count_eq_zero.mpr fun member => ?_
    exact absurd (versioned text rfl '#' member) (by decide)

def spaces (name : String) : List String :=
  match qualified? name with
  | some (p, short) => [p.space, p.name, short]
  | none => [name]

theorem spaces_ne_nil (name : String) : spaces name ≠ [] := by
  rw [spaces]
  split <;> simp

theorem count_spaces {name : String} (unbroken : name.toList.getLast? ≠ some '\n') :
    ((spaces name).map fun space => space.toList.count '#').sum = name.toList.count '#' ∧
      (spaces name ≠ [name] → ∀ space ∈ spaces name, space.toList.count '#' = 0) := by
  rw [spaces]
  split
  case h_2 => simp
  case h_1 p short read =>
    obtain ⟨-, labelled, given, versioned⟩ := qualified?_spec read
    have none : ∀ space ∈ [p.space, p.name, short], space.toList.count '#' = 0 := fun space member =>
      count_of_isLabelChar (labelled space member)
    refine ⟨?_, fun _ => none⟩
    have whole := congrArg (List.count '#') (congrArg String.toList (qualifiedName_eq read unbroken))
    rw [toList_qualifiedName p short given] at whole
    simp only [List.count_append, List.count_cons_of_ne (show (':' : Char) ≠ '#' by decide),
      List.count_cons_of_ne (show ('/' : Char) ≠ '#' by decide), count_versionText versioned] at whole
    simp only [List.map_cons, List.map_nil, List.sum_cons, List.sum_nil]
    exact whole

end ZigBindings.World
