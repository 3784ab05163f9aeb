import Mathlib.Data.List.TakeWhile
import Mathlib.Data.String.Basic
import ZigBindings.CommandLine.Path

/-! Paths and the names they are made of. A path's normal form has the same root and the same names, and
a name joined to a directory is one name more. -/

namespace ZigBindings.CommandLine
open String (utf8Len ofList)

/-! ### Splitting at a sign -/

theorem atEnd_ofList (before rest : List Char) :
    String.Pos.Raw.atEnd (ofList (before ++ rest)) ⟨utf8Len before⟩ = rest.isEmpty := by
  rw [Bool.eq_iff_iff, String.atEnd_iff, String.rawEndPos_ofList, String.Pos.Raw.mk_le_mk, String.utf8Len_append,
    List.isEmpty_iff, ← String.utf8Len_eq_zero]
  omega

theorem extract_ofList (before held rest : List Char) :
    String.Pos.Raw.extract (ofList (before ++ held ++ rest)) ⟨utf8Len before⟩ ⟨utf8Len (before ++ held)⟩ =
      ofList held := by
  rw [String.utf8Len_append]
  exact String.extract_of_valid before held rest

theorem next_ofList (before : List Char) (c : Char) (rest : List Char) :
    String.Pos.Raw.next (ofList (before ++ c :: rest)) ⟨utf8Len before⟩ = ⟨utf8Len (before ++ [c])⟩ := by
  rw [String.utf8Len_append, String.utf8Len_cons, String.utf8Len_nil, Nat.zero_add]
  exact String.next_of_valid before c rest

/-- Splitting goes on behind what was read: some text lies before the piece that is held. -/
theorem splitOnAux_sign (sign : Char) (before held rest : List Char) (done : List String) :
    String.splitOnAux (ofList (before ++ held ++ rest)) (ofList [sign]) ⟨utf8Len before⟩
        ⟨utf8Len (before ++ held)⟩ 0 done =
      done.reverse ++ (List.splitOnPPrepend (· == sign) rest held.reverse).map ofList := by
  induction rest generalizing before held done with
  | nil =>
    rw [String.splitOnAux, atEnd_ofList, if_pos List.isEmpty_nil, extract_ofList, List.splitOnPPrepend_nil,
      List.reverse_reverse, List.reverse_cons]
    rfl
  | cons c rest ih =>
    have read : String.Pos.Raw.get (ofList (before ++ held ++ c :: rest)) ⟨utf8Len (before ++ held)⟩ = c :=
      String.get_of_valid (before ++ held) (c :: rest)
    have only : String.Pos.Raw.get (ofList [sign]) 0 = sign := String.get_of_valid [] [sign]
    have passed : String.Pos.Raw.next (ofList [sign]) 0 = ⟨utf8Len [sign]⟩ := next_ofList [] sign []
    have behind : before ++ held ++ c :: rest = before ++ (held ++ [c]) ++ rest := by simp
    rw [String.splitOnAux, atEnd_ofList, if_neg (by simp), read, only]
    dsimp only
    rw [next_ofList, passed]
    split
    case isTrue same =>
      have back : (⟨utf8Len (before ++ held ++ [c])⟩ : String.Pos.Raw).unoffsetBy ⟨utf8Len [sign]⟩ =
          ⟨utf8Len (before ++ held)⟩ := by
        rw [beq_iff_eq.mp same, String.utf8Len_append _ [sign], String.Pos.Raw.unoffsetBy, Nat.add_sub_cancel]
      have all : String.Pos.Raw.atEnd (ofList [sign]) ⟨utf8Len [sign]⟩ = true := atEnd_ofList [sign] []
      have later := ih (before ++ held ++ [c]) [] (ofList held :: done)
      rw [List.append_nil, List.append_assoc (before ++ held), List.singleton_append] at later
      rw [all, if_pos rfl, back, extract_ofList, later, List.splitOnPPrepend_cons_eq_if, if_pos same,
        List.reverse_reverse, List.reverse_cons, List.append_assoc]
      rfl
    case isFalse other =>
      have stay : (⟨utf8Len (before ++ held)⟩ : String.Pos.Raw).unoffsetBy 0 = ⟨utf8Len (before ++ held)⟩ := rfl
      have later := ih before (held ++ [c]) done
      rw [← behind, ← List.append_assoc before] at later
      rw [stay, next_ofList, later, List.splitOnPPrepend_cons_eq_if, if_neg other, List.reverse_append]
      rfl

theorem splitOn_slash (path : String) : path.splitOn "/" = (path.toList.splitOn '/').map ofList := by
  have split := splitOnAux_sign '/' [] [] path.toList []
  rw [List.nil_append, List.nil_append, String.ofList_toList] at split
  exact split

theorem not_mem_of_mem_splitOn {sign : Char} {s piece : List Char} (member : piece ∈ s.splitOn sign) :
    sign ∉ piece := by
  induction s generalizing piece with
  | nil =>
    rw [List.splitOn_nil, List.mem_singleton] at member
    rw [member]
    exact List.not_mem_nil
  | cons c rest ih =>
    rw [List.splitOn_cons_eq_if_modifyHead] at member
    split at member
    case isTrue =>
      rcases List.mem_cons.mp member with rfl | behind
      · exact List.not_mem_nil
      · exact ih behind
    case isFalse other =>
      obtain ⟨first, others, split⟩ := List.exists_cons_of_ne_nil (List.splitOn_ne_nil sign rest)
      rw [split, List.modifyHead_cons] at member
      rcases List.mem_cons.mp member with rfl | behind
      · have bare : sign ∉ first := ih (split ▸ List.mem_cons_self)
        rw [List.mem_cons, not_or]
        exact ⟨fun same => other (by simp [same]), bare⟩
      · exact ih (split ▸ List.mem_cons_of_mem _ behind)

/-! ### Names of a path -/

/-- A name that stands for an entry of a directory: one name, and not the directory itself. -/
structure IsName (name : String) : Prop where
  line : '/' ∉ name.toList
  filled : name ≠ ""
  other : name ≠ "."

theorem components_eq (path : String) : components path =
    ((path.toList.splitOn '/').map ofList).filter fun name => name != "" && name != "." := by
  rw [components, splitOn_slash]

theorem mem_components {path name : String} (member : name ∈ components path) : IsName name := by
  rw [components_eq, List.mem_filter, Bool.and_eq_true, bne_iff_ne, bne_iff_ne] at member
  obtain ⟨piece, inside, rfl⟩ := List.mem_map.mp member.1
  refine ⟨?_, member.2.1, member.2.2⟩
  rw [String.toList_ofList]
  exact not_mem_of_mem_splitOn inside

theorem components_slash (first second : String) :
    components (first ++ "/" ++ second) = components first ++ components second := by
  have signs : (first ++ "/" ++ second).toList = first.toList ++ '/' :: second.toList := by simp
  rw [components_eq, components_eq, components_eq, signs, List.splitOn_append_cons_self, List.map_append,
    List.filter_append]

theorem components_intercalate {names : List String} (each : ∀ name ∈ names, IsName name) :
    components ("/".intercalate names) = names := by
  cases names with
  | nil => rw [components_eq]; rfl
  | cons name rest =>
    have lines : ∀ line ∈ (name :: rest).map String.toList, '/' ∉ line :=
      List.forall_mem_map.mpr fun name member => (each name member).line
    have back : ((name :: rest).map String.toList).map ofList = name :: rest := by
      rw [List.map_map]
      exact List.map_id'' (fun _ => String.ofList_toList) _
    rw [components_eq, String.toList_intercalate]
    change List.filter _ (((['/'].intercalate _).splitOn '/').map ofList) = _
    rw [List.splitOn_intercalate '/' lines (by simp), back, List.filter_eq_self]
    intro name member
    simp [(each name member).filled, (each name member).other]

theorem components_name {name : String} (one : IsName name) : components name = [name] := by
  have alone := components_intercalate (List.forall_mem_singleton.mpr one)
  rwa [String.intercalate_singleton] at alone

theorem components_empty : components "" = [] := @components_intercalate [] (by simp)

theorem components_dot : components "." = [] := by
  rw [components_eq]
  rfl

/-! ### Roots and normal forms -/

theorem rootOf_append {path rest : String} (stops : (∃ c ∈ path.toList, c ≠ '/') ∨ rest.toList.head? ≠ some '/') :
    rootOf (path ++ rest) = rootOf path := by
  have same : (path ++ rest).toList.takeWhile (· == '/') = path.toList.takeWhile (· == '/') := by
    rw [String.toList_append, List.takeWhile_append]
    split
    case isTrue all =>
      have slashes := (List.takeWhile_prefix (· == '/')).eq_of_length all
      rcases stops with ⟨c, member, other⟩ | start
      · exact absurd (beq_iff_eq.mp (List.takeWhile_eq_self_iff.mp slashes c member)) other
      · have none : rest.toList.takeWhile (· == '/') = [] := by
          cases chars : rest.toList with
          | nil => rfl
          | cons d others =>
            refine List.takeWhile_cons_of_neg fun slash => start ?_
            rw [chars, List.head?_cons, beq_iff_eq.mp slash]
        rw [none, List.append_nil, slashes]
    case isFalse => rfl
  rw [rootOf, rootOf, same]

theorem rootOf_cases (path : String) : rootOf path = "" ∨ rootOf path = "/" ∨ rootOf path = "//" := by
  rw [rootOf]
  split_ifs <;> simp

theorem rootOf_rootOf (path : String) : rootOf (rootOf path) = rootOf path := by
  rcases rootOf_cases path with root | root | root <;> rw [root] <;> rfl

theorem components_rootOf (path rest : String) : components (rootOf path ++ rest) = components rest := by
  have slash : ∀ s, components ("/" ++ s) = components s := fun s => by
    have split := components_slash "" s
    rwa [String.empty_append, components_empty, List.nil_append] at split
  rcases rootOf_cases path with root | root | root <;> rw [root]
  · rw [String.empty_append]
  · exact slash rest
  · change components ("/" ++ ("/" ++ rest)) = _
    rw [slash, slash]

theorem head_of_isName {name : String} (named : IsName name) : name.toList.head? ≠ some '/' := fun start =>
  named.line (List.mem_of_head? start)

theorem head_components (path : String) : ("/".intercalate (components path)).toList.head? ≠ some '/' := by
  have each : ∀ name ∈ components path, IsName name := fun name => mem_components
  generalize components path = names at each
  cases names with
  | nil => exact nofun
  | cons name rest =>
    have first := head_of_isName (each name List.mem_cons_self)
    have some : name.toList ≠ [] := fun none => (each name List.mem_cons_self).filled (String.toList_eq_nil_iff.mp none)
    obtain ⟨c, others, chars⟩ := List.exists_cons_of_ne_nil some
    rw [chars] at first
    rw [String.toList_intercalate, List.map_cons, chars]
    cases rest <;> exact first

/-- A normal form has the same root and the same names. -/
theorem normalPath_spec (path : String) : rootOf (normalPath path) = rootOf path ∧
    components (normalPath path) = components path ∧ normalPath path ≠ "" := by
  have root : rootOf (rootOf path ++ "/".intercalate (components path)) = rootOf path := by
    rw [rootOf_append (.inr (head_components path)), rootOf_rootOf]
  have names : components (rootOf path ++ "/".intercalate (components path)) = components path := by
    rw [components_rootOf]
    exact components_intercalate fun name => mem_components
  rw [normalPath]
  split
  case isTrue empty =>
    rw [String.isEmpty_iff.mp empty] at root names
    rw [components_empty, ← components_dot] at names
    exact ⟨root, names, by decide⟩
  case isFalse some => exact ⟨root, names, fun empty => some (String.isEmpty_iff.mpr empty)⟩

/-! ### Entries of a directory -/

/-- The path leads to an entry of the directory: it goes on with one more name, which leads nowhere up. -/
structure Enters (directory path name : String) : Prop where
  named : IsName name
  down : name ≠ ".."
  root : rootOf path = rootOf directory
  components : components path = components directory ++ [name]

theorem endsWith_slash {path : String} : path.endsWith "/" = true ↔ ['/'] <:+ path.toList := by
  rw [String.endsWith_eq_endsWith_toSlice, String.Slice.endsWith_string_iff, String.copy_toSlice]
  rfl

theorem joinPath_enters {directory name : String} (some : directory ≠ "") (named : IsName name)
    (down : name ≠ "..") : Enters directory (joinPath directory name) name := by
  have alone := components_name named
  rw [joinPath]
  split
  case isTrue here =>
    rw [beq_iff_eq] at here
    subst here
    have root : rootOf name = "" := @rootOf_append "" name (.inr (head_of_isName named))
    exact ⟨named, down, root, by rw [alone, components_dot, List.nil_append]⟩
  case isFalse =>
    split
    case isTrue slash =>
      obtain ⟨front, whole⟩ := endsWith_slash.mp slash
      have shown : directory = ofList front ++ "/" := by
        rw [← String.toList_inj, String.toList_append, String.toList_ofList]
        exact whole.symm
      refine ⟨named, down, rootOf_append (.inr (head_of_isName named)), ?_⟩
      have names := components_slash (ofList front) ""
      rw [String.append_empty, components_empty, List.append_nil] at names
      rw [shown, components_slash, names, alone]
    case isFalse other =>
      have last : ∃ c ∈ directory.toList, c ≠ '/' := by
        by_contra! slashes
        obtain ⟨front, c, chars⟩ := (List.eq_nil_or_concat' directory.toList).resolve_left
          fun none => some (String.toList_eq_nil_iff.mp none)
        have slash := slashes c (chars ▸ List.mem_append_right _ (List.mem_singleton_self c))
        exact other (endsWith_slash.mpr ⟨front, by rw [chars, slash]⟩)
      refine ⟨named, down, ?_, by rw [components_slash, alone]⟩
      rw [String.append_assoc]
      exact rootOf_append (.inl last)

theorem deliver_enters {directory name : String} (named : IsName name) (down : name ≠ "..") :
    Enters directory (joinPath (normalPath directory) name) name := by
  obtain ⟨root, names, some⟩ := normalPath_spec directory
  have entry := joinPath_enters some named down
  exact ⟨named, down, entry.root.trans root, entry.components.trans (by rw [names])⟩

end ZigBindings.CommandLine
