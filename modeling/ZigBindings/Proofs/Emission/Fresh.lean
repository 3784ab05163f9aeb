import Mathlib.Data.List.Perm.Subperm
import Mathlib.Data.List.Nodup
import ZigBindings.Emission.State

/-! Names that an emission hands out. A numbered name is never in use before, and neither is one that
is taken as it is. The names of an option's slots are not asked for; they are told apart from all
other names by the mark in front of their numbers. -/

namespace ZigBindings.Emission

theorem toString_injective {n m : Nat} (same : toString n = toString m) : n = m := by
  have digits : Nat.toDigits 10 n = Nat.toDigits 10 m :=
    Nat.toList_repr.symm.trans ((congrArg String.toList same).trans Nat.toList_repr)
  have read := congrArg (fun digits => Nat.ofDigitChars 10 digits 0) digits
  simpa using read

theorem numbered_injective {stem : String} {n m : Nat} (same : numbered stem n = numbered stem m) :
    n = m :=
  toString_injective ((String.append_right_inj stem).mp same)

theorem freeNumber_taken {used : List String} {stem : String} {n tries : Nat}
    (taken : numbered stem (freeNumber used stem n tries) ∈ used) :
    ∀ k ≤ tries, numbered stem (n + k) ∈ used := by
  induction tries generalizing n with
  | zero =>
    intro k le
    obtain rfl : k = 0 := by omega
    exact taken
  | succ tries ih =>
    rw [freeNumber] at taken
    split at taken
    case isTrue first =>
      intro k le
      rcases k with _ | k
      · exact List.contains_iff_mem.mp first
      · rw [Nat.add_comm k, ← Nat.add_assoc]
        exact ih taken k (by omega)
    case isFalse free => exact absurd (List.contains_iff_mem.mpr taken) free

/-- There are more numbers to try than names in use. -/
theorem freeNumber_fresh (used : List String) (stem : String) (n : Nat) :
    numbered stem (freeNumber used stem n used.length) ∉ used := by
  intro taken
  have candidates := freeNumber_taken taken
  have apart : ((List.range (used.length + 1)).map fun k => numbered stem (n + k)).Nodup :=
    List.nodup_range.map fun i j same => by have := numbered_injective same; omega
  have inside : ((List.range (used.length + 1)).map fun k => numbered stem (n + k)) ⊆ used := by
    intro x member
    obtain ⟨k, below, rfl⟩ := List.mem_map.mp member
    exact candidates k (by have := List.mem_range.mp below; omega)
  have count := (apart.subperm inside).length_le
  rw [List.length_map, List.length_range] at count
  omega

/-- The two are the same but for the names in use and their counters. -/
structure SameCode (s s' : Emission) : Prop where
  body : s'.body = s.body
  params : s'.params = s.params
  operands : s'.operands = s.operands
  frames : s'.frames = s.frames
  blocks : s'.blocks = s.blocks
  returnArea : s'.returnArea = s.returnArea
  paramArea : s'.paramArea = s.paramArea

namespace SameCode

variable {s s' s'' : Emission}

theorem refl (s : Emission) : SameCode s s := ⟨rfl, rfl, rfl, rfl, rfl, rfl, rfl⟩

theorem trans (first : SameCode s s') (second : SameCode s' s'') : SameCode s s'' where
  body := second.body.trans first.body
  params := second.params.trans first.params
  operands := second.operands.trans first.operands
  frames := second.frames.trans first.frames
  blocks := second.blocks.trans first.blocks
  returnArea := second.returnArea.trans first.returnArea
  paramArea := second.paramArea.trans first.paramArea

end SameCode

section
variable (s : Emission) (name stem : String)

theorem use_same : SameCode s (s.use name) := by
  unfold use
  split <;> exact ⟨rfl, rfl, rfl, rfl, rfl, rfl, rfl⟩

theorem tmp_same : SameCode s (s.tmp stem).2 := by
  have counted : ∀ counters, SameCode s { s with counters } := fun _ =>
    ⟨rfl, rfl, rfl, rfl, rfl, rfl, rfl⟩
  exact (counted _).trans (use_same _ _)

theorem fresh_same : SameCode s (s.fresh name).2 := by
  unfold fresh
  split
  · exact s.tmp_same name
  · exact s.use_same name

theorem reserve_same (names : List String) : SameCode s (s.reserve names) := by
  induction names generalizing s with
  | nil => exact .refl s
  | cons first rest ih => exact (s.use_same first).trans (ih (s.use first))

theorem mem_use {x : String} : x ∈ (s.use name).used ↔ x ∈ s.used ∨ x = name := by
  unfold use
  split
  case isTrue known =>
    refine ⟨.inl, ?_⟩
    rintro (old | rfl)
    · exact old
    · exact List.contains_iff_mem.mp known
  case isFalse => rw [List.mem_append, List.mem_singleton]

theorem mem_reserve {names : List String} {x : String} :
    x ∈ (s.reserve names).used ↔ x ∈ s.used ∨ x ∈ names := by
  induction names generalizing s with
  | nil => simp [reserve]
  | cons first rest ih =>
    rw [reserve, List.foldl_cons, ← reserve, ih, mem_use, List.mem_cons, or_assoc]

theorem mem_tmp {x : String} : x ∈ (s.tmp stem).2.used ↔ x ∈ s.used ∨ x = (s.tmp stem).1 :=
  mem_use _ _

theorem tmp_unused : (s.tmp stem).1 ∉ s.used := freeNumber_fresh s.used stem _

theorem mem_fresh {x : String} : x ∈ (s.fresh name).2.used ↔ x ∈ s.used ∨ x = (s.fresh name).1 := by
  unfold fresh
  split
  · exact s.mem_tmp name
  · exact s.mem_use name

theorem fresh_free {name : String} (free : name ∉ s.used) : (s.fresh name).1 = name := by
  rw [fresh, if_neg (by rwa [List.contains_iff_mem])]

theorem fresh_taken {name : String} (taken : name ∈ s.used) : ∃ n, (s.fresh name).1 = numbered name n := by
  rw [fresh, if_pos (List.contains_iff_mem.mpr taken)]
  exact ⟨_, rfl⟩

theorem fresh_unused : (s.fresh name).1 ∉ s.used := by
  unfold fresh
  split
  · exact s.tmp_unused name
  case isFalse free => exact fun taken => free (List.contains_iff_mem.mpr taken)

end

def mark (x : String) : Option Char := (x.toList.reverse.dropWhile Char.isDigit).head?

theorem digits_reverse (n : Nat) : ∀ c ∈ (toString n).toList.reverse, c.isDigit = true := by
  intro c member
  have digits : (toString n).toList = Nat.toDigits 10 n := Nat.toList_repr
  rw [digits, List.mem_reverse] at member
  exact Nat.isDigit_of_mem_toDigits (by decide) (by decide) member

theorem mark_numbered (stem : String) (n : Nat) : mark (numbered stem n) = mark stem := by
  rw [mark, numbered, String.toList_append, List.reverse_append,
    List.dropWhile_append_of_pos (digits_reverse n), mark]

theorem tmp_mark (s : Emission) (stem : String) : mark (s.tmp stem).1 = mark stem := mark_numbered _ _

theorem fresh_mark (s : Emission) (name : String) : mark (s.fresh name).1 = mark name := by
  unfold fresh
  split
  · exact s.tmp_mark name
  · rfl

def lettered (x : String) : Bool := x.toList.head?.any Char.isAlpha

theorem lettered_append {x : String} (letter : lettered x = true) (rest : String) :
    lettered (x ++ rest) = true := by
  rw [lettered] at letter ⊢
  rw [String.toList_append]
  cases code : x.toList with
  | nil => rw [code] at letter; cases letter
  | cons c others => rwa [code] at letter

/-- Names with this stem start with a letter, and none is the name of a slot. -/
abbrev Stem (stem : String) : Prop := mark stem ≠ some '_' ∧ lettered stem = true

theorem tmp_lettered (s : Emission) {stem : String} (letter : lettered stem = true) :
    lettered (s.tmp stem).1 = true := lettered_append letter _

theorem tmp_stem (s : Emission) {stem : String} (clear : Stem stem) : Stem (s.tmp stem).1 :=
  ⟨by rw [tmp_mark]; exact clear.1, s.tmp_lettered clear.2⟩

theorem fresh_lettered (s : Emission) {name : String} (letter : lettered name = true) :
    lettered (s.fresh name).1 = true := by
  unfold fresh
  split
  · exact s.tmp_lettered letter
  · exact letter

def slotName (option : String) (i : Nat) : String := s!"{option}_{i}"

theorem slotName_reverse (option : String) (i : Nat) :
    (slotName option i).toList.reverse.dropWhile Char.isDigit = '_' :: option.toList.reverse := by
  have shape : (slotName option i).toList = option.toList ++ ('_' :: (toString i).toList) := by
    have text : slotName option i = option ++ "_" ++ toString i := rfl
    have line : ("_" : String).toList = ['_'] := by decide
    rw [text, String.toList_append, String.toList_append, line, List.append_assoc]
    rfl
  rw [shape, List.reverse_append, List.reverse_cons, List.append_assoc,
    List.dropWhile_append_of_pos (digits_reverse i)]
  rfl

theorem mark_slotName (option : String) (i : Nat) : mark (slotName option i) = some '_' := by
  rw [mark, slotName_reverse]
  rfl

theorem slotName_option {option other : String} {i j : Nat}
    (same : slotName option i = slotName other j) : option = other := by
  have reversed := slotName_reverse option i
  rw [same, slotName_reverse] at reversed
  exact String.toList_injective (List.reverse_injective (List.cons.inj reversed).2.symm)

theorem slotName_injective {option : String} {i j : Nat}
    (same : slotName option i = slotName option j) : i = j :=
  toString_injective ((String.append_right_inj (option ++ "_")).mp same)

/-- The name belongs to a slot of an option of this name. -/
def IsSlot (option x : String) : Prop := ∃ n i, option = numbered "option" n ∧ x = slotName option i

theorem IsSlot.mark_eq {option x : String} (slot : IsSlot option x) : mark x = some '_' := by
  obtain ⟨_, i, _, rfl⟩ := slot
  exact mark_slotName option i

theorem IsSlot.option_apart {option x outer : String} (slot : IsSlot option x) :
    ¬ IsSlot outer option := fun inner => by
  obtain ⟨n, _, rfl, _⟩ := slot
  have same := inner.mark_eq
  rw [mark_numbered] at same
  exact absurd same (by decide)

theorem IsSlot.unique {option other x : String} (first : IsSlot option x) (second : IsSlot other x) :
    option = other := by
  obtain ⟨_, _, _, same⟩ := first
  obtain ⟨_, _, _, also⟩ := second
  exact slotName_option (same.symm.trans also)

/-- Names have been handed out between two states. They are apart from each other and were not in
use before, unless they are names of slots, where there are options; these come with the names of
their options. -/
structure Hands (options : Prop) (s s' : Emission) (names : List String) : Prop where
  grows : s.used ⊆ s'.used
  taken : names ⊆ s'.used
  apart : names.Nodup
  unused : ∀ x ∈ names, x ∈ s.used → options ∧ ∃ option, IsSlot option x
  rooted : ∀ x ∈ names, ∀ option, IsSlot option x → option ∈ names
  letters : ∀ x ∈ names, lettered x = true

namespace Hands

variable {options : Prop} {s s' s'' : Emission} {first second : List String}

theorem refl (s : Emission) : Hands options s s [] :=
  ⟨fun _ => id, List.nil_subset _, .nil, by simp, by simp, by simp⟩

theorem trans (left : Hands options s s' first) (right : Hands options s' s'' second) :
    Hands options s s'' (first ++ second) where
  grows := fun x member => right.grows (left.grows member)
  taken := List.append_subset.mpr ⟨fun x member => right.grows (left.taken member), right.taken⟩
  apart := by
    refine List.nodup_append.mpr ⟨left.apart, right.apart, ?_⟩
    rintro x member _ again rfl
    obtain ⟨-, option, slot⟩ := right.unused x again (left.taken member)
    have known := left.taken (left.rooted x member option slot)
    obtain ⟨-, outer, nested⟩ := right.unused option (right.rooted x again option slot) known
    exact slot.option_apart nested
  unused := by
    intro x member known
    rcases List.mem_append.mp member with member | member
    · exact left.unused x member known
    · exact right.unused x member (left.grows known)
  rooted := by
    intro x member option slot
    rcases List.mem_append.mp member with member | member
    · exact List.mem_append_left _ (left.rooted x member option slot)
    · exact List.mem_append_right _ (right.rooted x member option slot)
  letters x member := (List.mem_append.mp member).elim (left.letters x) (right.letters x)

theorem congr (hands : Hands options s s' first) {t u : Emission} (before : t.used = s.used)
    (after : u.used = s'.used) : Hands options t u first where
  grows := by rw [before, after]; exact hands.grows
  taken := by rw [after]; exact hands.taken
  apart := hands.apart
  unused := by rw [before]; exact hands.unused
  rooted := hands.rooted
  letters := hands.letters

end Hands

theorem hands_single {options : Prop} {s s' : Emission} {name : String} (unused : name ∉ s.used)
    (grows : ∀ x, x ∈ s'.used ↔ x ∈ s.used ∨ x = name) (stem : Stem name) :
    Hands options s s' [name] where
  grows x member := (grows x).mpr (.inl member)
  taken x member := (grows x).mpr (.inr (List.mem_singleton.mp member))
  apart := List.nodup_singleton name
  unused x member known := by
    rw [List.mem_singleton.mp member] at known
    exact absurd known unused
  rooted x member option slot := by
    rw [List.mem_singleton.mp member] at slot
    exact absurd slot.mark_eq stem.1
  letters x member := by
    rw [List.mem_singleton.mp member]
    exact stem.2

theorem tmp_hands {options : Prop} (s : Emission) (stem : String) (clear : Stem stem) :
    Hands options s (s.tmp stem).2 [(s.tmp stem).1] :=
  hands_single (s.tmp_unused stem) (fun _ => s.mem_tmp stem) (s.tmp_stem clear)

theorem fresh_hands {options : Prop} (s : Emission) (name : String) (clear : Stem name) :
    Hands options s (s.fresh name).2 [(s.fresh name).1] :=
  hands_single (s.fresh_unused name) (fun _ => s.mem_fresh name)
    ⟨by rw [fresh_mark]; exact clear.1, s.fresh_lettered clear.2⟩

/-- An option's slots are named after it, and no one is asked whether the names are in use. -/
theorem slots_hands {options : Prop} (allowed : options) (s : Emission) (count : Nat) :
    Hands options s
      ((s.tmp "option").2.reserve ((List.range count).map (slotName (s.tmp "option").1)))
      ((s.tmp "option").1 :: (List.range count).map (slotName (s.tmp "option").1)) := by
  have option : Hands options s _ _ := s.tmp_hands "option" (by decide)
  have slot : ∀ x ∈ (List.range count).map (slotName (s.tmp "option").1),
      IsSlot (s.tmp "option").1 x := by
    intro x member
    obtain ⟨i, _, rfl⟩ := List.mem_map.mp member
    exact ⟨_, i, rfl, rfl⟩
  refine ⟨fun x member => (mem_reserve _).mpr (.inl (option.grows member)), ?_, ?_, ?_, ?_, ?_⟩
  · intro x member
    rcases List.mem_cons.mp member with rfl | member
    · exact (mem_reserve _).mpr (.inl (option.taken (by simp)))
    · exact (mem_reserve _).mpr (.inr member)
  · refine List.nodup_cons.mpr ⟨fun member => ?_, ?_⟩
    · exact (slot _ member).option_apart (slot _ member)
    · exact List.nodup_range.map fun i j same => slotName_injective same
  · intro x member known
    rcases List.mem_cons.mp member with rfl | member
    · exact absurd known (s.tmp_unused "option")
    · exact ⟨allowed, _, slot x member⟩
  · intro x member other isSlot
    rcases List.mem_cons.mp member with rfl | member
    · have same := isSlot.mark_eq
      rw [tmp_mark] at same
      exact absurd same (by decide)
    · rw [isSlot.unique (slot x member)]
      exact List.mem_cons_self
  · intro x member
    rcases List.mem_cons.mp member with rfl | member
    · exact s.tmp_lettered (by decide)
    · obtain ⟨i, _, rfl⟩ := List.mem_map.mp member
      have text : slotName (s.tmp "option").1 i = (s.tmp "option").1 ++ ("_" ++ toString i) :=
        String.append_assoc
      rw [text]
      exact lettered_append (s.tmp_lettered (by decide)) _

end ZigBindings.Emission
