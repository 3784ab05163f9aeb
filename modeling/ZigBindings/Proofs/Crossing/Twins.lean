import ZigBindings.Crossing.Sequence
import ZigBindings.Proofs.Types.Twins

/-! Sequences for types that belong together. They are the same but for the numbers of the definitions
that some instructions name. -/

namespace ZigBindings

variable {R : Nat → Nat → Prop}

def Instruction.isUnnumbered : Instruction → Bool
  | listCanonLower _ | listCanonLift _ | listLower _ _ _ | listLift _ _ | tupleLower _ _ | tupleLift _ _
  | recordLower _ | recordLift _ | enumLower _ | enumLift _ | optionLower _ _ | optionLift _
  | callInterface _ => false
  | _ => true

inductive Instruction.Alike (R : Nat → Nat → Prop) : Instruction → Instruction → Prop where
  | plain {i : Instruction} : i.isUnnumbered = true → Alike R i i
  | listCanonLower {t u : Ty} : t.Alike R u → Alike R (.listCanonLower t) (.listCanonLower u)
  | listCanonLift {t u : Ty} : t.Alike R u → Alike R (.listCanonLift t) (.listCanonLift u)
  | listLower {t u : Ty} (size align : Nat) : t.Alike R u →
    Alike R (.listLower t size align) (.listLower u size align)
  | listLift {t u : Ty} (size : Nat) : t.Alike R u → Alike R (.listLift t size) (.listLift u size)
  | tupleLower {i j : Nat} (arity : Nat) : R i j → Alike R (.tupleLower i arity) (.tupleLower j arity)
  | tupleLift {i j : Nat} (arity : Nat) : R i j → Alike R (.tupleLift i arity) (.tupleLift j arity)
  | recordLower {i j : Nat} : R i j → Alike R (.recordLower i) (.recordLower j)
  | recordLift {i j : Nat} : R i j → Alike R (.recordLift i) (.recordLift j)
  | enumLower {i j : Nat} : R i j → Alike R (.enumLower i) (.enumLower j)
  | enumLift {i j : Nat} : R i j → Alike R (.enumLift i) (.enumLift j)
  | optionLower {t u : Ty} (results : List Slot) : t.Alike R u →
    Alike R (.optionLower t results) (.optionLower u results)
  | optionLift {t u : Ty} : t.Alike R u → Alike R (.optionLift t) (.optionLift u)
  | callInterface {f g : Function} : f.Alike R g → Alike R (.callInterface f) (.callInterface g)

/-- The same instructions, up to the numbers of definitions. -/
abbrev CodeAlike (R : Nat → Nat → Prop) : List Instruction → List Instruction → Prop :=
  List.Forall₂ (Instruction.Alike R)

namespace CodeAlike

theorem plain {code : List Instruction} (plain : ∀ i ∈ code, i.isUnnumbered = true) : CodeAlike R code code :=
  List.forall₂_same.mpr fun i member => .plain (plain i member)

theorem append {code others more also : List Instruction} (first : CodeAlike R code others)
    (second : CodeAlike R more also) : CodeAlike R (code ++ more) (others ++ also) :=
  List.rel_append first second

theorem flatten {parts others : List (List Instruction)} (alike : List.Forall₂ (CodeAlike R) parts others) :
    CodeAlike R parts.flatten others.flatten := List.rel_flatten alike

end CodeAlike

namespace Crossing
open Instruction

/-- Ways to move a value that agree on types which belong together. -/
def Converter.Alike (R : Nat → Nat → Prop) (convert other : Converter) : Prop :=
  ∀ t u, t.Alike R u → Agree (CodeAlike R) (convert t) (other u)

def Mover.Alike (R : Nat → Nat → Prop) (move other : Mover) : Prop :=
  ∀ t u (address : Instruction) (offset : Nat), t.Alike R u → address.isUnnumbered = true →
    Agree (CodeAlike R) (move t address offset) (other u address offset)

theorem zip_alike {α β γ : Type} {related : α → β → Prop} {xs : List α} {ys : List β}
    (pairs : List.Forall₂ related xs ys) (others : List γ) :
    List.Forall₂ (fun p q => related p.1 q.1 ∧ p.2 = q.2) (xs.zip others) (ys.zip others) := by
  induction pairs generalizing others with
  | nil => exact .nil
  | cons first _ ih =>
    cases others with
    | nil => exact .nil
    | cons other others => exact .cons ⟨first, rfl⟩ (ih others)

theorem plain_rollTo (depth : Nat) : ∀ i ∈ rollTo depth, i.isUnnumbered = true := by
  rw [rollTo]
  split <;> simp [isUnnumbered]

theorem plain_zeros (slots : List Slot) : ∀ i ∈ zeros slots, i.isUnnumbered = true := by
  rw [zeros]
  split <;> simp [isUnnumbered]

section
variable {a b : Arena} {t u : Ty} (twins : Twins R a b)
include twins

theorem signature_agree (direction : Direction) {f g : Function} (alike : f.Alike R g) :
    Agree Eq (signature a direction f) (signature b direction g) := by
  refine (twins.flattenAll (types_alike alike.params)).bind_eq fun params => ?_
  exact (twins.flattenAll alike.types).bind_eq fun results => .rfl

/-! ### Memory -/

theorem isCanonical_agree (same : t.Alike R u) : Agree Eq (isCanonical a t) (isCanonical b u) := by
  refine (twins.unalias same).bind fun _ _ alike => ?_
  cases alike <;> exact .rfl

section
variable {move other : Mover} (alike : Mover.Alike R move other)
include alike

theorem lowerList_agree (same : t.Alike R u) :
    Agree (CodeAlike R) (lowerList a move t) (lowerList b other u) := by
  refine (isCanonical_agree twins same).bind_eq fun canonical => ?_
  split
  · exact .pure (.cons (.listCanonLower same) .nil)
  · refine (alike t u iterBasePointer 0 same rfl).bind fun body code matching => ?_
    refine (twins.measure same).bind_eq fun extent => .pure ?_
    exact ((CodeAlike.plain (by simp [isUnnumbered])).append matching).append
      (.cons (.plain rfl) (.cons (.listLower _ _ same) .nil))

theorem liftList_agree (same : t.Alike R u) :
    Agree (CodeAlike R) (liftList a move t) (liftList b other u) := by
  refine (isCanonical_agree twins same).bind_eq fun canonical => ?_
  split
  · exact .pure (.cons (.listCanonLift same) .nil)
  · refine (alike t u iterBasePointer 0 same rfl).bind fun body code matching => ?_
    refine (twins.measure same).bind_eq fun extent => .pure ?_
    exact ((CodeAlike.plain (by simp [isUnnumbered])).append matching).append
      (.cons (.plain rfl) (.cons (.listLift _ same) .nil))

variable {types others : List Ty} (same : List.Forall₂ (Ty.Alike R) types others) {address : Instruction}
  (plain : address.isUnnumbered = true)
include same plain

theorem writeFields_agree (offset : Nat) :
    Agree (CodeAlike R) (writeFields a move types address offset) (writeFields b other others address offset) := by
  refine (twins.fieldOffsets same).bind_eq fun offsets => ?_
  refine (Agree.mapM (List.forall₂_reverse_iff.mpr (zip_alike same offsets))
    fun (t, o) (u, p) ⟨matching, level⟩ => ?_).bind fun _ _ parts => .pure (CodeAlike.flatten parts)
  cases level
  exact alike t u address _ matching plain

theorem readFields_agree (offset : Nat) :
    Agree (CodeAlike R) (readFields a move types address offset) (readFields b other others address offset) := by
  refine (twins.fieldOffsets same).bind_eq fun offsets => ?_
  refine (Agree.mapM (zip_alike same offsets)
    fun (t, o) (u, p) ⟨matching, level⟩ => ?_).bind fun _ _ parts => .pure (CodeAlike.flatten parts)
  cases level
  exact alike t u address _ matching plain

end

theorem writeWithin_agree (depth : Nat) : Mover.Alike R (writeWithin a depth) (writeWithin b depth) := by
  induction depth with
  | zero => exact fun _ _ _ _ _ _ => .throw _ _
  | succ depth ih =>
    intro t u address offset same plain
    refine (twins.unalias same).bind fun core other alike => ?_
    cases alike with
    | prim p =>
      dsimp only
      split
      · exact .pure (CodeAlike.plain (by simpa [isUnnumbered, storePair] using plain))
      · exact .pure (CodeAlike.plain (by simpa [isUnnumbered] using plain))
    | @ref i j same =>
      refine (twins.kinds i j same).bind fun kind other alike => ?_
      cases alike with
      | tuple elements =>
        refine (writeFields_agree twins ih elements plain offset).bind fun _ _ parts => .pure ?_
        rw [elements.length_eq]
        exact .cons (.tupleLower _ same) parts
      | record fields =>
        refine (writeFields_agree twins ih (types_alike fields) plain offset).bind fun _ _ parts => .pure ?_
        exact .cons (.recordLower same) parts
      | enumeration cases =>
        exact .pure (.cons (.enumLower same) (CodeAlike.plain (by simpa [isUnnumbered] using plain)))
      | list element =>
        refine (lowerList_agree twins ih element).bind fun _ _ parts => .pure ?_
        exact parts.append (.plain (by simpa [isUnnumbered, storePair] using plain))
      | option payload =>
        refine (twins.payloadOffset same).bind_eq fun start => ?_
        refine (ih _ _ address _ payload plain).bind fun _ _ parts => .pure ?_
        exact ((CodeAlike.plain (by simpa [isUnnumbered] using plain)).append parts).append
          (.cons (.plain rfl) (.cons (.optionLower _ payload) .nil))
      | _ => exact .throw _ _

theorem readWithin_agree (depth : Nat) : Mover.Alike R (readWithin a depth) (readWithin b depth) := by
  induction depth with
  | zero => exact fun _ _ _ _ _ _ => .throw _ _
  | succ depth ih =>
    intro t u address offset same plain
    refine (twins.unalias same).bind fun core other alike => ?_
    cases alike with
    | prim p =>
      dsimp only
      split
      · exact .pure (CodeAlike.plain (by simpa [isUnnumbered, loadPair] using plain))
      · exact .pure (CodeAlike.plain (by simpa [isUnnumbered] using plain))
    | @ref i j same =>
      refine (twins.kinds i j same).bind fun kind other alike => ?_
      cases alike with
      | tuple elements =>
        refine (readFields_agree twins ih elements plain offset).bind fun _ _ parts => .pure ?_
        rw [elements.length_eq]
        exact parts.append (.cons (.tupleLift _ same) .nil)
      | record fields =>
        refine (readFields_agree twins ih (types_alike fields) plain offset).bind fun _ _ parts => .pure ?_
        exact parts.append (.cons (.recordLift same) .nil)
      | enumeration cases =>
        exact .pure (.cons (.plain plain) (.cons (.plain rfl) (.cons (.enumLift same) .nil)))
      | list element =>
        refine (liftList_agree twins ih element).bind fun _ _ parts => .pure ?_
        exact (CodeAlike.plain (by simpa [isUnnumbered, loadPair] using plain)).append parts
      | option payload =>
        refine (twins.payloadOffset same).bind_eq fun start => ?_
        refine (ih _ _ address _ payload plain).bind fun _ _ parts => .pure ?_
        exact ((CodeAlike.plain (by simpa [isUnnumbered] using plain)).append parts).append
          (.cons (.plain rfl) (.cons (.optionLift payload) .nil))
      | _ => exact .throw _ _

theorem write_agree : Mover.Alike R (write a) (write b) := by
  rw [write, write, Arena.depth, Arena.depth, twins.size]
  exact writeWithin_agree twins _

theorem read_agree : Mover.Alike R (read a) (read b) := by
  rw [read, read, Arena.depth, Arena.depth, twins.size]
  exact readWithin_agree twins _

/-! ### Flat slots -/

section
variable {convert other : Converter} (alike : Converter.Alike R convert other)
include alike

theorem lowerFields_agree (lowered : Nat) {types others : List Ty}
    (same : List.Forall₂ (Ty.Alike R) types others) :
    Agree (CodeAlike R) (lowerFields a convert lowered types) (lowerFields b other lowered others) := by
  induction same generalizing lowered with
  | nil => exact .pure .nil
  | cons first rest ih =>
    refine (alike _ _ first).bind fun _ _ part => ?_
    refine (twins.flatten first).bind_eq fun slots => ?_
    refine (ih _).bind fun _ _ parts => .pure ?_
    rw [rest.length_eq]
    exact ((CodeAlike.plain (plain_rollTo _)).append part).append parts

omit twins in
theorem liftFields_agree (lifted : Nat) {fields others : List (Ty × Nat)}
    (same : List.Forall₂ (fun p q => p.1.Alike R q.1 ∧ p.2 = q.2) fields others) :
    Agree (CodeAlike R) (liftFields convert lifted fields) (liftFields other lifted others) := by
  have widths : widthOf fields = widthOf others := by
    clear alike
    induction same with
    | nil => rfl
    | cons first _ ih => rw [widthOf, widthOf, first.2, ih]
  induction same generalizing lifted with
  | nil => exact .pure .nil
  | @cons p q _ _ first rest ih =>
    obtain ⟨first, level⟩ := first
    rw [widthOf, widthOf, level] at widths
    have widths := Nat.add_left_cancel widths
    refine (alike _ _ first).bind fun _ _ part => ?_
    refine (ih _ widths).bind fun _ _ parts => .pure ?_
    rw [level, widths]
    refine (CodeAlike.append (.plain fun i member => ?_) part).append parts
    obtain ⟨code, inside, member⟩ := List.mem_flatten.mp member
    cases List.eq_of_mem_replicate inside
    exact plain_rollTo _ i member

theorem liftRecord_agree {types others : List Ty} (same : List.Forall₂ (Ty.Alike R) types others) :
    Agree (CodeAlike R) (liftRecord a convert types) (liftRecord b other others) := by
  refine (Agree.mapM_eq same fun _ _ => twins.flatten).bind_eq fun rows => ?_
  exact liftFields_agree alike 0 (zip_alike same _)

end

theorem lowerWithin_agree (depth : Nat) : Converter.Alike R (lowerWithin a depth) (lowerWithin b depth) := by
  induction depth with
  | zero => exact fun _ _ _ => .throw _ _
  | succ depth ih =>
    intro t u same
    refine (twins.unalias same).bind fun core other alike => ?_
    cases alike with
    | prim p => cases p <;> exact .pure (.cons (.plain rfl) .nil)
    | @ref i j same =>
      refine (twins.kinds i j same).bind fun kind other alike => ?_
      cases alike with
      | tuple elements =>
        refine (lowerFields_agree twins ih 0 elements).bind fun _ _ parts => .pure ?_
        rw [elements.length_eq]
        exact .cons (.tupleLower _ same) parts
      | record fields =>
        refine (lowerFields_agree twins ih 0 (types_alike fields)).bind fun _ _ parts => .pure ?_
        exact .cons (.recordLower same) parts
      | enumeration cases => exact .pure (.cons (.enumLower same) .nil)
      | list element => exact lowerList_agree twins (write_agree twins) element
      | option payload =>
        refine (twins.flatten payload).bind_eq fun slots => ?_
        refine (ih _ _ payload).bind fun _ _ part => .pure ?_
        refine CodeAlike.append (CodeAlike.append (.plain fun i member => ?_) part)
          (.cons (.plain rfl) (.cons (.optionLower _ payload) .nil))
        have zeros := plain_zeros slots i
        simp only [List.mem_append, List.mem_cons, List.not_mem_nil, or_false] at member
        rcases member with (((rfl | rfl) | member) | rfl) | (rfl | rfl | rfl)
        all_goals first | rfl | exact zeros member
      | _ => exact .throw _ _

theorem liftWithin_agree (depth : Nat) : Converter.Alike R (liftWithin a depth) (liftWithin b depth) := by
  induction depth with
  | zero => exact fun _ _ _ => .throw _ _
  | succ depth ih =>
    intro t u same
    refine (twins.unalias same).bind fun core other alike => ?_
    cases alike with
    | prim p => cases p <;> exact .pure (.cons (.plain rfl) .nil)
    | @ref i j same =>
      refine (twins.kinds i j same).bind fun kind other alike => ?_
      cases alike with
      | tuple elements =>
        refine (liftRecord_agree twins ih elements).bind fun _ _ parts => .pure ?_
        rw [elements.length_eq]
        exact parts.append (.cons (.tupleLift _ same) .nil)
      | record fields =>
        refine (liftRecord_agree twins ih (types_alike fields)).bind fun _ _ parts => .pure ?_
        exact parts.append (.cons (.recordLift same) .nil)
      | enumeration cases => exact .pure (.cons (.enumLift same) .nil)
      | list element => exact liftList_agree twins (read_agree twins) element
      | option payload =>
        refine (twins.flatten payload).bind_eq fun slots => ?_
        refine (ih _ _ payload).bind fun _ _ part => .pure ?_
        exact ((CodeAlike.plain (by simp [isUnnumbered])).append part).append
          (.cons (.plain rfl) (.cons (.optionLift payload) .nil))
      | _ => exact .throw _ _

theorem lower_agree : Converter.Alike R (lower a) (lower b) := by
  rw [lower, lower, Arena.depth, Arena.depth, twins.size]
  exact lowerWithin_agree twins _

theorem lift_agree : Converter.Alike R (lift a) (lift b) := by
  rw [lift, lift, Arena.depth, Arena.depth, twins.size]
  exact liftWithin_agree twins _

/-! ### Functions -/

section
variable {types others : List Ty} (same : List.Forall₂ (Ty.Alike R) types others)
include same

theorem lowerArguments_agree (nth : Nat) :
    Agree (CodeAlike R) (lowerArguments a nth types) (lowerArguments b nth others) := by
  induction same generalizing nth with
  | nil => exact .pure .nil
  | cons first _ ih =>
    refine (lower_agree twins _ _ first).bind fun _ _ part => ?_
    exact (ih _).bind fun _ _ parts => .pure (CodeAlike.append (.cons (.plain rfl) part) parts)

theorem liftArguments_agree (nth : Nat) :
    Agree (CodeAlike R) (liftArguments a nth types) (liftArguments b nth others) := by
  induction same generalizing nth with
  | nil => exact .pure .nil
  | cons first _ ih =>
    refine (twins.flatten first).bind_eq fun slots => ?_
    refine (lift_agree twins _ _ first).bind fun _ _ part => ?_
    refine (ih _).bind fun _ _ parts => .pure (CodeAlike.append (CodeAlike.append ?_ part) parts)
    refine .plain fun i member => ?_
    obtain ⟨_, -, rfl⟩ := List.mem_map.mp member
    rfl

theorem passOut_agree (indirect : Bool) :
    Agree (CodeAlike R) (passOut a indirect types) (passOut b indirect others) := by
  rw [passOut, passOut]
  split
  · exact lowerArguments_agree twins same 0
  · refine (twins.recordLayout same).bind_eq fun extent => ?_
    refine (twins.fieldOffsets same).bind_eq fun offsets => ?_
    have each : ∀ {fields others : List (Ty × Nat)},
        List.Forall₂ (fun p q => p.1.Alike R q.1 ∧ p.2 = q.2) fields others → ∀ nth,
          Agree (CodeAlike R) (writeArguments a (paramPointer extent.size extent.align) nth fields)
            (writeArguments b (paramPointer extent.size extent.align) nth others) := by
      intro fields others pairs
      induction pairs with
      | nil => exact fun _ => .pure .nil
      | @cons p q _ _ first _ ih =>
        intro nth
        obtain ⟨first, level⟩ := first
        rw [writeArguments, writeArguments, level]
        refine (write_agree twins _ _ _ _ first rfl).bind fun _ _ part => ?_
        exact (ih _).bind fun _ _ parts => .pure (CodeAlike.append (.cons (.plain rfl) part) parts)
    refine (each (zip_alike same offsets) 0).bind fun _ _ parts => .pure ?_
    exact parts.append (.cons (.plain rfl) .nil)

end

variable {f g : Function} (alike : f.Alike R g)
include alike

theorem outward_agree : Agree (CodeAlike R) (outward a f) (outward b g) := by
  refine (signature_agree twins .outward alike).bind_eq fun sig => ?_
  refine (passOut_agree twins (types_alike alike.params) _).bind fun _ _ arguments => ?_
  have call : CodeAlike R [callWasm f.name sig] [callWasm g.name sig] := by
    rw [alike.name]
    exact .plain (by simp [isUnnumbered])
  have leave : ∀ types others : List Ty, List.Forall₂ (Ty.Alike R) types others →
      CodeAlike R [ret types.length] [ret others.length] := fun _ _ same => by
    rw [same.length_eq]
    exact .plain (by simp [isUnnumbered])
  dsimp only
  split
  · refine (twins.recordLayout alike.types).bind_eq fun extent => ?_
    refine (readFields_agree twins (read_agree twins) alike.types rfl 0).bind fun _ _ lifted => .pure ?_
    exact ((arguments.append (.cons (.plain rfl) call)).append lifted).append (leave _ _ alike.types)
  · refine (Agree.mapM alike.types (lift_agree twins)).bind fun _ _ parts => .pure ?_
    exact ((arguments.append call).append (CodeAlike.flatten parts)).append (leave _ _ alike.types)

theorem inward_agree : Agree (CodeAlike R) (inward a f) (inward b g) := by
  refine (signature_agree twins .inward alike).bind_eq fun sig => ?_
  have params := types_alike alike.params
  have call : CodeAlike R [callInterface f] [callInterface g] := .cons (.callInterface alike) .nil
  have rest : ∀ code others, CodeAlike R code others → Agree (CodeAlike R)
      (if sig.returnPointer then do
        let extent ← Layout.recordLayout a f.results.types
        let stored ← writeFields a (write a) f.results.types (returnPointer extent.size extent.align) 0
        pure (code ++ [callInterface f] ++ stored ++ [returnPointer extent.size extent.align, ret 1])
      else do
        let parts ← f.results.types.mapM (lower a)
        pure (code ++ [callInterface f] ++ parts.flatten ++ [ret sig.results.length]))
      (if sig.returnPointer then do
        let extent ← Layout.recordLayout b g.results.types
        let stored ← writeFields b (write b) g.results.types (returnPointer extent.size extent.align) 0
        pure (others ++ [callInterface g] ++ stored ++ [returnPointer extent.size extent.align, ret 1])
      else do
        let parts ← g.results.types.mapM (lower b)
        pure (others ++ [callInterface g] ++ parts.flatten ++ [ret sig.results.length])) := by
    intro code others arguments
    split
    · refine (twins.recordLayout alike.types).bind_eq fun extent => ?_
      refine (writeFields_agree twins (write_agree twins) alike.types rfl 0).bind fun _ _ stored => .pure ?_
      exact ((arguments.append call).append stored).append (.plain (by simp [isUnnumbered]))
    · refine (Agree.mapM alike.types (lower_agree twins)).bind fun _ _ parts => .pure ?_
      exact ((arguments.append call).append (CodeAlike.flatten parts)).append (.plain (by simp [isUnnumbered]))
  dsimp only
  split
  · exact (readFields_agree twins (read_agree twins) params rfl 0).bind rest
  · exact (liftArguments_agree twins params 0).bind rest

theorem sequence_agree (direction : Direction) :
    Agree (CodeAlike R) (sequence a direction f) (sequence b direction g) := by
  cases direction with
  | outward => exact outward_agree twins alike
  | inward => exact inward_agree twins alike

end

end Crossing

end ZigBindings
