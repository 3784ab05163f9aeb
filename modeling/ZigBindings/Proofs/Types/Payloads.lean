import Mathlib.Order.Bounds.Basic
import Mathlib.Order.Lattice
import Mathlib.Logic.Relation
import ZigBindings.Proofs.Types.Layouts

/-! Slots shared by the payloads of a sum type. Slots are ordered by what they can carry, and the shared
slot at a place is the least one that carries what every payload has there, so neither the order of the
cases nor repeated ones make a difference. -/

namespace ZigBindings

namespace Slot

/-- The bits of a small float fit an integer of the same width; bits of that integer and of a large
float fit the wide integer. -/
inductive Fits : Slot → Slot → Prop where
  | small : Fits f32 i32
  | widened : Fits i32 i64
  | large : Fits f64 i64

/-- One slot can carry all that another carries. -/
def Within : Slot → Slot → Prop := Relation.ReflTransGen Fits

theorem within_iff {a b : Slot} : a.Within b ↔ a = b ∨ b = i64 ∨ (a = f32 ∧ b = i32) := by
  constructor
  · intro within
    induction within with
    | refl => exact .inl rfl
    | tail _ last ih =>
      cases last with
      | small => exact .inr (.inr ⟨by simpa using ih, rfl⟩)
      | widened | large => exact .inr (.inl rfl)
  · rintro (rfl | rfl | ⟨rfl, rfl⟩)
    · exact .refl
    · cases a with
      | i32 => exact .single .widened
      | i64 => exact .refl
      | f32 => exact .tail (.single .small) .widened
      | f64 => exact .single .large
    · exact .single .small

instance (a b : Slot) : Decidable (a.Within b) := decidable_of_iff _ within_iff.symm

instance : SemilatticeSup Slot where
  le := Within
  sup := join
  le_refl _ := .refl
  le_trans _ _ _ := .trans
  le_antisymm a b := by cases a <;> cases b <;> decide
  le_sup_left a b := by cases a <;> cases b <;> decide
  le_sup_right a b := by cases a <;> cases b <;> decide
  sup_le a b c := by cases a <;> cases b <;> cases c <;> decide

theorem bits_le {a b : Slot} (within : a ≤ b) : a.bits ≤ b.bits := by
  rcases within_iff.mp within with rfl | rfl | ⟨rfl, rfl⟩
  · exact le_rfl
  · cases a <;> decide
  · exact le_rfl

end Slot

namespace Layout

theorem length_joinRows (first second : List Slot) :
    (joinRows first second).length = max first.length second.length := by
  fun_induction joinRows first second with
  | case1 a as b bs ih => simp only [List.length_cons, ih, Nat.succ_max_succ]
  | case2 => simp
  | case3 => simp

/-- What carries the slot of two joined rows at a place carries the slots that the rows have there. -/
theorem joinRows_le_iff {first second : List Slot} {i : Nat} {bound : Slot} :
    (∀ slot ∈ (joinRows first second)[i]?, slot ≤ bound) ↔
      (∀ slot ∈ first[i]?, slot ≤ bound) ∧ ∀ slot ∈ second[i]?, slot ≤ bound := by
  fun_induction joinRows first second generalizing i with
  | case1 a as b bs ih =>
    cases i with
    | zero =>
      have both : a.join b ≤ bound ↔ a ≤ bound ∧ b ≤ bound := sup_le_iff
      simpa using both
    | succ i => simpa using ih
  | case2 => simp
  | case3 => simp

section
variable {rows : List (List Slot)}

theorem length_joinAll_le_iff {n : Nat} :
    (joinAll rows).length ≤ n ↔ ∀ row ∈ rows, row.length ≤ n := by
  have folded : ∀ start : List Slot, (rows.foldl joinRows start).length ≤ n ↔
      start.length ≤ n ∧ ∀ row ∈ rows, row.length ≤ n := by
    induction rows with
    | nil => simp
    | cons row rest ih =>
      intro start
      rw [List.foldl_cons, ih, length_joinRows, max_le_iff, List.forall_mem_cons, and_assoc]
  simpa [joinAll] using folded []

theorem joinAll_le_iff {i : Nat} {bound : Slot} :
    (∀ slot ∈ (joinAll rows)[i]?, slot ≤ bound) ↔ ∀ row ∈ rows, ∀ slot ∈ row[i]?, slot ≤ bound := by
  have folded : ∀ start : List Slot, (∀ slot ∈ (rows.foldl joinRows start)[i]?, slot ≤ bound) ↔
      (∀ slot ∈ start[i]?, slot ≤ bound) ∧ ∀ row ∈ rows, ∀ slot ∈ row[i]?, slot ≤ bound := by
    induction rows with
    | nil => simp
    | cons row rest ih =>
      intro start
      rw [List.foldl_cons, ih, joinRows_le_iff, List.forall_mem_cons, and_assoc]
  simpa [joinAll] using folded []

/-- The slots that some rows have at a place. -/
def column (rows : Set (List Slot)) (i : Nat) : Set Slot := {slot | ∃ row ∈ rows, row[i]? = some slot}

theorem joinAll_isLUB {i : Nat} {slot : Slot} (found : (joinAll rows)[i]? = some slot) :
    IsLUB (column {row | row ∈ rows} i) slot := by
  refine isLUB_iff_le_iff.mpr fun bound => ?_
  have carries : (∀ other ∈ (joinAll rows)[i]?, other ≤ bound) ↔
      ∀ row ∈ rows, ∀ other ∈ row[i]?, other ≤ bound := joinAll_le_iff
  rw [found] at carries
  simp only [Option.mem_def, Option.some.injEq, forall_eq'] at carries
  rw [carries]
  constructor
  · rintro all other ⟨row, member, there⟩
    exact all row member other there
  · intro above row member other there
    exact above ⟨row, member, there⟩

theorem exists_longest (given : joinAll rows ≠ []) : ∃ row ∈ rows, row.length = (joinAll rows).length := by
  by_contra none
  push Not at none
  have within := length_joinAll_le_iff.mp (le_refl (joinAll rows).length)
  have shorter : (joinAll rows).length ≤ (joinAll rows).length - 1 :=
    length_joinAll_le_iff.mpr fun row member => by
      have le := within row member
      have differ := none row member
      omega
  have positive := List.length_pos_iff.mpr given
  omega

theorem joinAll_congr {others : List (List Slot)} (same : ∀ row, row ∈ rows ↔ row ∈ others) :
    joinAll rows = joinAll others := by
  have lengths : (joinAll rows).length = (joinAll others).length := by
    refine Nat.le_antisymm ?_ ?_
    · exact length_joinAll_le_iff.mpr fun row member =>
        length_joinAll_le_iff.mp le_rfl row ((same row).mp member)
    · exact length_joinAll_le_iff.mpr fun row member =>
        length_joinAll_le_iff.mp le_rfl row ((same row).mpr member)
  refine List.ext_getElem lengths fun i inside within => ?_
  have first := joinAll_isLUB (List.getElem?_eq_getElem inside)
  have second := joinAll_isLUB (List.getElem?_eq_getElem within)
  have columns : column {row | row ∈ rows} i = column {row | row ∈ others} i := by
    ext slot
    simp only [column, Set.mem_ofPred_eq, same]
  rw [columns] at first
  exact first.unique second

end

/-- The flat forms of the payloads. -/
def payloadRows (a : Arena) (cases : List (Option Ty)) : Set (List Slot) :=
  {row | ∃ ty, some ty ∈ cases ∧ flatten a ty = .ok row}

variable {a : Arena} {cases others : List (Option Ty)}

theorem payloadRows_congr (same : ∀ ty, some ty ∈ others ↔ some ty ∈ cases) :
    payloadRows a others = payloadRows a cases := by
  simp only [payloadRows, same]

theorem mem_of_mapM_flatten {rows : List (List Slot)}
    (done : (cases.filterMap fun c => c).mapM (flatten a) = .ok rows) :
    {row | row ∈ rows} = payloadRows a cases := by
  have each := mapM_eq_ok.mp done
  ext row
  constructor
  · intro member
    obtain ⟨ty, listed, flat⟩ := related_of_mem each.flip row member
    exact ⟨ty, by simpa using listed, flat⟩
  · rintro ⟨ty, listed, flat⟩
    obtain ⟨other, member, same⟩ := related_of_mem each ty (by simpa using listed)
    cases flat.symm.trans same
    exact member

theorem exists_payloadRows (wf : a.WellFounded) (inside : ∀ ty, some ty ∈ cases → a.InRange ty) :
    ∃ rows, flattenPayloads a cases = .ok (joinAll rows) ∧ {row | row ∈ rows} = payloadRows a cases := by
  have each : ∀ ty ∈ cases.filterMap fun c => c, Computes False (flatten a ty) fun _ => True :=
    fun ty member => by
      have founded := wf.founded (inside ty (by simpa using member))
      exact founded.flattenWithin_computes founded.depth_le
  obtain ⟨rows, done, -⟩ := (Computes.mapM_all each).exists_ok
  exact ⟨rows, by rw [flattenPayloads, done]; rfl, mem_of_mapM_flatten done⟩

/-- In a well-founded arena the slots shared by the payloads of some cases are as many as the longest
payload has. Each is the least upper bound of those that the payloads have at its place, so it is as wide
as each of them. In any order, with cases repeated, and with others that have no payload, the same cases
share the same slots. -/
theorem payloads_joined (wf : a.WellFounded) (inside : ∀ ty, some ty ∈ cases → a.InRange ty) :
    ∃ slots, flattenPayloads a cases = .ok slots ∧
      (∀ row ∈ payloadRows a cases, row.length ≤ slots.length) ∧
      (slots ≠ [] → ∃ row ∈ payloadRows a cases, row.length = slots.length) ∧
      (∀ i slot, slots[i]? = some slot → IsLUB (column (payloadRows a cases) i) slot ∧
        ∀ other ∈ column (payloadRows a cases) i, other.bits ≤ slot.bits) ∧
      ∀ others, (∀ ty, some ty ∈ others ↔ some ty ∈ cases) →
        flattenPayloads a others = .ok slots := by
  obtain ⟨rows, done, known⟩ := exists_payloadRows wf inside
  rw [← known]
  refine ⟨joinAll rows, done, length_joinAll_le_iff.mp le_rfl, exists_longest, fun i slot found => ?_,
    fun others same => ?_⟩
  · have least := joinAll_isLUB found
    exact ⟨least, fun other member => Slot.bits_le (least.1 member)⟩
  · obtain ⟨more, also, listed⟩ := exists_payloadRows wf fun ty member => inside ty ((same ty).mp member)
    have sets : {row | row ∈ more} = {row | row ∈ rows} :=
      listed.trans ((payloadRows_congr same).trans known.symm)
    rw [also, joinAll_congr (Set.ext_iff.mp sets)]

def readings : Arena := #[⟨.tuple [.prim .f32, .prim .u64], none⟩, ⟨.alias (.prim .f64), some "level"⟩]

/-- A small float and a large one share a wide slot, in whatever order they come. -/
theorem readings_joined : flattenPayloads readings [some (.ref 0), none, some (.ref 1)] = .ok [.i64, .i64] ∧
    flattenPayloads readings [some (.ref 1), some (.ref 0), some (.ref 1)] = .ok [.i64, .i64] := by
  have inside : ∀ ty, some ty ∈ [some (Ty.ref 0), none, some (.ref 1)] → readings.InRange ty := by
    rintro ty member id rfl
    simp only [List.mem_cons, Option.some.injEq, Ty.ref.injEq, reduceCtorEq, false_or, List.not_mem_nil,
      or_false] at member
    rcases member with rfl | rfl <;> decide
  obtain ⟨slots, done, -, -, -, steady⟩ := payloads_joined (.of_ordered (by decide)) inside
  have known : slots = [.i64, .i64] := Except.ok.inj (done.symm.trans (by decide))
  rw [known] at done steady
  exact ⟨done, steady _ fun ty => by simp only [List.mem_cons, reduceCtorEq, List.not_mem_nil]; tauto⟩

end Layout

end ZigBindings
