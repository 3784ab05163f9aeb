import ZigBindings.Proofs.Machine.Session

/-! How many operands instructions take and leave, whatever these operands are. A run that comes to
its end has closed its blocks, and has given no memory back. -/

namespace ZigBindings.Machine
open Instruction

structure Moved (takes gives : Nat) (s s' : State) : Prop where
  count : s'.operands.length + takes = s.operands.length + gives
  blocks : s'.blocks = s.blocks
  grows : ∀ x, Covered s.store.taken x → Covered s'.store.taken x

namespace Moved

variable {takes gives more others : Nat} {first second third : State}

theorem refl (s : State) : Moved 0 0 s s := ⟨rfl, rfl, fun _ covered => covered⟩

theorem trans (left : Moved takes gives first second) (right : Moved more others second third) :
    Moved (takes + more) (gives + others) first third where
  count := by
    have := left.count
    have := right.count
    omega
  blocks := right.blocks.trans left.blocks
  grows x covered := right.grows x (left.grows x covered)

theorem cast (moved : Moved takes gives first second) (same : takes + others = more + gives) :
    Moved more others first second where
  count := by
    have := moved.count
    omega
  blocks := moved.blocks
  grows := moved.grows

theorem push (s : State) (operand : Operand) : Moved 0 1 s (s.push operand) :=
  ⟨rfl, rfl, fun _ covered => covered⟩

theorem pushAll (s : State) (operands : List Operand) :
    Moved 0 operands.length s (s.pushAll operands) :=
  ⟨by simp [State.pushAll, Nat.add_comm], rfl, fun _ covered => covered⟩

end Moved

theorem popValue_moved {s s' : State} {v : Value} (popped : s.popValue = .ok (v, s')) :
    Moved 1 0 s s' := by
  unfold State.popValue at popped
  split at popped
  · rename_i rest stack
    cases popped
    exact ⟨by simp [stack], rfl, fun _ covered => covered⟩
  · cases popped

theorem popSlot_moved {s s' : State} {type : Slot} {bits : Nat}
    (popped : s.popSlot type = .ok (bits, s')) : Moved 1 0 s s' := by
  unfold State.popSlot at popped
  split at popped
  · rename_i rest stack
    split at popped
    · cases popped
      exact ⟨by simp [stack], rfl, fun _ covered => covered⟩
    · cases popped
  · cases popped

theorem popN_moved {s s' : State} {n : Nat} {operands : List Operand}
    (popped : s.popN n = .ok (operands, s')) : Moved n 0 s s' ∧ operands.length = n := by
  unfold State.popN at popped
  split at popped
  · rename_i enough
    cases popped
    refine ⟨⟨?_, rfl, fun _ covered => covered⟩, ?_⟩
    · simp only [List.length_drop]
      omega
    · simpa using enough
  · cases popped

theorem popSlice_moved {s s' : State} {size start length : Nat}
    (popped : popSlice s size = .ok (start, length, s')) : Moved 2 0 s s' := by
  unfold popSlice at popped
  obtain ⟨⟨_, middle⟩, first, popped⟩ := bind_eq_ok.mp popped
  obtain ⟨⟨_, last⟩, second, popped⟩ := bind_eq_ok.mp popped
  obtain ⟨_, -, popped⟩ := bind_eq_ok.mp popped
  cases popped
  exact (popSlot_moved first).trans (popSlot_moved second)

theorem allocate_grows {allocator : Allocator} {size align start : Nat} {st st' : Store}
    (given : st.allocate allocator size align = .ok (start, st')) :
    ∀ x, Covered st.taken x → Covered st'.taken x := by
  unfold Store.allocate at given
  split at given
  · cases given
    exact fun x covered => covered_cons.mpr (.inr covered)
  · cases given

/-- Code has a fixed effect on the number of operands, in a given arena. -/
def Shifts (a : Arena) (code : List Instruction) (takes gives : Nat) : Prop :=
  ∀ scope s s', scope.arena = a → run code scope s = .ok s' → Moved takes gives s s'

namespace Shifts

variable {a : Arena} {first second : List Instruction} {takes gives more others : Nat}

theorem nil : Shifts a [] 0 0 := by
  intro scope s s' _ ran
  cases ran
  exact .refl s

theorem append (left : Shifts a first takes gives) (right : Shifts a second more others)
    (balanced : Balanced first) (also : Balanced second) :
    Shifts a (first ++ second) (takes + more) (gives + others) := by
  intro scope s s' arena ran
  rw [run_append balanced also] at ran
  obtain ⟨middle, one, two⟩ := bind_eq_ok.mp ran
  exact (left scope s middle arena one).trans (right scope middle s' arena two)

theorem cast (shifts : Shifts a first takes gives) (same : takes + others = more + gives) :
    Shifts a first more others := fun scope s s' arena ran =>
  (shifts scope s s' arena ran).cast same

theorem single {inst : Instruction} (plain : isBracket inst = false)
    (stepped : ∀ scope s s', scope.arena = a → step scope s inst = .ok s' → Moved takes gives s s') :
    Shifts a [inst] takes gives := by
  intro scope s s' arena ran
  rw [run_single plain] at ran
  exact stepped scope s s' arena ran

end Shifts

section
variable {a : Arena}

theorem roll_shifts (depth : Nat) : Shifts a [roll depth] 0 0 := .single rfl (by
  intro scope s s' _ ran
  obtain ⟨operand, found, ran⟩ := bind_eq_ok.mp ran
  cases ran
  have inside : depth < s.operands.length := by
    by_contra outside
    rw [List.getElem?_eq_none (by omega)] at found
    cases found
  refine ⟨?_, rfl, fun _ covered => covered⟩
  simp only [List.length_cons, List.length_eraseIdx, if_pos inside]
  omega)

def fetches : Instruction → Bool
  | .getArg _ | .i32Const _ | .variantPayload | .iterElem | .iterBasePointer
  | .returnPointer _ _ | .paramPointer _ _ => true
  | _ => false

theorem fetch_shifts {inst : Instruction} (fetching : fetches inst = true) : Shifts a [inst] 0 1 := by
  have plain : isBracket inst = false := by cases inst <;> first | rfl | cases fetching
  refine .single plain fun scope s s' _ ran => ?_
  cases inst with
  | i32Const n =>
    cases ran
    exact .push s _
  | getArg _ | variantPayload | iterElem | iterBasePointer | returnPointer _ _ | paramPointer _ _ =>
    obtain ⟨operand, -, ran⟩ := bind_eq_ok.mp ran
    cases ran
    exact .push s _
  | _ => cases fetching

theorem numericWiden_shifts (src : Primitive) (dst : Slot) : Shifts a [.numericWiden src dst] 1 1 :=
  .single rfl (by
    intro scope s s' _ ran
    obtain ⟨_, -, ran⟩ := bind_eq_ok.mp ran
    obtain ⟨⟨v, middle⟩, popped, ran⟩ := bind_eq_ok.mp ran
    obtain ⟨bits, -, ran⟩ := bind_eq_ok.mp ran
    cases ran
    exact (popValue_moved popped).trans (.push middle _))

theorem numericNarrow_shifts (src : Slot) (dst : Primitive) : Shifts a [.numericNarrow src dst] 1 1 :=
  .single rfl (by
    intro scope s s' _ ran
    obtain ⟨_, -, ran⟩ := bind_eq_ok.mp ran
    obtain ⟨⟨bits, middle⟩, popped, ran⟩ := bind_eq_ok.mp ran
    obtain ⟨bits, -, ran⟩ := bind_eq_ok.mp ran
    cases ran
    exact (popSlot_moved popped).trans (.push middle _))

theorem enumLower_shifts (id : Nat) : Shifts a [.enumLower id] 1 1 := .single rfl (by
  intro scope s s' _ ran
  obtain ⟨count, -, ran⟩ := bind_eq_ok.mp ran
  obtain ⟨⟨v, middle⟩, popped, ran⟩ := bind_eq_ok.mp ran
  cases v with
  | choice index =>
    obtain ⟨_, -, ran⟩ := bind_eq_ok.mp ran
    cases ran
    exact (popValue_moved popped).trans (.push middle _)
  | _ => cases ran)

theorem enumLift_shifts (id : Nat) : Shifts a [.enumLift id] 1 1 := .single rfl (by
  intro scope s s' _ ran
  obtain ⟨count, -, ran⟩ := bind_eq_ok.mp ran
  obtain ⟨⟨index, middle⟩, popped, ran⟩ := bind_eq_ok.mp ran
  obtain ⟨_, -, ran⟩ := bind_eq_ok.mp ran
  cases ran
  exact (popSlot_moved popped).trans (.push middle _))

theorem load_shifts (access : Access) (offset : Nat) : Shifts a [.load access offset] 1 1 :=
  .single rfl (by
    intro scope s s' _ ran
    obtain ⟨⟨base, middle⟩, popped, ran⟩ := bind_eq_ok.mp ran
    obtain ⟨_, -, ran⟩ := bind_eq_ok.mp ran
    cases ran
    exact (popSlot_moved popped).trans (.push middle _))

theorem store_shifts (access : Access) (offset : Nat) : Shifts a [.store access offset] 2 0 :=
  .single rfl (by
    intro scope s s' _ ran
    obtain ⟨⟨base, middle⟩, first, ran⟩ := bind_eq_ok.mp ran
    obtain ⟨⟨bits, last⟩, second, ran⟩ := bind_eq_ok.mp ran
    obtain ⟨_, -, ran⟩ := bind_eq_ok.mp ran
    cases ran
    have popped := (popSlot_moved first).trans (popSlot_moved second)
    exact ⟨popped.count, popped.blocks, popped.grows⟩)

theorem zeros_shifts (slots : List Slot) : Shifts a (Crossing.zeros slots) 0 slots.length := by
  unfold Crossing.zeros
  cases slots with
  | nil => exact .nil
  | cons slot slots =>
    refine .single rfl fun scope s s' _ ran => ?_
    cases ran
    exact (Moved.pushAll s _).cast (by simp)

end

end ZigBindings.Machine
