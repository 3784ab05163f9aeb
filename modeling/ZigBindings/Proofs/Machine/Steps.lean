import ZigBindings.Crossing.Flat
import ZigBindings.Proofs.Machine.Reach

/-! Single steps of the machine, on stacks that are written as pushes. -/

namespace ZigBindings.Machine
open Instruction

namespace State

variable (s : State)

@[simp] theorem push_operands (operand : Operand) : (s.push operand).operands = operand :: s.operands :=
  rfl

@[simp] theorem push_blocks (operand : Operand) : (s.push operand).blocks = s.blocks := rfl

@[simp] theorem push_store (operand : Operand) : (s.push operand).store = s.store := rfl

@[simp] theorem pushAll_blocks (operands : List Operand) : (s.pushAll operands).blocks = s.blocks := rfl

@[simp] theorem pushAll_store (operands : List Operand) : (s.pushAll operands).store = s.store := rfl

@[simp] theorem pushAll_nil : s.pushAll [] = s := rfl

theorem pushAll_operands (operands : List Operand) :
    (s.pushAll operands).operands = operands.reverse ++ s.operands := rfl

theorem pushAll_cons (operand : Operand) (rest : List Operand) :
    s.pushAll (operand :: rest) = (s.push operand).pushAll rest := by
  simp [pushAll, push]

theorem pushAll_append (first second : List Operand) :
    s.pushAll (first ++ second) = (s.pushAll first).pushAll second := by
  simp [pushAll]

theorem pushAll_single (operand : Operand) : s.pushAll [operand] = s.push operand := rfl

@[simp] theorem popValue_push (v : Value) : (s.push (.value v)).popValue = .ok (v, s) := rfl

@[simp] theorem popSlot_push (type : Slot) (bits : Nat) :
    (s.push (.slot type bits)).popSlot type = .ok (bits, s) := by
  simp [popSlot, push]

@[simp] theorem popBlock_withBlock (block : Routine) :
    (s.withBlock block).popBlock = .ok (block, s) := rfl

@[simp] theorem withBlock_store (block : Routine) : (s.withBlock block).store = s.store := rfl

@[simp] theorem withStore_store (st : Store) : (s.withStore st).store = st := rfl

@[simp] theorem withStore_self : s.withStore s.store = s := rfl

@[simp] theorem withStore_withStore (first second : Store) :
    (s.withStore first).withStore second = s.withStore second := rfl

@[simp] theorem push_withStore (operand : Operand) (st : Store) :
    (s.push operand).withStore st = (s.withStore st).push operand := rfl

@[simp] theorem pushAll_withStore (operands : List Operand) (st : Store) :
    (s.pushAll operands).withStore st = (s.withStore st).pushAll operands := rfl

@[simp] theorem popN_zero : s.popN 0 = .ok ([], s) := rfl

theorem popN_pushAll {operands : List Operand} {n : Nat} (count : n = operands.length) :
    (s.pushAll operands).popN n = .ok (operands, s) := by
  subst count
  simp [popN, pushAll]

theorem restack {s : State} {operands : List Operand} (stack : s.operands = operands) :
    { s with operands } = s := by
  subst stack
  rfl

theorem popN_withBlock {operands : List Operand} {n : Nat} {block : Routine}
    (count : n = operands.length) :
    ((s.pushAll operands).withBlock block).popN n = .ok (operands, s.withBlock block) := by
  subst count
  simp [popN, pushAll, withBlock]

end State

@[simp] theorem guard_holds : guard true = .ok () := rfl

theorem guard_pos {condition : Bool} (holds : condition = true) : guard condition = .ok () := by
  rw [holds, guard_holds]

@[simp] theorem need_some {α : Type} (a : α) : need (some a) = .ok a := rfl

@[simp] theorem Outlook.atPayload_self (scope : Outlook) : scope.atPayload scope.payload = scope := rfl

@[simp] theorem Outlook.atPayload_atPayload (scope : Outlook) (first second : Option Value) :
    (scope.atPayload first).atPayload second = scope.atPayload second := rfl

@[simp] theorem Outlook.atPayload_arena (scope : Outlook) (payload : Option Value) :
    (scope.atPayload payload).arena = scope.arena := rfl

@[simp] theorem Outlook.atPayload_allocator (scope : Outlook) (payload : Option Value) :
    (scope.atPayload payload).allocator = scope.allocator := rfl

@[simp] theorem Outlook.atElement_arena (scope : Outlook) (item : Option Value) (base : Nat) :
    (scope.atElement item base).arena = scope.arena := rfl

@[simp] theorem Outlook.atElement_allocator (scope : Outlook) (item : Option Value) (base : Nat) :
    (scope.atElement item base).allocator = scope.allocator := rfl

/-- Wherever a payload may be bound, the instruction pushes the address. -/
def Points (scope : Outlook) (address : Instruction) (base : Nat) : Prop :=
  Addresses address ∧
    ∀ payload s, step (scope.atPayload payload) s address = .ok (s.push (.slot .i32 base))

namespace Points

variable {scope : Outlook} {address : Instruction} {base : Nat}

theorem step (points : Points scope address base) (s : State) :
    Machine.step scope s address = .ok (s.push (.slot .i32 base)) := points.2 scope.payload s

theorem atPayload (points : Points scope address base) (payload : Option Value) :
    Points (scope.atPayload payload) address base := ⟨points.1, fun other s => points.2 other s⟩

theorem ofBase (known : scope.base = some base) : Points scope iterBasePointer base :=
  ⟨⟨rfl, rfl⟩, fun payload s => by
    have same : (scope.atPayload payload).base = some base := known
    simp only [Machine.step, same, need_some, ok_bind, pure_eq_ok]⟩

theorem ofParamArea {size align : Nat} (known : scope.paramArea = some base) :
    Points scope (paramPointer size align) base :=
  ⟨⟨rfl, rfl⟩, fun payload s => by
    have same : (scope.atPayload payload).paramArea = some base := known
    simp only [Machine.step, same, need_some, ok_bind, pure_eq_ok]⟩

theorem ofReturnArea {size align : Nat} (known : scope.returnArea = some base) :
    Points scope (returnPointer size align) base :=
  ⟨⟨rfl, rfl⟩, fun payload s => by
    have same : (scope.atPayload payload).returnArea = some base := known
    simp only [Machine.step, same, need_some, ok_bind, pure_eq_ok]⟩

theorem ofArg {nth : Nat} (known : scope.args[nth]? = some (.slot .i32 base)) :
    Points scope (getArg nth) base :=
  ⟨⟨rfl, rfl⟩, fun payload s => by
    have same : (scope.atPayload payload).args[nth]? = some (.slot .i32 base) := known
    simp only [Machine.step, same, need_some, ok_bind, pure_eq_ok]⟩

theorem atElement (item : Option Value) (base : Nat) :
    Points (scope.atElement item base) iterBasePointer base := ofBase rfl

end Points

theorem run_plain {code : List Instruction} (plain : ∀ inst ∈ code, isBracket inst = false)
    (scope : Outlook) (s : State) :
    run code scope s = code.foldlM (fun s inst => step scope s inst) s := by
  induction code generalizing s with
  | nil => rfl
  | cons inst rest ih =>
    have balanced : Balanced rest := by
      have others : ∀ other ∈ rest, isBracket other = false := fun other member =>
        plain other (by simp [member])
      clear ih plain
      induction rest with
      | nil => exact .nil
      | cons other last ih =>
        exact .plain (others other (by simp)) (ih fun inst member => others inst (by simp [member]))
    rw [run_cons (plain inst (by simp)) balanced, List.foldlM_cons]
    congr 1
    funext s
    exact ih (fun other member => plain other (by simp [member])) s

section
variable {scope : Outlook} {address : Instruction} {base offset : Nat} {access : Access}

theorem step_load (bound : base + offset + access.size ≤ 2 ^ 32) (s : State) :
    step scope (s.push (.slot .i32 base)) (.load access offset) =
      .ok (s.push (.slot access.slot (extend access.isSigned (8 * access.size) access.slot.bits
        (s.store.memory.load (base + offset) access.size)))) := by
  simp only [step, Machine.load, State.popSlot_push, ok_bind, guard_pos (decide_eq_true bound),
    pure_eq_ok]

theorem step_store {bits : Nat} (bound : base + offset + access.size ≤ 2 ^ 32) (s : State) :
    step scope ((s.push (.slot access.slot bits)).push (.slot .i32 base)) (.store access offset) =
      .ok (s.withStore (s.store.write (base + offset) access.size bits)) := by
  simp only [step, Machine.store, State.withStore, State.popSlot_push, ok_bind,
    guard_pos (decide_eq_true bound), pure_eq_ok]

theorem run_load (points : Points scope address base)
    (bound : base + offset + access.size ≤ 2 ^ 32) (s : State) :
    run [address, .load access offset] scope s =
      .ok (s.push (.slot access.slot (extend access.isSigned (8 * access.size) access.slot.bits
        (s.store.memory.load (base + offset) access.size)))) := by
  have plain : ∀ inst ∈ [address, .load access offset], isBracket inst = false := by
    simp only [List.mem_cons, List.not_mem_nil, or_false]
    rintro inst (rfl | rfl)
    · exact points.1.1
    · rfl
  rw [run_plain plain]
  simp only [List.foldlM_cons, List.foldlM_nil, points.step, ok_bind, step_load bound, pure_eq_ok]

theorem run_store (points : Points scope address base) {bits : Nat}
    (bound : base + offset + access.size ≤ 2 ^ 32) (s : State) :
    run [address, .store access offset] scope (s.push (.slot access.slot bits)) =
      .ok (s.withStore (s.store.write (base + offset) access.size bits)) := by
  have plain : ∀ inst ∈ [address, .store access offset], isBracket inst = false := by
    simp only [List.mem_cons, List.not_mem_nil, or_false]
    rintro inst (rfl | rfl)
    · exact points.1.1
    · rfl
  rw [run_plain plain]
  simp only [List.foldlM_cons, List.foldlM_nil, points.step, ok_bind, step_store bound, pure_eq_ok]

end

theorem run_oneBlock {body : List Instruction} {last : Instruction} (balanced : Balanced body)
    (plain : isBracket last = false) (loop : Bool) (n : Nat) (scope : Outlook) (s : State) :
    run (blockBegin 0 loop :: (body ++ blockEnd n :: [last])) scope s =
      step scope (s.withBlock (blockOf loop [] body n)) last := by
  rw [run_block balanced (.plain plain .nil), State.popN_zero, ok_bind, run_single plain]

theorem run_twoBlocks {first second : List Instruction} {last : Instruction}
    (balanced : Balanced first) (also : Balanced second) (plain : isBracket last = false)
    (n m : Nat) (scope : Outlook) (s : State) :
    run (blockBegin 0 false :: (first ++ blockEnd n ::
      (blockBegin 0 false :: (second ++ blockEnd m :: [last])))) scope s =
      step scope ((s.withBlock (blockOf false [] first n)).withBlock (blockOf false [] second m))
        last := by
  rw [run_block balanced (.block also (.plain plain .nil)), State.popN_zero, ok_bind,
    run_oneBlock also plain]

theorem run_roll (scope : Outlook) {s : State} {above below : List Operand} {operand : Operand}
    (stack : s.operands = above ++ operand :: below) :
    run [roll above.length] scope s = .ok { s with operands := operand :: (above ++ below) } := by
  rw [run_single rfl]
  simp [step, stack, pure_eq_ok, List.eraseIdx_append_of_length_le]

theorem run_rollTo (scope : Outlook) {s : State} {above below : List Operand} {operand : Operand}
    (stack : s.operands = above ++ operand :: below) :
    run (Crossing.rollTo above.length) scope s =
      .ok { s with operands := operand :: (above ++ below) } := by
  cases above with
  | nil => exact congrArg Except.ok (State.restack stack).symm
  | cons top above =>
    rw [Crossing.rollTo, if_neg (by simp)]
    exact run_roll scope stack

theorem rolls_balanced (count depth : Nat) :
    Balanced (List.replicate count (Crossing.rollTo depth)).flatten := by
  induction count with
  | zero => exact .nil
  | succ count ih =>
    rw [List.replicate_succ, List.flatten_cons]
    refine .append ?_ ih
    unfold Crossing.rollTo
    split
    · exact .nil
    · exact .plain rfl .nil

/-- As many rolls as there are operands in a group bring the group to the top, in order. -/
theorem run_rolls (scope : Outlook) {s : State} {above below group : List Operand} {depth : Nat}
    (stack : s.operands = above ++ (group.reverse ++ below))
    (deep : 0 < group.length → depth = group.length + above.length - 1) :
    run (List.replicate group.length (Crossing.rollTo depth)).flatten scope s =
      .ok { s with operands := group.reverse ++ (above ++ below) } := by
  induction group generalizing above s with
  | nil => exact congrArg Except.ok (State.restack stack).symm
  | cons operand group ih =>
    have lowest : s.operands = (above ++ group.reverse) ++ operand :: below := by simp [stack]
    have length : depth = (above ++ group.reverse).length := by
      rw [deep (by simp)]
      simp [Nat.add_comm]
    rw [List.length_cons, List.replicate_succ, List.flatten_cons,
      run_append (by simpa using rolls_balanced 1 depth) (rolls_balanced group.length depth)]
    have first := run_rollTo scope lowest
    rw [← length] at first
    rw [first, ok_bind]
    have moved : ({ s with operands := operand :: (above ++ group.reverse ++ below) } : State).operands =
        (operand :: above) ++ (group.reverse ++ below) := by simp
    have others := ih moved fun _ => by rw [length]; simp [Nat.add_comm]
    rw [others]
    simp

end ZigBindings.Machine
