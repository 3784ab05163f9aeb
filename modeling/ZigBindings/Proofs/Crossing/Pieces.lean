import ZigBindings.Proofs.Crossing.Code
import ZigBindings.Proofs.Machine.Run

/-! The code for a value is a piece that can stand anywhere: its blocks are closed, it calls nothing
and returns nothing, and it mentions no area besides the one that it is given as an address. -/

namespace ZigBindings
open Machine Crossing Instruction

def Instruction.isArea : Instruction → Bool
  | returnPointer _ _ | paramPointer _ _ => true
  | _ => false

/-- Neither a bracket nor a call, and no area but the one at `address`. -/
def Instruction.Simple (inst address : Instruction) : Prop :=
  isBracket inst = false ∧ isCall inst = false ∧ (inst.isArea = true → inst = address)

def Instruction.isPlain (inst : Instruction) : Bool :=
  !isBracket inst && !isCall inst && !inst.isArea

theorem Instruction.simple_of_plain {inst address : Instruction}
    (plain : inst.isPlain = true) : inst.Simple address := by
  simp only [isPlain, Bool.and_eq_true, Bool.not_eq_true'] at plain
  exact ⟨plain.1.1, plain.1.2, fun area => by simp [plain.2] at area⟩

structure Piece (address : Instruction) (code : List Instruction) : Prop where
  balanced : Balanced code
  calls : ∀ inst ∈ code, isCall inst = false
  areas : ∀ inst ∈ code, inst.isArea = true → inst = address

namespace Piece

variable {address : Instruction} {first second body code : List Instruction}

theorem of_simple {code : List Instruction} (simple : ∀ inst ∈ code, inst.Simple address) :
    Piece address code where
  balanced := by
    induction code with
    | nil => exact .nil
    | cons inst rest ih =>
      exact .plain (simple inst (by simp)).1 (ih fun other member => simple other (by simp [member]))
  calls inst member := (simple inst member).2.1
  areas inst member := (simple inst member).2.2

theorem nil : Piece address [] := ⟨.nil, nofun, nofun⟩

theorem of_plain (plain : code.all Instruction.isPlain = true) : Piece address code :=
  of_simple fun inst member => Instruction.simple_of_plain (List.all_eq_true.mp plain inst member)

theorem append (left : Piece address first) (right : Piece address second) :
    Piece address (first ++ second) where
  balanced := left.balanced.append right.balanced
  calls inst member := (List.mem_append.mp member).elim (left.calls inst) (right.calls inst)
  areas inst member := (List.mem_append.mp member).elim (left.areas inst) (right.areas inst)

theorem plain {inst : Instruction} (plain : inst.isPlain = true) (rest : Piece address code) :
    Piece address (inst :: code) := by
  have single : Piece address [inst] := of_simple fun other member => by
    cases List.mem_singleton.mp member
    exact Instruction.simple_of_plain plain
  exact single.append rest

theorem pointed (addresses : Addresses address) (rest : Piece address code) :
    Piece address (address :: code) := by
  have single : Piece address [address] := of_simple fun other member => by
    cases List.mem_singleton.mp member
    exact ⟨addresses.1, addresses.2, fun _ => rfl⟩
  exact single.append rest

theorem block (inputs results : Nat) (loop : Bool) (inner : Piece address body)
    (rest : Piece address second) :
    Piece address (blockBegin inputs loop :: (body ++ blockEnd results :: second)) where
  balanced := .block inner.balanced rest.balanced
  calls inst member := by
    simp only [List.mem_cons, List.mem_append] at member
    rcases member with rfl | member | rfl | member
    · rfl
    · exact inner.calls inst member
    · rfl
    · exact rest.calls inst member
  areas inst member area := by
    simp only [List.mem_cons, List.mem_append] at member
    rcases member with rfl | member | rfl | member
    · cases area
    · exact inner.areas inst member area
    · cases area
    · exact rest.areas inst member area

theorem of_loop (piece : Piece iterBasePointer code) : Piece address code where
  balanced := piece.balanced
  calls := piece.calls
  areas inst member area := by
    have same := piece.areas inst member area
    subst same
    cases area

theorem flatten {codes : List (List Instruction)} (each : ∀ code ∈ codes, Piece address code) :
    Piece address codes.flatten := by
  induction codes with
  | nil => exact nil
  | cons code codes ih =>
    exact (each code (by simp)).append (ih fun other member => each other (by simp [member]))

end Piece

theorem iterBasePointer_addresses : Addresses iterBasePointer := ⟨rfl, rfl⟩

theorem storePair_piece {address : Instruction} (addresses : Addresses address) (offset : Nat) :
    Piece address (storePair address offset) :=
  .pointed addresses (.plain rfl (.pointed addresses (.plain rfl .nil)))

theorem loadPair_piece {address : Instruction} (addresses : Addresses address) (offset : Nat) :
    Piece address (loadPair address offset) :=
  .pointed addresses (.plain rfl (.pointed addresses (.plain rfl .nil)))

theorem rollTo_piece (address : Instruction) (depth : Nat) : Piece address (rollTo depth) := by
  unfold rollTo
  split
  · exact .nil
  · exact .of_plain rfl

theorem lowering_plain (form : Form) (id arity : Nat) : (form.lowering id arity).isPlain = true := by
  cases form <;> rfl

theorem lifting_plain (form : Form) (id arity : Nat) : (form.lifting id arity).isPlain = true := by
  cases form <;> rfl

theorem lowering_bracket (form : Form) (id arity : Nat) : isBracket (form.lowering id arity) = false := by
  cases form <;> rfl

theorem lifting_bracket (form : Form) (id arity : Nat) : isBracket (form.lifting id arity) = false := by
  cases form <;> rfl

namespace Tree

variable {address : Instruction}

theorem lowerList_piece (address : Instruction) (element : Tree) {body : List Instruction}
    (inner : Piece iterBasePointer body) : Piece address (lowerList element body) := by
  unfold lowerList
  split
  · exact .of_plain rfl
  · have item : Piece iterBasePointer [iterElem] := .of_plain rfl
    have last : Piece iterBasePointer
        [listLower element.type element.extent.size element.extent.align] := .of_plain rfl
    simpa using (Piece.block 0 0 true (item.append inner) last).of_loop

theorem liftList_piece (address : Instruction) (element : Tree) {body : List Instruction}
    (inner : Piece iterBasePointer body) : Piece address (liftList element body) := by
  unfold liftList
  split
  · exact .of_plain rfl
  · have last : Piece iterBasePointer [listLift element.type element.extent.size] :=
      .of_plain rfl
    simpa using (Piece.block 0 1 true inner last).of_loop

private theorem writeAll_pieces {fields : List Tree} {offsets : List Nat} {offset : Nat}
    (each : ∀ field ∈ fields, ∀ o, Piece address (field.write address o)) :
    Piece address (writeAll fields offsets address offset) := by
  induction fields generalizing offsets with
  | nil => exact .nil
  | cons t rest ih =>
    cases offsets with
    | nil => exact .nil
    | cons o offsets =>
      rw [writeAll]
      exact (ih fun field member => each field (by simp [member])).append (each t (by simp) _)

theorem write_piece (t : Tree) (addresses : Addresses address) (offset : Nat) :
    Piece address (t.write address offset) := by
  induction t generalizing address offset with
  | prim p =>
    rw [write]
    split
    · have first : Piece address [stringLower] := .of_plain rfl
      exact first.append (storePair_piece addresses offset)
    · exact .plain rfl (.pointed addresses (.plain rfl .nil))
  | product form id fields offsets extent ih =>
    rw [write]
    exact .plain (lowering_plain form id fields.length)
      (writeAll_pieces fun field member o => ih field member addresses o)
  | enumeration id count extent => exact .plain rfl (.pointed addresses (.plain rfl .nil))
  | option id payload start extent ih =>
    have absent : Piece address [i32Const 0, address, store .u8 offset] :=
      .plain rfl (.pointed addresses (.plain rfl .nil))
    have present : Piece address [i32Const 1, address, store .u8 offset, variantPayload] :=
      .plain rfl (.pointed addresses (.of_plain rfl))
    have last : Piece address [optionLower payload.type []] := .of_plain rfl
    have whole := Piece.block 0 0 false absent (Piece.block 0 0 false
        (present.append (ih addresses (offset + start))) last)
    simpa [write] using whole
  | list id element ih =>
    exact (lowerList_piece address element (ih iterBasePointer_addresses 0)).append
      (storePair_piece addresses offset)
  | synonym id target ih => exact ih addresses offset

theorem writeAll_piece (fields : List Tree) (offsets : List Nat) (addresses : Addresses address)
    (offset : Nat) : Piece address (writeAll fields offsets address offset) :=
  writeAll_pieces fun field _ o => field.write_piece addresses o

private theorem readAll_pieces {fields : List Tree} {offsets : List Nat} {offset : Nat}
    (each : ∀ field ∈ fields, ∀ o, Piece address (field.read address o)) :
    Piece address (readAll fields offsets address offset) := by
  induction fields generalizing offsets with
  | nil => exact .nil
  | cons t rest ih =>
    cases offsets with
    | nil => exact .nil
    | cons o offsets =>
      rw [readAll]
      exact (each t (by simp) _).append (ih fun field member => each field (by simp [member]))

theorem read_piece (t : Tree) (addresses : Addresses address) (offset : Nat) :
    Piece address (t.read address offset) := by
  induction t generalizing address offset with
  | prim p =>
    rw [read]
    split
    · exact (loadPair_piece addresses offset).append (.of_plain rfl)
    · exact .pointed addresses (.of_plain rfl)
  | product form id fields offsets extent ih =>
    rw [read]
    exact (readAll_pieces fun field member o => ih field member addresses o).append
      (.plain (lifting_plain form id fields.length) .nil)
  | enumeration id count extent => exact .pointed addresses (.of_plain rfl)
  | option id payload start extent ih =>
    have first : Piece address [address, load .u8 offset] := .pointed addresses (.of_plain rfl)
    have absent : Piece address [] := .nil
    have last : Piece address [optionLift payload.type] := .of_plain rfl
    have whole := first.append (Piece.block 0 0 false absent
      (Piece.block 0 1 false (ih addresses (offset + start)) last))
    simpa [read] using whole
  | list id element ih =>
    exact (loadPair_piece addresses offset).append
      (liftList_piece address element (ih iterBasePointer_addresses 0))
  | synonym id target ih => exact ih addresses offset

theorem readAll_piece (fields : List Tree) (offsets : List Nat) (addresses : Addresses address)
    (offset : Nat) : Piece address (readAll fields offsets address offset) :=
  readAll_pieces fun field _ o => field.read_piece addresses o

theorem zeros_piece (address : Instruction) (slots : List Slot) : Piece address (zeros slots) := by
  unfold zeros
  split
  · exact .nil
  · exact .of_plain rfl

theorem zeros_balanced (slots : List Slot) : Balanced (zeros slots) :=
  (zeros_piece iterBasePointer slots).balanced

private theorem lowerAll_pieces {fields : List Tree} {lowered : Nat}
    (each : ∀ field ∈ fields, Piece address field.lower) : Piece address (lowerAll lowered fields) := by
  induction fields generalizing lowered with
  | nil => exact .nil
  | cons t rest ih =>
    rw [lowerAll]
    exact ((rollTo_piece _ _).append (each t (by simp))).append
      (ih fun field member => each field (by simp [member]))

theorem lower_piece (address : Instruction) (t : Tree) : Piece address t.lower := by
  induction t with
  | prim p => cases p <;> exact .of_plain rfl
  | product form id fields offsets extent ih =>
    exact .plain (lowering_plain form id fields.length) (lowerAll_pieces ih)
  | enumeration id count extent => exact .of_plain rfl
  | option id payload start extent ih =>
    have none : Piece address [i32Const 0] := .of_plain rfl
    have some : Piece address [i32Const 1, variantPayload] := .of_plain rfl
    have last : Piece address [optionLower payload.type (.i32 :: payload.slots)] := .of_plain rfl
    have whole := Piece.block 0 (payload.slots.length + 1) false
      (none.append (zeros_piece address payload.slots))
      (Piece.block 0 (payload.slots.length + 1) false (some.append ih) last)
    simpa [lower] using whole
  | list id element ih =>
    exact lowerList_piece address element (element.write_piece iterBasePointer_addresses 0)
  | synonym id target ih => exact ih

theorem lower_balanced (t : Tree) : Balanced t.lower := (t.lower_piece iterBasePointer).balanced

theorem lowerAll_piece (address : Instruction) (fields : List Tree) (lowered : Nat) :
    Piece address (lowerAll lowered fields) := lowerAll_pieces fun field _ => field.lower_piece address

theorem lowerAll_balanced (fields : List Tree) (lowered : Nat) : Balanced (lowerAll lowered fields) :=
  (lowerAll_piece iterBasePointer fields lowered).balanced

theorem rolls_piece (address : Instruction) (count depth : Nat) :
    Piece address (List.replicate count (rollTo depth)).flatten :=
  .flatten fun code member => by
    rw [List.eq_of_mem_replicate member]
    exact rollTo_piece address depth

private theorem liftAll_pieces {fields : List Tree} {lifted : Nat}
    (each : ∀ field ∈ fields, Piece address field.lift) : Piece address (liftAll lifted fields) := by
  induction fields generalizing lifted with
  | nil => exact .nil
  | cons t rest ih =>
    rw [liftAll]
    exact ((rolls_piece _ _ _).append (each t (by simp))).append
      (ih fun field member => each field (by simp [member]))

theorem lift_piece (address : Instruction) (t : Tree) : Piece address t.lift := by
  induction t with
  | prim p => cases p <;> exact .of_plain rfl
  | product form id fields offsets extent ih =>
    exact (liftAll_pieces ih).append (.plain (lifting_plain form id fields.length) .nil)
  | enumeration id count extent => exact .of_plain rfl
  | option id payload start extent ih =>
    have absent : Piece address [] := .nil
    have last : Piece address [optionLift payload.type] := .of_plain rfl
    have whole := Piece.block 0 0 false absent (Piece.block payload.slots.length 1 false ih last)
    simpa [lift] using whole
  | list id element ih =>
    exact liftList_piece address element (element.read_piece iterBasePointer_addresses 0)
  | synonym id target ih => exact ih

theorem lift_balanced (t : Tree) : Balanced t.lift := (t.lift_piece iterBasePointer).balanced

theorem liftAll_piece (address : Instruction) (fields : List Tree) (lifted : Nat) :
    Piece address (liftAll lifted fields) := liftAll_pieces fun field _ => field.lift_piece address

theorem liftAll_balanced (fields : List Tree) (lifted : Nat) : Balanced (liftAll lifted fields) :=
  (liftAll_piece iterBasePointer fields lifted).balanced

end Tree

end ZigBindings
