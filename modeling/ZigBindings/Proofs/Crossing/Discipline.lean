import ZigBindings.Proofs.Crossing.Calls
import ZigBindings.Proofs.Machine.Effects

/-! The code for a value keeps to itself whatever it finds on the stack: it takes the value or its
slots, leaves its slots or the value, and does not touch what lies below. -/

namespace ZigBindings.Tree
open Machine Instruction Crossing

variable {a : Arena}

theorem stringLower_shifts : Shifts a [.stringLower] 1 2 := .single rfl (by
  intro scope s s' _ ran
  obtain ⟨⟨v, middle⟩, popped, ran⟩ := bind_eq_ok.mp ran
  cases v with
  | text bytes =>
    obtain ⟨⟨start, st⟩, given, ran⟩ := bind_eq_ok.mp ran
    cases ran
    have moved := popValue_moved popped
    have grown := allocate_grows given
    refine ⟨?_, moved.blocks, fun x covered => grown x (moved.grows x covered)⟩
    have count := moved.count
    simp only [pushSlice, State.pushAll, List.reverse_cons, List.reverse_nil, List.nil_append,
      List.cons_append, List.length_cons] at count ⊢
    omega
  | _ => cases ran)

theorem stringLift_shifts : Shifts a [.stringLift] 2 1 := .single rfl (by
  intro scope s s' _ ran
  obtain ⟨⟨start, length, middle⟩, popped, ran⟩ := bind_eq_ok.mp ran
  cases ran
  exact (popSlice_moved popped).trans (.push middle _))

theorem blockOf_grows {loop : Bool} {body : List Instruction} {takes gives results : Nat}
    (shifts : Shifts a body takes gives) {moved left : List Operand} {scope : Outlook}
    {st st' : Store} (arena : scope.arena = a)
    (ran : (blockOf loop moved body results).run scope st = .ok (left, st')) :
    ∀ x, Covered st.taken x → Covered st'.taken x := by
  obtain ⟨s, inside, after⟩ := bind_eq_ok.mp ran
  obtain ⟨_, -, after⟩ := bind_eq_ok.mp after
  cases after
  exact (shifts scope _ s arena inside).grows

theorem eachItem_grows {scope : Outlook} {block : Routine} {size start : Nat} {items : List Value}
    {st st' : Store} (grows : ∀ item base st left st',
      block.run (scope.atElement item base) st = .ok (left, st') →
      ∀ x, Covered st.taken x → Covered st'.taken x)
    (ran : eachItem scope block size start items st = .ok st') :
    ∀ x, Covered st.taken x → Covered st'.taken x := by
  induction items generalizing start st with
  | nil =>
    cases ran
    exact fun x covered => covered
  | cons v rest ih =>
    obtain ⟨⟨left, middle⟩, first, ran⟩ := bind_eq_ok.mp ran
    obtain ⟨_, -, ran⟩ := bind_eq_ok.mp ran
    exact fun x covered => ih ran x (grows _ _ _ _ _ first x covered)

theorem eachElement_grows {scope : Outlook} {block : Routine} {size start n : Nat}
    {values : List Value} {st st' : Store} (grows : ∀ item base st left st',
      block.run (scope.atElement item base) st = .ok (left, st') →
      ∀ x, Covered st.taken x → Covered st'.taken x)
    (ran : eachElement scope block size start n st = .ok (values, st')) :
    ∀ x, Covered st.taken x → Covered st'.taken x := by
  induction n generalizing start st values with
  | zero =>
    cases ran
    exact fun x covered => covered
  | succ n ih =>
    obtain ⟨⟨left, middle⟩, first, ran⟩ := bind_eq_ok.mp ran
    split at ran
    · rename_i v rest same
      cases same
      obtain ⟨⟨others, last⟩, later, ran⟩ := bind_eq_ok.mp ran
      cases ran
      exact fun x covered => ih later x (grows _ _ _ _ _ first x covered)
    · cases ran

theorem lowerList_shifts (element : Tree) {body : List Instruction} (balanced : Balanced body)
    (shifts : Shifts a body 1 0) : Shifts a (lowerList element body) 1 2 := by
  by_cases canonical : element.isCanonical = true
  · rw [lowerList, if_pos canonical]
    refine .single rfl fun scope s s' _ ran => ?_
    obtain ⟨access, -, ran⟩ := bind_eq_ok.mp ran
    obtain ⟨⟨v, middle⟩, popped, ran⟩ := bind_eq_ok.mp ran
    obtain ⟨members, -, ran⟩ := bind_eq_ok.mp ran
    obtain ⟨numbers, -, ran⟩ := bind_eq_ok.mp ran
    obtain ⟨⟨start, st⟩, given, ran⟩ := bind_eq_ok.mp ran
    cases ran
    have moved := popValue_moved popped
    refine ⟨?_, moved.blocks, fun x covered => ?_⟩
    · have count := moved.count
      simp only [pushSlice, State.pushAll, List.reverse_cons, List.reverse_nil, List.nil_append,
        List.cons_append, List.length_cons] at count ⊢
      omega
    · change Covered (Store.writeAll st start access.size numbers).taken x
      rw [Store.writeAll_taken]
      exact allocate_grows given x (moved.grows x covered)
  · intro scope s s' arena ran
    rw [run_lowerLoop canonical balanced] at ran
    obtain ⟨⟨block, middle⟩, opened, ran⟩ := bind_eq_ok.mp ran
    rw [State.popBlock_withBlock] at opened
    cases opened
    obtain ⟨_, -, ran⟩ := bind_eq_ok.mp ran
    obtain ⟨⟨v, middle⟩, popped, ran⟩ := bind_eq_ok.mp ran
    obtain ⟨members, -, ran⟩ := bind_eq_ok.mp ran
    obtain ⟨⟨start, st⟩, given, ran⟩ := bind_eq_ok.mp ran
    obtain ⟨last, items, ran⟩ := bind_eq_ok.mp ran
    cases ran
    have moved := popValue_moved popped
    have inner : Shifts a (iterElem :: body) 1 1 :=
      ((fetch_shifts rfl).append shifts (.plain rfl .nil) balanced).cast (by omega)
    have grown := eachItem_grows (fun item base st left st' ran =>
      blockOf_grows inner (by simpa using arena) ran) items
    refine ⟨?_, moved.blocks, fun x covered =>
      grown x (allocate_grows given x (moved.grows x covered))⟩
    have count := moved.count
    simp only [pushSlice, State.pushAll, List.reverse_cons, List.reverse_nil, List.nil_append,
      List.cons_append, List.length_cons] at count ⊢
    omega

theorem liftList_shifts (element : Tree) {body : List Instruction} (balanced : Balanced body)
    (shifts : Shifts a body 0 1) : Shifts a (liftList element body) 2 1 := by
  by_cases canonical : element.isCanonical = true
  · rw [liftList, if_pos canonical]
    refine .single rfl fun scope s s' _ ran => ?_
    obtain ⟨access, -, ran⟩ := bind_eq_ok.mp ran
    obtain ⟨⟨start, length, middle⟩, popped, ran⟩ := bind_eq_ok.mp ran
    cases ran
    exact (popSlice_moved popped).trans (.push middle _)
  · intro scope s s' arena ran
    rw [run_liftLoop canonical balanced] at ran
    obtain ⟨⟨block, middle⟩, opened, ran⟩ := bind_eq_ok.mp ran
    rw [State.popBlock_withBlock] at opened
    cases opened
    obtain ⟨_, -, ran⟩ := bind_eq_ok.mp ran
    obtain ⟨⟨start, length, middle⟩, popped, ran⟩ := bind_eq_ok.mp ran
    obtain ⟨⟨members, last⟩, each, ran⟩ := bind_eq_ok.mp ran
    cases ran
    have moved := popSlice_moved popped
    have grown := eachElement_grows (fun item base st left st' ran =>
      blockOf_grows shifts (by simpa using arena) ran) each
    refine ⟨?_, moved.blocks, fun x covered => grown x (moved.grows x covered)⟩
    have count := moved.count
    simp only [State.push, List.length_cons] at count ⊢
    omega

theorem productLower_moved {s s' : State} {form : Form} {arity : Nat}
    (ran : productLower s form arity = .ok s') : Moved 1 arity s s' := by
  obtain ⟨⟨v, middle⟩, popped, ran⟩ := bind_eq_ok.mp ran
  obtain ⟨members, listed, ran⟩ := bind_eq_ok.mp ran
  cases ran
  have count : members.length = arity := by
    unfold items at listed
    split at listed
    · split at listed
      · rename_i same
        cases listed
        exact same.2
      · cases listed
    · cases listed
  exact ((popValue_moved popped).trans (.pushAll middle _)).cast (by simp [count])

theorem productLift_moved {s s' : State} {form : Form} {arity : Nat}
    (ran : productLift s form arity = .ok s') : Moved arity 1 s s' := by
  obtain ⟨⟨operands, middle⟩, popped, ran⟩ := bind_eq_ok.mp ran
  obtain ⟨members, -, ran⟩ := bind_eq_ok.mp ran
  cases ran
  exact (popN_moved popped).1.trans (.push middle _)

theorem lowering_shifts {form : Form} {id : Nat} {fields : List Tree} {offsets : List Nat}
    {extent : Layout.Extent} (unfolds : (product form id fields offsets extent).Unfolds a) :
    Shifts a [form.lowering id fields.length] 1 fields.length := by
  cases form with
  | tuple => exact .single rfl fun scope s s' _ ran => productLower_moved ran
  | record =>
    refine .single rfl fun scope s s' arena ran => ?_
    obtain ⟨arity, found, ran⟩ := bind_eq_ok.mp ran
    rw [arena, recordArity_of_mirrors unfolds] at found
    cases found
    exact productLower_moved ran

theorem lifting_shifts {form : Form} {id : Nat} {fields : List Tree} {offsets : List Nat}
    {extent : Layout.Extent} (unfolds : (product form id fields offsets extent).Unfolds a) :
    Shifts a [form.lifting id fields.length] fields.length 1 := by
  cases form with
  | tuple => exact .single rfl fun scope s s' _ ran => productLift_moved ran
  | record =>
    refine .single rfl fun scope s s' arena ran => ?_
    obtain ⟨arity, found, ran⟩ := bind_eq_ok.mp ran
    rw [arena, recordArity_of_mirrors unfolds] at found
    cases found
    exact productLift_moved ran

theorem rolls_shifts (count depth : Nat) :
    Shifts a (List.replicate count (rollTo depth)).flatten 0 0 := by
  induction count with
  | zero => exact .nil
  | succ count ih =>
    have first : Shifts a (rollTo depth) 0 0 := by
      unfold rollTo
      split
      · exact .nil
      · exact roll_shifts depth
    rw [List.replicate_succ, List.flatten_cons]
    exact first.append ih (rollTo_piece iterBasePointer depth).balanced (rolls_balanced count depth)

theorem optionLower_moved {scope : Outlook} {s s' : State} {present absent : Routine} {ty : Ty}
    {results : List Slot}
    (grows : ∀ block, block = present ∨ block = absent → ∀ payload st left st',
      block.run (scope.atPayload payload) st = .ok (left, st') →
      ∀ x, Covered st.taken x → Covered st'.taken x)
    (ran : step scope ((s.withBlock absent).withBlock present) (.optionLower ty results) = .ok s') :
    Moved 1 results.length s s' := by
  obtain ⟨⟨first, middle⟩, opened, ran⟩ := bind_eq_ok.mp ran
  rw [State.popBlock_withBlock] at opened
  cases opened
  obtain ⟨⟨second, middle⟩, opened, ran⟩ := bind_eq_ok.mp ran
  rw [State.popBlock_withBlock] at opened
  cases opened
  obtain ⟨⟨v, middle⟩, popped, ran⟩ := bind_eq_ok.mp ran
  have moved := popValue_moved popped
  have finish : ∀ left st, (∀ x, Covered middle.store.taken x → Covered st.taken x) →
      (Machine.guard (decide (left.reverse.map Operand.type? = results.map some)) >>= fun _ =>
        Except.ok ({ middle with store := st, operands := left ++ middle.operands } : State)) =
        .ok s' → Moved 1 results.length s s' := by
    intro left st grown ran
    obtain ⟨_, typed, ran⟩ := bind_eq_ok.mp ran
    cases ran
    have length : left.length = results.length := by
      unfold Machine.guard at typed
      split at typed
      · rename_i same
        have lengths := congrArg List.length (of_decide_eq_true same)
        simpa using lengths
      · cases typed
    refine ⟨?_, moved.blocks, fun x covered => grown x (moved.grows x covered)⟩
    have count := moved.count
    simp only [List.length_append] at count ⊢
    omega
  cases v with
  | present payload =>
    obtain ⟨⟨left, st⟩, chosen, ran⟩ := bind_eq_ok.mp ran
    exact finish left st (grows _ (.inl rfl) _ _ _ _ chosen) ran
  | absent =>
    obtain ⟨⟨left, st⟩, chosen, ran⟩ := bind_eq_ok.mp ran
    exact finish left st (grows _ (.inr rfl) _ _ _ _ chosen) ran
  | _ => cases ran

theorem optionLift_moved {scope : Outlook} {s s' : State} {present absent : Routine} {ty : Ty}
    (grows : ∀ block, block = present ∨ block = absent → ∀ payload st left st',
      block.run (scope.atPayload payload) st = .ok (left, st') →
      ∀ x, Covered st.taken x → Covered st'.taken x)
    (ran : step scope ((s.withBlock absent).withBlock present) (.optionLift ty) = .ok s') :
    Moved 1 1 s s' := by
  obtain ⟨⟨first, middle⟩, opened, ran⟩ := bind_eq_ok.mp ran
  rw [State.popBlock_withBlock] at opened
  cases opened
  obtain ⟨⟨second, middle⟩, opened, ran⟩ := bind_eq_ok.mp ran
  rw [State.popBlock_withBlock] at opened
  cases opened
  obtain ⟨⟨discriminant, middle⟩, popped, ran⟩ := bind_eq_ok.mp ran
  have moved := popSlot_moved popped
  have count := moved.count
  match discriminant with
  | 0 =>
    obtain ⟨⟨left, st⟩, chosen, ran⟩ := bind_eq_ok.mp ran
    obtain ⟨_, -, ran⟩ := bind_eq_ok.mp ran
    cases ran
    have grown := grows _ (.inr rfl) _ _ _ _ chosen
    refine ⟨?_, moved.blocks, fun x covered => grown x (moved.grows x covered)⟩
    simp only [State.push, List.length_cons] at count ⊢
    omega
  | 1 =>
    obtain ⟨⟨left, st⟩, chosen, ran⟩ := bind_eq_ok.mp ran
    split at ran
    · rename_i v rest same
      cases same
      cases ran
      have grown := grows _ (.inl rfl) _ _ _ _ chosen
      refine ⟨?_, moved.blocks, fun x covered => grown x (moved.grows x covered)⟩
      simp only [State.push, List.length_cons] at count ⊢
      omega
    · cases ran
  | n + 2 => cases ran

theorem popN_withBlock_moved {s s' : State} {block : Routine} {n : Nat} {operands : List Operand}
    (popped : (s.withBlock block).popN n = .ok (operands, s')) :
    ∃ middle, s.popN n = .ok (operands, middle) ∧ s' = middle.withBlock block := by
  unfold State.popN at popped ⊢
  split at popped
  · rename_i enough
    cases popped
    exact ⟨_, if_pos enough, rfl⟩
  · cases popped

theorem optionLower_shifts {absent present : List Instruction} (ty : Ty) (results : List Slot)
    (n : Nat) {first second third fourth : Nat} (none : Shifts a absent first second)
    (some : Shifts a present third fourth) (balanced : Balanced absent)
    (also : Balanced present) :
    Shifts a (blockBegin 0 false :: (absent ++ blockEnd n :: (blockBegin 0 false :: (present ++
      blockEnd n :: [.optionLower ty results])))) 1 results.length := by
  intro scope s s' arena ran
  rw [run_twoBlocks balanced also rfl] at ran
  refine optionLower_moved (fun block which payload st left st' ran => ?_) ran
  rcases which with rfl | rfl
  · exact blockOf_grows some (by simpa using arena) ran
  · exact blockOf_grows none (by simpa using arena) ran

theorem optionLift_shifts {present : List Instruction} (ty : Ty) (inputs : Nat) {takes gives : Nat}
    (some : Shifts a present takes gives) (also : Balanced present) :
    Shifts a (blockBegin 0 false :: ([] ++ blockEnd 0 :: (blockBegin inputs false :: (present ++
      blockEnd 1 :: [.optionLift ty])))) (inputs + 1) 1 := by
  intro scope s s' arena ran
  rw [run_block .nil (.block also (.plain rfl .nil)), State.popN_zero, ok_bind,
    run_block also (.plain rfl .nil)] at ran
  obtain ⟨⟨moved, last⟩, popped, ran⟩ := bind_eq_ok.mp ran
  obtain ⟨middle, first, rfl⟩ := popN_withBlock_moved popped
  rw [run_single rfl] at ran
  have lifted : Moved 1 1 middle s' := by
    refine optionLift_moved (fun block which payload st left st' ran => ?_) ran
    rcases which with rfl | rfl
    · exact blockOf_grows some (by simpa using arena) ran
    · exact blockOf_grows .nil (by simpa using arena) ran
  exact ((popN_moved first).1.trans lifted).cast (by omega)

private theorem writes_shift {address : Instruction} (addresses : Addresses address) {fields : List Tree}
    {offsets : List Nat} {offset : Nat}
    (each : ∀ field ∈ fields, ∀ o, Shifts a (field.write address o) 1 0)
    (count : offsets.length = fields.length) :
    Shifts a (writeAll fields offsets address offset) fields.length 0 := by
  induction fields generalizing offsets with
  | nil =>
    cases offsets with
    | nil => simpa [writeAll] using Shifts.nil
    | cons o offsets => cases count
  | cons t rest ih =>
    cases offsets with
    | nil => cases count
    | cons o offsets =>
      rw [writeAll]
      exact (ih (fun field member => each field (by simp [member])) (by simpa using count)).append
        (each t (by simp) _) (writeAll_piece rest offsets addresses offset).balanced
        (t.write_piece addresses _).balanced

private theorem reads_shift {address : Instruction} (addresses : Addresses address) {fields : List Tree}
    {offsets : List Nat} {offset : Nat}
    (each : ∀ field ∈ fields, ∀ o, Shifts a (field.read address o) 0 1)
    (count : offsets.length = fields.length) :
    Shifts a (readAll fields offsets address offset) 0 fields.length := by
  induction fields generalizing offsets with
  | nil =>
    cases offsets with
    | nil => simpa [readAll] using Shifts.nil
    | cons o offsets => cases count
  | cons t rest ih =>
    cases offsets with
    | nil => cases count
    | cons o offsets =>
      rw [readAll]
      exact ((each t (by simp) _).append
        (ih (fun field member => each field (by simp [member])) (by simpa using count))
        (t.read_piece addresses _).balanced
        (readAll_piece rest offsets addresses offset).balanced).cast (by simp; omega)

section
variable {address : Instruction} (pushes : Shifts a [address] 0 1) (addresses : Addresses address)
include pushes addresses

theorem storeAt_shifts (access : Access) (offset : Nat) :
    Shifts a [address, .store access offset] 1 0 :=
  (pushes.append (store_shifts access offset) (.plain addresses.1 .nil) (.plain rfl .nil)).cast
    (by omega)

theorem loadAt_shifts (access : Access) (offset : Nat) :
    Shifts a [address, .load access offset] 0 1 :=
  (pushes.append (load_shifts access offset) (.plain addresses.1 .nil) (.plain rfl .nil)).cast
    (by omega)

theorem storePair_shifts (offset : Nat) : Shifts a (storePair address offset) 2 0 :=
  (storeAt_shifts pushes addresses .i32 (offset + 4)).append
    (storeAt_shifts pushes addresses .i32 offset) (.plain addresses.1 (.plain rfl .nil))
    (.plain addresses.1 (.plain rfl .nil))

theorem loadPair_shifts (offset : Nat) : Shifts a (loadPair address offset) 0 2 :=
  (loadAt_shifts pushes addresses .i32 offset).append
    (loadAt_shifts pushes addresses .i32 (offset + 4)) (.plain addresses.1 (.plain rfl .nil))
    (.plain addresses.1 (.plain rfl .nil))

end

theorem write_shifts {t : Tree} (unfolds : t.Unfolds a) {address : Instruction}
    (pushes : Shifts a [address] 0 1) (addresses : Addresses address) (offset : Nat) :
    Shifts a (t.write address offset) 1 0 := by
  induction t generalizing address offset with
  | prim p =>
    rw [write]
    split
    · exact (stringLower_shifts.append (storePair_shifts pushes addresses offset) (.plain rfl .nil)
        (storePair_piece addresses offset).balanced).cast (by omega)
    · rename_i access found
      exact ((numericWiden_shifts p access.slot).append (storeAt_shifts pushes addresses access offset)
        (.plain rfl .nil) (.plain addresses.1 (.plain rfl .nil))).cast (by omega)
  | product form id fields offsets extent ih =>
    have placed := (unfolds.2.1 trivial).length
    have members : Shifts a (writeAll fields offsets address offset) fields.length 0 :=
      writes_shift addresses (fun field member o =>
        ih field member (mirrorsAll_iff.mp unfolds.2.2 field member) pushes addresses o)
        placed
    rw [write]
    exact ((lowering_shifts unfolds).append members
      (.plain (lowering_bracket form id fields.length) .nil)
      (writeAll_piece fields offsets addresses offset).balanced).cast (by omega)
  | enumeration id count extent =>
    exact ((enumLower_shifts id).append (storeAt_shifts pushes addresses _ offset) (.plain rfl .nil)
      (.plain addresses.1 (.plain rfl .nil))).cast (by omega)
  | option id payload start extent ih =>
    have mark (n : Int) : Shifts a ([i32Const n] ++ [address, .store .u8 offset]) 0 0 :=
      ((fetch_shifts rfl).append (storeAt_shifts pushes addresses .u8 offset) (.plain rfl .nil)
        (.plain addresses.1 (.plain rfl .nil))).cast (by omega)
    have marked (n : Int) : Balanced ([i32Const n] ++ [address, .store .u8 offset]) :=
      .plain rfl (.plain addresses.1 (.plain rfl .nil))
    have body := (payload.write_piece addresses (offset + start)).balanced
    have fetch : Shifts a [variantPayload] 0 1 := fetch_shifts rfl
    have inner := fetch.append (ih unfolds.2.2 pushes addresses (offset + start))
      (.plain rfl .nil) body
    have present := (mark 1).append inner (marked 1) (.plain rfl body)
    have whole := optionLower_shifts payload.type [] 0 (mark 0) present (marked 0)
      ((marked 1).append (.plain rfl body))
    simpa [write] using whole
  | list id element ih =>
    have body := ih unfolds.2 (fetch_shifts rfl) iterBasePointer_addresses 0
    have piece := element.write_piece iterBasePointer_addresses 0
    exact ((lowerList_shifts element piece.balanced body).append
      (storePair_shifts pushes addresses offset) (lowerList_piece address element piece).balanced
      (storePair_piece addresses offset).balanced).cast (by omega)
  | synonym id target ih => exact ih unfolds.2 pushes addresses offset

theorem read_shifts {t : Tree} (unfolds : t.Unfolds a) {address : Instruction}
    (pushes : Shifts a [address] 0 1) (addresses : Addresses address) (offset : Nat) :
    Shifts a (t.read address offset) 0 1 := by
  induction t generalizing address offset with
  | prim p =>
    rw [read]
    split
    · exact ((loadPair_shifts pushes addresses offset).append stringLift_shifts
        (loadPair_piece addresses offset).balanced (.plain rfl .nil)).cast (by omega)
    · rename_i access found
      exact ((loadAt_shifts pushes addresses access offset).append
        (numericNarrow_shifts access.slot p) (.plain addresses.1 (.plain rfl .nil))
        (.plain rfl .nil)).cast (by omega)
  | product form id fields offsets extent ih =>
    have placed := (unfolds.2.1 trivial).length
    have members : Shifts a (readAll fields offsets address offset) 0 fields.length :=
      reads_shift addresses (fun field member o =>
        ih field member (mirrorsAll_iff.mp unfolds.2.2 field member) pushes addresses o)
        placed
    rw [read]
    exact (members.append (lifting_shifts unfolds)
      (readAll_piece fields offsets addresses offset).balanced
      (.plain (lifting_bracket form id fields.length) .nil)).cast (by omega)
  | enumeration id count extent =>
    exact ((loadAt_shifts pushes addresses _ offset).append (enumLift_shifts id)
      (.plain addresses.1 (.plain rfl .nil)) (.plain rfl .nil)).cast (by omega)
  | option id payload start extent ih =>
    have body := (payload.read_piece addresses (offset + start)).balanced
    have lifted := optionLift_shifts payload.type 0
      (ih unfolds.2.2 pushes addresses (offset + start)) body
    have whole := ((loadAt_shifts pushes addresses .u8 offset).append lifted
      (.plain addresses.1 (.plain rfl .nil)) (.block .nil (.block body (.plain rfl .nil)))).cast
      (show 0 + (0 + 1) + 1 = 0 + (1 + 1) by omega)
    simpa [read] using whole
  | list id element ih =>
    have body := ih unfolds.2 (fetch_shifts rfl) iterBasePointer_addresses 0
    have piece := element.read_piece iterBasePointer_addresses 0
    exact ((loadPair_shifts pushes addresses offset).append
      (liftList_shifts element piece.balanced body) (loadPair_piece addresses offset).balanced
      (liftList_piece address element piece).balanced).cast (by omega)
  | synonym id target ih => exact ih unfolds.2 pushes addresses offset

theorem readAll_shifts {fields : List Tree} (unfolds : UnfoldsAll a fields) {address : Instruction}
    (pushes : Shifts a [address] 0 1) (addresses : Addresses address) (offset : Nat)
    {offsets : List Nat} (count : offsets.length = fields.length) :
    Shifts a (readAll fields offsets address offset) 0 fields.length :=
  reads_shift addresses (fun field member o =>
    read_shifts (mirrorsAll_iff.mp unfolds field member) pushes addresses o) count

private theorem lowers_shift {fields : List Tree} {lowered : Nat}
    (each : ∀ field ∈ fields, Shifts a field.lower 1 field.slots.length) :
    Shifts a (lowerAll lowered fields) fields.length (slotsAll fields).length := by
  induction fields generalizing lowered with
  | nil => exact .nil
  | cons t rest ih =>
    have roll := rolls_shifts (a := a) 1 (rest.length + lowered)
    rw [List.replicate_one, List.flatten_singleton] at roll
    have rolled := (rollTo_piece iterBasePointer (rest.length + lowered)).balanced
    have others : Shifts a (lowerAll (lowered + t.slots.length) rest) rest.length
        (slotsAll rest).length := ih fun field member => each field (by simp [member])
    rw [lowerAll]
    exact ((roll.append (each t (by simp)) rolled t.lower_balanced).append others
      (rolled.append t.lower_balanced) (lowerAll_balanced rest _)).cast (by
        simp only [List.length_cons, slotsAll, List.length_append]
        omega)

theorem lower_shifts {t : Tree} (unfolds : t.Unfolds a) : Shifts a t.lower 1 t.slots.length := by
  induction t with
  | prim p => cases p <;> first | exact stringLower_shifts | exact numericWiden_shifts _ _
  | product form id fields offsets extent ih =>
    have members : Shifts a (lowerAll 0 fields) fields.length (slotsAll fields).length :=
      lowers_shift fun field member => ih field member (mirrorsAll_iff.mp unfolds.2.2 field member)
    exact ((lowering_shifts unfolds).append members
      (.plain (lowering_bracket form id fields.length) .nil)
      (lowerAll_balanced fields 0)).cast (by simp only [slots]; omega)
  | enumeration id count extent => exact enumLower_shifts id
  | option id payload start extent ih =>
    have absent : Shifts a ([i32Const 0] ++ zeros payload.slots) 0 (1 + payload.slots.length) :=
      (fetch_shifts rfl).append (zeros_shifts payload.slots) (.plain rfl .nil)
        (zeros_balanced _)
    have first : Shifts a [i32Const 1] 0 1 := fetch_shifts rfl
    have second : Shifts a [variantPayload] 0 1 := fetch_shifts rfl
    have present := first.append (second.append (ih unfolds.2.2) (.plain rfl .nil)
      payload.lower_balanced) (.plain rfl .nil) (.plain rfl payload.lower_balanced)
    have whole := optionLower_shifts payload.type (.i32 :: payload.slots) (payload.slots.length + 1)
      absent present (.plain rfl (zeros_balanced _)) (.plain rfl (.plain rfl payload.lower_balanced))
    simpa [lower, slots] using whole
  | list id element ih =>
    exact lowerList_shifts element (element.write_piece iterBasePointer_addresses 0).balanced
      (write_shifts unfolds.2 (fetch_shifts rfl) iterBasePointer_addresses 0)
  | synonym id target ih => exact ih unfolds.2

private theorem lifts_shift {fields : List Tree} {lifted : Nat}
    (each : ∀ field ∈ fields, Shifts a field.lift field.slots.length 1) :
    Shifts a (liftAll lifted fields) (slotsAll fields).length fields.length := by
  induction fields generalizing lifted with
  | nil => exact .nil
  | cons t rest ih =>
    have rolls : Shifts a (List.replicate t.slots.length
      (rollTo (t.slots.length + (slotsAll rest).length - 1 + lifted))).flatten 0 0 := rolls_shifts _ _
    have rolled := rolls_balanced t.slots.length
      (t.slots.length + (slotsAll rest).length - 1 + lifted)
    have others : Shifts a (liftAll (lifted + 1) rest) (slotsAll rest).length rest.length :=
      ih fun field member => each field (by simp [member])
    rw [liftAll]
    exact ((rolls.append (each t (by simp)) rolled t.lift_balanced).append others
      (rolled.append t.lift_balanced) (liftAll_balanced rest _)).cast (by
        simp only [List.length_cons, slotsAll, List.length_append]
        omega)

theorem lift_shifts {t : Tree} (unfolds : t.Unfolds a) : Shifts a t.lift t.slots.length 1 := by
  induction t with
  | prim p => cases p <;> first | exact stringLift_shifts | exact numericNarrow_shifts _ _
  | product form id fields offsets extent ih =>
    have members : Shifts a (liftAll 0 fields) (slotsAll fields).length fields.length :=
      lifts_shift fun field member => ih field member (mirrorsAll_iff.mp unfolds.2.2 field member)
    exact (members.append (lifting_shifts unfolds) (liftAll_balanced fields 0)
      (.plain (lifting_bracket form id fields.length) .nil)).cast
      (by simp only [slots]; omega)
  | enumeration id count extent => exact enumLift_shifts id
  | option id payload start extent ih =>
    have whole := optionLift_shifts payload.type payload.slots.length (ih unfolds.2.2)
      payload.lift_balanced
    simpa [lift, slots] using whole
  | list id element ih =>
    exact liftList_shifts element (element.read_piece iterBasePointer_addresses 0).balanced
      (read_shifts unfolds.2 (fetch_shifts rfl) iterBasePointer_addresses 0)
  | synonym id target ih => exact ih unfolds.2

theorem fetch_all_shifts (nth count : Nat) :
    Shifts a ((List.range' nth count).map getArg) 0 count := by
  induction count generalizing nth with
  | zero => exact .nil
  | succ count ih =>
    have first : Shifts a [getArg nth] 0 1 := fetch_shifts rfl
    rw [List.range'_succ, List.map_cons]
    exact (first.append (ih (nth + 1)) (.plain rfl .nil)
      (fetch_piece iterBasePointer _ _).balanced).cast (by omega)

theorem passAll_shifts {fields : List Tree} (unfolds : UnfoldsAll a fields) (nth : Nat) :
    Shifts a (passAll nth fields) 0 (slotsAll fields).length := by
  induction fields generalizing nth with
  | nil => exact .nil
  | cons t rest ih =>
    have first : Shifts a [getArg nth] 0 1 := fetch_shifts rfl
    exact ((first.append (lower_shifts unfolds.1) (.plain rfl .nil) t.lower_balanced).append
      (ih unfolds.2 (nth + 1)) (.plain rfl t.lower_balanced)
      (passAll_piece iterBasePointer rest _).balanced).cast (by
        simp only [slotsAll, List.length_append]
        omega)

theorem storeAll_shifts {fields : List Tree} (unfolds : UnfoldsAll a fields) {area : Instruction}
    (pushes : Shifts a [area] 0 1) (addresses : Addresses area) (offsets : List Nat) (nth : Nat) :
    Shifts a (storeAll area nth fields offsets) 0 0 := by
  induction fields generalizing nth offsets with
  | nil => simpa [storeAll] using Shifts.nil
  | cons t rest ih =>
    cases offsets with
    | nil => simpa [storeAll] using Shifts.nil
    | cons o offsets =>
      have first : Shifts a [getArg nth] 0 1 := fetch_shifts rfl
      have write := (t.write_piece addresses o).balanced
      exact ((first.append (write_shifts unfolds.1 pushes addresses o) (.plain rfl .nil)
        write).append (ih unfolds.2 offsets (nth + 1)) (.plain rfl write)
        (storeAll_piece addresses rest offsets (nth + 1)).balanced).cast (by omega)

theorem receiveAll_shifts {fields : List Tree} (unfolds : UnfoldsAll a fields) (nth : Nat) :
    Shifts a (receiveAll nth fields) 0 fields.length := by
  induction fields generalizing nth with
  | nil => exact .nil
  | cons t rest ih =>
    have fetch := (fetch_piece iterBasePointer nth t.slots.length).balanced
    exact (((fetch_all_shifts nth _).append (lift_shifts unfolds.1) fetch t.lift_balanced).append
      (ih unfolds.2 _) (fetch.append t.lift_balanced)
      (receiveAll_piece iterBasePointer rest _).balanced).cast (by
        simp only [List.length_cons]
        omega)

end ZigBindings.Tree

namespace ZigBindings
open Machine Instruction Crossing

variable {a : Arena}

theorem Group.pass_shifts {types : List Ty} (g : Group a types) :
    Shifts a g.pass 0 (g.row g.spills).length := by
  unfold Group.pass Group.row
  cases g.spills with
  | true =>
    have pushes : Shifts a [g.paramArea] 0 1 := fetch_shifts rfl
    exact (Tree.storeAll_shifts g.unfolds pushes g.paramArea_addresses g.offsets 0).append pushes
      (Tree.storeAll_piece g.paramArea_addresses _ _ _).balanced (.plain rfl .nil)
  | false => exact Tree.passAll_shifts g.unfolds 0

theorem Group.receive_shifts {types : List Ty} (g : Group a types) :
    Shifts a g.receive 0 g.fields.length := by
  unfold Group.receive
  cases g.spills with
  | true =>
    have placed := g.placed.length
    exact Tree.readAll_shifts g.unfolds (fetch_shifts rfl) ⟨rfl, rfl⟩ 0 (by simpa using placed)
  | false => exact Tree.receiveAll_shifts g.unfolds 0

theorem Call.leave_shifts {f : Function} (c : Call a f) :
    Shifts a c.leave 0 (c.signature .outward).params.length := by
  unfold Call.leave Call.signature
  have passed := c.params.pass_shifts
  cases c.results.returned with
  | true =>
    exact (passed.append (fetch_shifts rfl) c.params.pass_piece.balanced (.plain rfl .nil)).cast
      (by simp)
  | false => exact (passed.append .nil c.params.pass_piece.balanced .nil).cast (by simp)

end ZigBindings
