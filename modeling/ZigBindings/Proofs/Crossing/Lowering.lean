import ZigBindings.Proofs.Crossing.Lifting
import ZigBindings.Proofs.Crossing.Slicing

/-! Code that lowers a value: written to memory, or turned into slots on top of the stack, it
stands for the value, and memory taken before keeps its bytes. -/

namespace ZigBindings.Tree
open Machine Instruction Crossing

variable {laid : Prop}

theorem step_lowering {form : Form} {id : Nat} {fields : List Tree} {offsets : List Nat}
    {extent : Layout.Extent} {scope : Outlook}
    (mirrors : (product form id fields offsets extent).Mirrors scope.arena laid) {s : State}
    {members : List Value} (count : members.length = fields.length) :
    step scope (s.push (.value (.product form members))) (form.lowering id fields.length) =
      .ok (s.pushAll (members.map .value)) := by
  have lowered : productLower (s.push (.value (.product form members))) form fields.length =
      .ok (s.pushAll (members.map .value)) := by
    simp only [productLower, State.popValue_push, ok_bind, items, count, and_self, if_true,
      pure_eq_ok]
  cases form with
  | tuple => exact lowered
  | record =>
    have arity := recordArity_of_mirrors mirrors
    simp only [Form.lowering, step, arity, ok_bind, lowered]

theorem step_enumLower {id count : Nat} {extent : Layout.Extent} {scope : Outlook}
    (mirrors : (enumeration id count extent).Mirrors scope.arena laid) {s : State} {index : Nat}
    (bound : index < count) :
    step scope (s.push (.value (.choice index))) (.enumLower id) =
      .ok (s.push (.slot .i32 index)) := by
  simp only [step, Machine.enumLower, caseCount_of_mirrors mirrors, ok_bind, State.popValue_push,
    guard_pos (decide_eq_true bound), pure_eq_ok]

theorem step_numericWiden {scope : Outlook} {s : State} {p : Primitive} {slot : Slot} {bits : Nat}
    (width : (Zig.slotWidths p).contains slot.bits = true) :
    step scope (s.push (.value (.scalar bits))) (.numericWiden p slot) =
      .ok (s.push (.slot slot (widen p slot bits))) := by
  simp only [step, Machine.numericWiden, guard_pos width, ok_bind, State.popValue_push, scalar,
    pure_eq_ok]

theorem run_storePair {scope : Outlook} {address : Instruction} {base offset : Nat}
    (points : Points scope address base) (bound : base + offset + 8 ≤ 2 ^ 32) (s : State)
    (start length : Nat) :
    run (storePair address offset) scope (pushSlice s start length) =
      .ok (s.withStore ((s.store.write (base + offset + 4) 4 length).write (base + offset) 4 start)) := by
  have code : storePair address offset =
      [address, .store .i32 (offset + 4)] ++ [address, .store .i32 offset] := rfl
  have first : Balanced [address, .store .i32 (offset + 4)] := .plain points.1.1 (.plain rfl .nil)
  have second : Balanced [address, .store .i32 offset] := .plain points.1.1 (.plain rfl .nil)
  have pushed : pushSlice s start length =
      (s.push (.slot Access.i32.slot start)).push (.slot Access.i32.slot length) := rfl
  rw [code, run_append first second, pushed,
    run_store points (by simp only [Access.size]; omega), ok_bind, State.push_withStore,
    run_store points (by simp only [Access.size]; omega)]
  rfl

theorem changes_write (st : Store) (address size bits : Nat) :
    Changes (Within address (address + size)) st (st.write address size bits) :=
  ⟨fun _ covered => covered, fun _ outside _ => Memory.store_outside outside⟩

theorem stored_number (st : Store) (address size bits : Nat) :
    Stored (Within address (address + size)) (fun m => m.load address size = bits % 256 ^ size) st
      (st.write address size bits) :=
  ⟨changes_write st address size bits,
    (Kept.load (Memory.load_store st.memory address size bits)).mono fun _ => .inl⟩

theorem stored_slice {address start length : Nat} {before middle : Store}
    (holds : Memory → Nat → Prop) (low : start < 2 ^ 32) (short : length < 2 ^ 32)
    (inside : ∀ x, Within address (address + 8) x → Covered before.taken x)
    (changes : Changes (fun _ => False) before middle)
    (kept : Kept (Newly before middle) middle.memory fun m => holds m start) :
    Stored (Within address (address + 8))
      (fun m => holds m (m.load address 4) ∧ m.load (address + 4) 4 = length) before
      ((middle.write (address + 4) 4 length).write address 4 start) := by
  have content : Stored (fun _ => False) (fun m => holds m start) before middle :=
    ⟨changes, kept.mono fun _ => .inr⟩
  have count := stored_number middle (address + 4) 4 length
  have pointer := stored_number (middle.write (address + 4) 4 length) address 4 start
  rw [Nat.mod_eq_of_lt (by omega)] at count pointer
  have first := content.trans count (fun _ never => never.elim)
    (fun x within => inside x (within.widen (by omega) (by omega)))
    fun _ never => never.elim
  have whole := first.trans pointer
    (fun x member => member.elim False.elim fun within =>
      inside x (within.widen (by omega) (by omega)))
    (fun x within => inside x ⟨within.1, by have := within.2; omega⟩)
    fun x member within => member.elim False.elim fun behind => by
      have := behind.1
      have := within.2
      omega
  refine (whole.mono fun x member => ?_).imp fun m held => ?_
  · rcases member with (never | within) | within
    · exact never.elim
    · exact within.widen (by omega) (by omega)
    · exact ⟨within.1, by have := within.2; omega⟩
  · obtain ⟨⟨content, count⟩, pointer⟩ := held
    exact ⟨by rw [pointer]; exact content, count⟩

theorem optionLower_present {scope : Outlook} {s : State} {present absent : Routine} {ty : Ty}
    {results : List Slot} {inner : Value} {requests : Nat → Nat → Prop}
    {wanted : List Operand × Store → Prop}
    (ran : Reaches scope.allocator requests (present.run (scope.atPayload (some inner)) s.store) wanted)
    (types : ∀ left, wanted left → left.1.reverse.map Operand.type? = results.map some) :
    Reaches scope.allocator requests
      (step scope (((s.push (.value (.present inner))).withBlock absent).withBlock present)
        (.optionLower ty results)) fun s' =>
      ∃ left st, wanted (left, st) ∧ s' = (s.withStore st).pushAll left.reverse := by
  simp only [step, Machine.optionLower, State.popBlock_withBlock, ok_bind, State.popValue_push]
  refine ran.bind fun left holds => ?_
  rw [guard_pos (decide_eq_true (types left holds)), ok_bind]
  exact ⟨left.1, left.2, holds, by simp [State.pushAll, State.withStore]⟩

theorem optionLower_absent {scope : Outlook} {s : State} {present absent : Routine} {ty : Ty}
    {results : List Slot} {left : List Operand} {st : Store}
    (ran : absent.run (scope.atPayload none) s.store = .ok (left, st))
    (types : left.reverse.map Operand.type? = results.map some) :
    step scope (((s.push (.value .absent)).withBlock absent).withBlock present)
      (.optionLower ty results) = .ok ((s.withStore st).pushAll left.reverse) := by
  simp only [step, Machine.optionLower, State.popBlock_withBlock, ok_bind, State.popValue_push, ran,
    guard_pos (decide_eq_true types), pure_eq_ok]
  simp [State.pushAll, State.withStore]

theorem run_writeAll {fields : List Tree} (each : ∀ field ∈ fields, field.Writes) {scope : Outlook}
    (unfolds : UnfoldsAll scope.arena fields) {address : Instruction} {base : Nat}
    (points : Points scope address base) (offset : Nat) {offsets : List Nat} {start stop : Nat}
    (placed : Layout.Placed start (fields.map Tree.extent) offsets stop)
    (bound : base + offset + stop ≤ 2 ^ 32) {s : State} {values : List Value}
    (admits : AdmitsAll fields values)
    (inside : ∀ x, Within (base + offset + start) (base + offset + stop) x →
      Covered s.store.taken x) :
    Reaches scope.allocator (AsksAll fields values)
      (run (writeAll fields offsets address offset) scope (s.pushAll (values.map .value)))
      fun s' => ∃ st, s' = s.withStore st ∧
        Stored (TouchesAll fields offsets (base + offset) values)
          (fun m => EncodedAll m fields offsets (base + offset) values) s.store st := by
  induction fields generalizing offsets start s values with
  | nil =>
    cases values with
    | nil =>
      simp only [writeAll, List.map_nil, State.pushAll_nil, run_nil]
      exact ⟨s.store, rfl, .refl fun m => trivial⟩
    | cons v values => exact admits.elim
  | cons t rest ih =>
    cases offsets with
    | nil => exact placed.elim
    | cons o offsets =>
      cases values with
      | nil => exact admits.elim
      | cons v values =>
        obtain ⟨own, later, apart⟩ := touches_cons (base + offset) unfolds placed (by omega)
          v values
        obtain ⟨behind, others⟩ := placed
        have last := others.le
        have size_eq : t.size = t.extent.size := rfl
        rw [writeAll, run_append (writeAll_piece rest offsets points.1 offset).balanced
          (t.write_piece points.1 _).balanced, List.map_cons, State.pushAll_cons]
        have written := ih (fun field member => each field (by simp [member])) unfolds.2 others
          (s := s.push (.value v)) admits.2 fun x within => inside x
            (within.widen (by omega) le_rfl)
        refine (written.widen fun size align => .inr).bind fun s' written => ?_
        obtain ⟨middle, rfl, stored⟩ := written
        rw [State.push_withStore]
        have reached := each t (by simp) scope (s.withStore middle) (offset + o) unfolds.1 points
          admits.1 (by omega) fun x within => stored.changes.grows x (inside x
            (within.widen (by omega) (by omega)))
        refine (reached.widen fun size align => .inl).mono fun s' holds => ?_
        obtain ⟨st, result, also⟩ := holds
        rw [State.withStore_store, ← Nat.add_assoc] at also
        refine ⟨st, result, ?_⟩
        have both := stored.trans also (fun x touches => inside x (later x touches))
          (fun x touches => inside x (own x touches)) fun x there here => apart x here there
        exact (both.mono fun x => Or.symm).imp fun m => And.symm

theorem writes_prim (p : Primitive) : (prim p).Writes := by
  intro scope s address base offset v unfolds points admits bound inside
  cases v with
  | text bytes =>
    obtain ⟨rfl, short⟩ := admits
    have code : (prim .string).write address offset =
        .stringLower :: storePair address offset := rfl
    have pair := storePair_piece points.1 offset
    rw [code, run_cons rfl pair.balanced]
    refine (stringLower_reaches scope s bytes short).bind fun s' lowered => ?_
    obtain ⟨start, st, sliced⟩ := lowered
    rw [sliced.result, run_storePair points bound]
    exact ⟨_, rfl, (stored_slice (fun m start => TextAt m start bytes) sliced.low short inside
      sliced.changes sliced.kept).imp fun m held => ⟨rfl, held⟩⟩
  | scalar bits =>
    obtain ⟨number, small⟩ := admits
    obtain ⟨access, found⟩ := access_of_number number
    have sizes : (Layout.primitiveExtent p).size = access.size := access_size found
    have whole : (prim p).size = access.size := sizes
    have code : (prim p).write address offset =
        .numericWiden p access.slot :: [address, .store access offset] := by
      simp [write, found]
    have width := slot_carries number
    rw [← access_slot found] at width
    rw [code, run_cons rfl (.plain points.1.1 (.plain rfl .nil)), step_numericWiden width, ok_bind,
      run_store points (by omega)]
    refine ⟨_, rfl, ((stored_number s.store _ _ _).mono fun x within => ?_).imp
      fun m loaded => ⟨small, access, found, ?_⟩⟩
    · rwa [Touches, sizes]
    · rw [loaded, widen_stored found small]
  | _ => exact admits.elim

theorem writes_product {form : Form} {id : Nat} {fields : List Tree} {offsets : List Nat}
    {extent : Layout.Extent} (each : ∀ field ∈ fields, field.Writes) :
    (product form id fields offsets extent).Writes := by
  intro scope s address base offset v unfolds points admits bound inside
  have whole : (product form id fields offsets extent).size = extent.size := rfl
  rw [whole] at bound inside
  cases v with
  | product found members =>
    obtain ⟨rfl, admits⟩ := admits
    have plain := lowering_bracket found id fields.length
    have reached := run_writeAll each unfolds.2.2 points offset
      (product_placed unfolds (by omega)) bound admits (s := s) inside
    rw [write, run_cons plain (writeAll_piece fields offsets points.1 offset).balanced,
      step_lowering unfolds (admitsAll_length admits), ok_bind]
    refine (reached.widen fun size align asks => ⟨rfl, asks⟩).mono fun s' holds => ?_
    obtain ⟨st, result, stored⟩ := holds
    exact ⟨st, result, stored.imp fun m encoded => ⟨rfl, encoded⟩⟩
  | _ => exact admits.elim

theorem writes_enumeration (id count : Nat) (extent : Layout.Extent) :
    (enumeration id count extent).Writes := by
  intro scope s address base offset v unfolds points admits bound inside
  have whole : (enumeration id count extent).size = extent.size := rfl
  rw [whole] at bound
  cases v with
  | choice index =>
    have fits := enumeration_placed unfolds (by omega)
    rw [← discriminantAccess_size] at fits
    have code : (enumeration id count extent).write address offset =
        .enumLower id :: [address, .store (discriminantAccess count) offset] := rfl
    rw [code, run_cons rfl (.plain points.1.1 (.plain rfl .nil)), step_enumLower unfolds admits,
      ok_bind, ← discriminantAccess_slot count, run_store points (by omega)]
    refine ⟨_, rfl, ((stored_number s.store _ _ _).mono fun x within => ?_).imp
      fun m loaded => ⟨admits, ?_⟩⟩
    · rwa [Touches, ← discriminantAccess_size]
    · rw [loaded, Nat.mod_eq_of_lt (index_fits unfolds.2.1 admits)]
  | _ => exact admits.elim

theorem writes_absent {scope : Outlook} {address : Instruction} {base offset : Nat}
    (points : Points scope address base) (bound : base + offset + 1 ≤ 2 ^ 32) (st : Store) :
    (blockOf false [] [i32Const 0, address, .store .u8 offset] 0).run (scope.atPayload none) st =
      .ok ([], st.write (base + offset) 1 0) := by
  have pair : Balanced [address, .store .u8 offset] := .plain points.1.1 (.plain rfl .nil)
  have zero : step (scope.atPayload none) { operands := [].reverse, store := st } (i32Const 0) =
      .ok (({ operands := [], store := st } : State).push (.slot Access.u8.slot 0)) := rfl
  refine blockOf_run ?_ rfl
  rw [run_cons rfl pair, zero, ok_bind, run_store (points.atPayload none)
    (by simp only [Access.size]; omega)]
  rfl

theorem writes_present {payload : Tree} (writes : payload.Writes) {scope : Outlook}
    (unfolds : payload.Unfolds scope.arena) {address : Instruction} {base offset start : Nat}
    (points : Points scope address base) {v : Value} (admits : payload.Admits v) {st : Store}
    (behind : 1 ≤ start) (bound : base + offset + start + payload.size ≤ 2 ^ 32)
    (inside : ∀ x, Within (base + offset) (base + offset + start + payload.size) x →
      Covered st.taken x) :
    Reaches scope.allocator (payload.Asks v)
      ((blockOf false [] ([i32Const 1, address, .store .u8 offset, variantPayload] ++
        payload.write address (offset + start)) 0).run (scope.atPayload (some v)) st) fun left =>
      left.1 = [] ∧
      Stored (fun x => Within (base + offset) (base + offset + 1) x ∨
          payload.Touches (base + offset + start) v x)
        (fun m => m.load (base + offset) 1 = 1 ∧ payload.Encoded m (base + offset + start) v)
        st left.2 := by
  have here := points.atPayload (some v)
  have body := payload.write_piece points.1 (offset + start)
  have code : [i32Const 1, address, .store .u8 offset, variantPayload] ++
      payload.write address (offset + start) = i32Const 1 :: ([address, .store .u8 offset] ++
        (variantPayload :: payload.write address (offset + start))) := rfl
  have last : Balanced (variantPayload :: payload.write address (offset + start)) :=
    .plain rfl body.balanced
  have pair : Balanced [address, .store .u8 offset] := .plain points.1.1 (.plain rfl .nil)
  refine blockOf_reaches (scope.atPayload (some v)) ?_
  have one : step (scope.atPayload (some v)) { operands := [], store := st } (i32Const 1) =
      .ok (({ operands := [], store := st } : State).push (.slot Access.u8.slot 1)) := rfl
  rw [code, run_cons rfl (pair.append last), List.reverse_nil, one, ok_bind, run_append pair last,
    run_store here (by simp only [Access.size]; omega), ok_bind, run_cons rfl body.balanced]
  have marked : Stored (Within (base + offset) (base + offset + 1))
      (fun m => m.load (base + offset) 1 = 1) st (st.write (base + offset) Access.u8.size 1) :=
    stored_number st (base + offset) 1 1
  have bound_payload : ∀ s, step (scope.atPayload (some v)) s variantPayload =
      .ok (s.push (.value v)) := fun s => rfl
  rw [bound_payload, ok_bind]
  have early : ∀ x, Within (base + offset) (base + offset + 1) x → Covered st.taken x :=
    fun x within => inside x ⟨within.1, by have := within.2; omega⟩
  have late : ∀ x, payload.Touches (base + offset + start) v x →
      Within (base + offset + start) (base + offset + start + payload.size) x := fun x touches =>
    touches.within unfolds (by omega)
  have reached := writes (scope.atPayload (some v))
    (({ operands := [], store := st } : State).withStore
      (st.write (base + offset) Access.u8.size 1)) (offset + start) unfolds here
    admits (by omega) fun x within => marked.changes.grows x (inside x
      (within.widen (by omega) (by omega)))
  refine reached.mono fun s' holds => ?_
  obtain ⟨after, rfl, stored⟩ := holds
  rw [State.withStore_store, ← Nat.add_assoc] at stored
  refine ⟨rfl, rfl, rfl, marked.trans stored early
    (fun x touches => inside x ((late x touches).widen (by omega) le_rfl))
    fun x within touches => ?_⟩
  have := within.2
  have := (late x touches).1
  omega

theorem writes_option {id start : Nat} {payload : Tree} {extent : Layout.Extent}
    (writes : payload.Writes) : (option id payload start extent).Writes := by
  intro scope s address base offset v unfolds points admits bound inside
  have whole : (option id payload start extent).size = extent.size := rfl
  rw [whole] at bound inside
  obtain ⟨behind, within⟩ := option_placed unfolds (by omega)
  have body := payload.write_piece points.1 (offset + start)
  have code : (option id payload start extent).write address offset =
      blockBegin 0 false :: ([i32Const 0, address, .store .u8 offset] ++ blockEnd 0 ::
        (blockBegin 0 false :: (([i32Const 1, address, .store .u8 offset, variantPayload] ++
          payload.write address (offset + start)) ++
          blockEnd 0 :: [.optionLower payload.type []]))) := by
    simp [write]
  have absent : Balanced [i32Const 0, address, .store .u8 offset] :=
    .plain rfl (.plain points.1.1 (.plain rfl .nil))
  have present : Balanced ([i32Const 1, address, .store .u8 offset, variantPayload] ++
      payload.write address (offset + start)) :=
    Balanced.append (.plain rfl (.plain points.1.1 (.plain rfl (.plain rfl .nil)))) body.balanced
  rw [code, run_twoBlocks absent present rfl]
  cases v with
  | absent =>
    rw [optionLower_absent (writes_absent points (by omega) s.store) rfl]
    exact ⟨_, rfl, stored_number s.store (base + offset) 1 0⟩
  | present inner =>
    refine (optionLower_present (writes_present writes unfolds.2.2 points admits behind
      (by omega) fun x member => inside x ⟨member.1, by have := member.2; omega⟩)
      fun left holds => by rw [holds.1]; rfl).mono fun s' holds => ?_
    obtain ⟨left, st, ⟨nothing, stored⟩, result⟩ := holds
    simp only at nothing
    subst nothing
    exact ⟨st, result, stored⟩
  | _ => exact admits.elim

theorem writes_list {id : Nat} {element : Tree} (writes : element.Writes) :
    (list id element).Writes := by
  intro scope s address base offset v unfolds points admits bound inside
  cases v with
  | list members =>
    obtain ⟨short, admits⟩ := admits
    have code : (list id element).write address offset =
        lowerList element (element.write iterBasePointer 0) ++ storePair address offset := rfl
    have pair := storePair_piece points.1 offset
    have list := lowerList_piece address element
      (element.write_piece iterBasePointer_addresses 0)
    rw [code, run_append list.balanced pair.balanced]
    refine (run_lowerList writes id unfolds.2 s short admits).bind fun s' lowered => ?_
    obtain ⟨start, st, sliced⟩ := lowered
    rw [sliced.result, run_storePair points bound]
    exact ⟨_, rfl, stored_slice (fun m start => Elements m element start members)
      sliced.low short inside sliced.changes sliced.kept⟩
  | _ => exact admits.elim

theorem writes (t : Tree) : t.Writes := by
  induction t with
  | prim p => exact writes_prim p
  | product form id fields offsets extent ih => exact writes_product ih
  | enumeration id count extent => exact writes_enumeration id count extent
  | option id payload start extent ih => exact writes_option ih
  | list id element ih => exact writes_list ih
  | synonym id target ih =>
    intro scope s address base offset v unfolds points admits bound inside
    exact ih scope s offset unfolds.2 points admits bound inside

/-- Slots stand for a value whose texts and lists lie in memory taken meanwhile. -/
structure Carried (before after : Store) (holds : Memory → Prop) : Prop where
  changes : Changes (fun _ => False) before after
  kept : Kept (Newly before after) after.memory holds

theorem Carried.refl {st : Store} {holds : Memory → Prop} (always : ∀ m, holds m) :
    Carried st st holds := ⟨.refl, fun m _ => always m⟩

theorem Carried.trans {first second third : Store} {holds also : Memory → Prop}
    (left : Carried first second holds) (right : Carried second third also) :
    Carried first third fun m => holds m ∧ also m where
  changes := left.changes.trans right.changes
  kept := ((left.kept.taken_later right.changes fun _ never => never.elim).and
    (right.kept.taken_earlier left.changes.grows)).mono fun _ member => member.elim id id

def Lowers (t : Tree) : Prop :=
  ∀ (scope : Outlook) (s : State) {laid : Prop} {v : Value}, t.Mirrors scope.arena laid →
    t.Admits v →
    Reaches scope.allocator (t.Asks v) (run t.lower scope (s.push (.value v))) fun s' =>
      ∃ slots st, s' = (s.withStore st).pushAll slots ∧
        Carried s.store st fun m => t.Flat m slots v

/-- The values not lowered yet stand below the slots of those before them. -/
theorem run_lowerAll {fields : List Tree} (each : ∀ field ∈ fields, field.Lowers) {scope : Outlook}
    (mirrors : MirrorsAll scope.arena laid fields) (s : State) (done : List Operand)
    {values : List Value} (admits : AdmitsAll fields values) :
    Reaches scope.allocator (AsksAll fields values) (run (lowerAll done.length fields) scope
      ((s.pushAll (values.map .value)).pushAll done)) fun s' =>
      ∃ slots st, s' = (s.withStore st).pushAll (done ++ slots) ∧
        Carried s.store st fun m => FlatAll m fields slots values := by
  induction fields generalizing s done values with
  | nil =>
    cases values with
    | nil => exact ⟨[], s.store, by simp, .refl fun m => rfl⟩
    | cons v values => exact admits.elim
  | cons t rest ih =>
    cases values with
    | nil => exact admits.elim
    | cons v values =>
      have count : rest.length + done.length =
          (done.reverse ++ (values.map Operand.value).reverse).length := by
        simp [admitsAll_length admits.2, Nat.add_comm]
      have stack : ((s.pushAll ((v :: values).map .value)).pushAll done).operands =
          (done.reverse ++ (values.map Operand.value).reverse) ++ .value v :: s.operands := by
        simp [State.pushAll_operands]
      have rolled := run_rollTo scope stack
      have stacked : ({ (s.pushAll ((v :: values).map .value)).pushAll done with
          operands := Operand.value v :: (done.reverse ++ (values.map Operand.value).reverse ++
            s.operands) } : State) =
          ((s.pushAll (values.map .value)).pushAll done).push (.value v) := by
        simp [State.pushAll, State.push]
      rw [stacked, ← count] at rolled
      rw [lowerAll, List.append_assoc, run_append (rollTo_piece iterBasePointer _).balanced
        (t.lower_balanced.append (lowerAll_balanced rest _)), rolled, ok_bind,
        run_append t.lower_balanced (lowerAll_balanced rest _)]
      have lowered := each t (by simp) scope ((s.pushAll (values.map .value)).pushAll done) mirrors.1
        admits.1
      refine (lowered.widen fun size align => .inl).bind fun s' lowered => ?_
      obtain ⟨first, middle, result, carried⟩ := lowered
      simp only [State.pushAll_store] at carried
      have next := ih (fun field member => each field (by simp [member])) mirrors.2
        (s.withStore middle) (done ++ first) admits.2
      have length : done.length + t.slots.length = (done ++ first).length := by
        simp [carried.kept.here.length]
      rw [result, length, State.pushAll_withStore, State.pushAll_withStore, ← State.pushAll_append]
      refine (next.widen fun size align => .inr).mono fun s' behind => ?_
      obtain ⟨others, st, result, also⟩ := behind
      refine ⟨first ++ others, st, by simpa using result, (carried.trans also).changes, ?_⟩
      exact (carried.trans also).kept.imp fun m both => ⟨first, others, rfl, both.1, both.2⟩

theorem run_zeros {scope : Outlook} (s : State) (slots : List Slot) :
    run (zeros slots) scope s = .ok (s.pushAll (slots.map fun type => .slot type 0)) := by
  unfold zeros
  cases slots with
  | nil => rfl
  | cons slot slots =>
    rw [if_neg (by simp), run_single rfl]
    rfl

theorem run_lower_option {id start : Nat} {payload : Tree} {extent : Layout.Extent} (scope : Outlook)
    (s : State) :
    run (option id payload start extent).lower scope s =
      step scope ((s.withBlock
        (blockOf false [] (i32Const 0 :: zeros payload.slots) (payload.slots.length + 1))).withBlock
        (blockOf false [] (i32Const 1 :: variantPayload :: payload.lower) (payload.slots.length + 1)))
        (.optionLower payload.type (.i32 :: payload.slots)) := by
  have code : (option id payload start extent).lower =
      blockBegin 0 false :: ((i32Const 0 :: zeros payload.slots) ++
        blockEnd (payload.slots.length + 1) ::
        (blockBegin 0 false :: ((i32Const 1 :: variantPayload :: payload.lower) ++
          blockEnd (payload.slots.length + 1) ::
          [.optionLower payload.type (.i32 :: payload.slots)]))) := by
    simp [lower]
  rw [code, run_twoBlocks (.plain rfl (zeros_balanced _))
    (.plain rfl (.plain rfl payload.lower_balanced)) rfl]

theorem lowers_prim (p : Primitive) : (prim p).Lowers := by
  intro scope s laid v mirrors admits
  cases v with
  | text bytes =>
    obtain ⟨rfl, short⟩ := admits
    rw [lower, run_single rfl]
    refine (stringLower_reaches scope s bytes short).mono fun s' lowered => ?_
    obtain ⟨start, st, sliced⟩ := lowered
    exact ⟨_, st, sliced.result, sliced.changes,
      sliced.kept.imp fun m text => ⟨rfl, start, text, rfl⟩⟩
  | scalar bits =>
    obtain ⟨number, small⟩ := admits
    have code : (prim p).lower = [.numericWiden p p.slot] := by
      cases p <;> first | rfl | exact absurd rfl number
    rw [code, run_single rfl, step_numericWiden (slot_carries number)]
    exact ⟨[_], s.store, rfl, .refl fun m => ⟨number, small, rfl⟩⟩
  | _ => exact admits.elim

theorem lowers_product {form : Form} {id : Nat} {fields : List Tree} {offsets : List Nat}
    {extent : Layout.Extent} (each : ∀ field ∈ fields, field.Lowers) :
    (product form id fields offsets extent).Lowers := by
  intro scope s laid v mirrors admits
  cases v with
  | product found members =>
    obtain ⟨rfl, admits⟩ := admits
    have plain := lowering_bracket found id fields.length
    have reached := run_lowerAll each mirrors.2.2 s [] admits
    rw [lower, run_cons plain (lowerAll_balanced fields 0),
      step_lowering mirrors (admitsAll_length admits), ok_bind]
    refine (reached.widen fun size align asks => ⟨rfl, asks⟩).mono fun s' lowered => ?_
    obtain ⟨slots, st, result, carried⟩ := lowered
    exact ⟨slots, st, result, carried.changes, carried.kept.imp fun m flats => ⟨rfl, flats⟩⟩
  | _ => exact admits.elim

theorem lowers_enumeration (id count : Nat) (extent : Layout.Extent) :
    (enumeration id count extent).Lowers := by
  intro scope s laid v mirrors admits
  cases v with
  | choice index =>
    rw [lower, run_single rfl, step_enumLower mirrors admits]
    exact ⟨[_], s.store, rfl, .refl fun m => ⟨admits, rfl⟩⟩
  | _ => exact admits.elim

theorem lowers_absent (slots : List Slot) (scope : Outlook) (st : Store) :
    (blockOf false [] (i32Const 0 :: zeros slots) (slots.length + 1)).run (scope.atPayload none) st =
      .ok ((.slot .i32 0 :: slots.map fun type => .slot type 0).reverse, st) := by
  refine blockOf_run ?_ (by simp)
  rw [run_cons rfl (zeros_balanced _)]
  change run (zeros slots) (scope.atPayload none)
    (({ operands := [], store := st } : State).push (.slot .i32 0)) = _
  rw [run_zeros]
  simp [State.pushAll, State.push]

theorem lowers_present {payload : Tree} (lowers : payload.Lowers) {scope : Outlook}
    (mirrors : payload.Mirrors scope.arena laid) {v : Value} (admits : payload.Admits v)
    (st : Store) :
    Reaches scope.allocator (payload.Asks v) ((blockOf false []
      (i32Const 1 :: variantPayload :: payload.lower) (payload.slots.length + 1)).run
      (scope.atPayload (some v)) st) fun left =>
      ∃ slots, left.1.reverse = .slot .i32 1 :: slots ∧
        Carried st left.2 fun m => payload.Flat m slots v := by
  have body := payload.lower_balanced
  refine blockOf_reaches (scope.atPayload (some v)) ?_
  rw [run_cons rfl (.plain rfl body)]
  change Reaches _ _ (run (variantPayload :: payload.lower) (scope.atPayload (some v))
    (({ operands := [], store := st } : State).push (.slot .i32 1))) _
  rw [run_cons rfl body]
  change Reaches _ _ (run payload.lower (scope.atPayload (some v))
    ((({ operands := [], store := st } : State).push (.slot .i32 1)).push (.value v))) _
  refine (lowers (scope.atPayload (some v)) _ mirrors admits).mono fun s' lowered => ?_
  obtain ⟨slots, after, rfl, carried⟩ := lowered
  refine ⟨?_, rfl, slots, ?_, carried⟩
  · simp [State.pushAll_operands, carried.kept.here.length, State.push, State.withStore]
  · simp [State.pushAll_operands, State.push, State.withStore]

theorem lowers_option {id start : Nat} {payload : Tree} {extent : Layout.Extent}
    (lowers : payload.Lowers) : (option id payload start extent).Lowers := by
  intro scope s laid v mirrors admits
  rw [run_lower_option]
  cases v with
  | absent =>
    rw [optionLower_absent (lowers_absent payload.slots scope s.store)
      (by simp [Operand.type?, Function.comp_def])]
    exact ⟨_, s.store, rfl, .refl fun m => List.reverse_reverse _⟩
  | present inner =>
    refine (optionLower_present (lowers_present lowers mirrors.2.2 admits s.store)
      fun left held => ?_).mono fun s' lowered => ?_
    · obtain ⟨slots, pushed, carried⟩ := held
      rw [pushed, List.map_cons, carried.kept.here.types]
      rfl
    · obtain ⟨left, st, ⟨slots, pushed, carried⟩, result⟩ := lowered
      simp only at pushed
      rw [pushed] at result
      exact ⟨_, st, result, carried.changes, carried.kept.imp fun m flat => ⟨slots, rfl, flat⟩⟩
  | _ => exact admits.elim

theorem lowers_list (id : Nat) (element : Tree) : (list id element).Lowers := by
  intro scope s laid v mirrors admits
  cases v with
  | list members =>
    obtain ⟨short, admits⟩ := admits
    refine (run_lowerList element.writes id mirrors.2 s short admits).mono
      fun s' lowered => ?_
    obtain ⟨start, st, sliced⟩ := lowered
    exact ⟨_, st, sliced.result, sliced.changes,
      sliced.kept.imp fun m elements => ⟨start, elements, rfl⟩⟩
  | _ => exact admits.elim

theorem lowers (t : Tree) : t.Lowers := by
  induction t with
  | prim p => exact lowers_prim p
  | product form id fields offsets extent ih => exact lowers_product ih
  | enumeration id count extent => exact lowers_enumeration id count extent
  | option id payload start extent ih => exact lowers_option ih
  | list id element _ => exact lowers_list id element
  | synonym id target ih =>
    intro scope s laid v mirrors admits
    exact ih scope s mirrors.2 admits

end ZigBindings.Tree
