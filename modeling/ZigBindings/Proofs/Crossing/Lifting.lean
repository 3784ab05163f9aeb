import ZigBindings.Proofs.Crossing.Pieces
import ZigBindings.Proofs.Crossing.Slices

/-! Code that lifts a value: read from memory, or from the slots on top of the stack, it ends with
the value on the stack and changes nothing else. -/

namespace ZigBindings.Tree
open Machine Instruction Crossing

def Reads (t : Tree) : Prop :=
  ∀ (scope : Outlook) (s : State) {address : Instruction} {base : Nat} (offset : Nat) {v : Value},
    t.Unfolds scope.arena → Points scope address base →
    t.Encoded s.store.memory (base + offset) v → base + offset + t.size ≤ 2 ^ 32 →
    run (t.read address offset) scope s = .ok (s.push (.value v))

variable {laid : Prop}

theorem recordArity_of_mirrors {a : Arena} {id : Nat} {fields : List Tree} {offsets : List Nat}
    {extent : Layout.Extent} (mirrors : (product .record id fields offsets extent).Mirrors a laid) :
    recordArity a id = .ok fields.length := by
  obtain ⟨kind, found, stands⟩ := mirrors.rooted id rfl
  obtain ⟨absurd, -⟩ | ⟨parts, -, rfl, types⟩ := product_kind stands
  · cases absurd
  · have lengths := congrArg List.length types
    simp only [List.length_map] at lengths
    simp [recordArity, found, lengths]

theorem step_lifting {form : Form} {id : Nat} {fields : List Tree} {offsets : List Nat}
    {extent : Layout.Extent} {scope : Outlook}
    (mirrors : (product form id fields offsets extent).Mirrors scope.arena laid) {s : State}
    {items : List Value} (count : items.length = fields.length) :
    step scope (s.pushAll (items.map .value)) (form.lifting id fields.length) =
      .ok (s.push (.value (.product form items))) := by
  have members : (items.map Operand.value).mapM (fun operand => need operand.value?) = .ok items := by
    rw [mapM_eq_ok, List.forall₂_map_left_iff, List.forall₂_same]
    intro v _
    rfl
  have popped : (s.pushAll (items.map .value)).popN fields.length = .ok (items.map .value, s) :=
    s.popN_pushAll (by simpa using count.symm)
  have lifted : productLift (s.pushAll (items.map .value)) form fields.length =
      .ok (s.push (.value (.product form items))) := by
    simp only [productLift, popped, ok_bind, members, pure_eq_ok]
  cases form with
  | tuple => exact lifted
  | record =>
    have arity := recordArity_of_mirrors mirrors
    simp only [Form.lifting, step, arity, ok_bind, lifted]

theorem caseCount_of_mirrors {id count : Nat} {extent : Layout.Extent} {a : Arena}
    (mirrors : (enumeration id count extent).Mirrors a laid) : caseCount a id = .ok count := by
  obtain ⟨kind, found, cases, rfl, rfl⟩ := mirrors.rooted id rfl
  simp [caseCount, found]

theorem step_enumLift {id count : Nat} {extent : Layout.Extent} {scope : Outlook}
    (mirrors : (enumeration id count extent).Mirrors scope.arena laid) {s : State} {index : Nat}
    (bound : index < count) :
    step scope (s.push (.slot .i32 index)) (.enumLift id) =
      .ok (s.push (.value (.choice index))) := by
  simp only [step, Machine.enumLift, caseCount_of_mirrors mirrors, ok_bind, State.popSlot_push,
    guard_pos (decide_eq_true bound), pure_eq_ok]

theorem popSlice_pushed {s : State} {start length size : Nat}
    (bound : start + length * size ≤ 2 ^ 32) :
    popSlice (pushSlice s start length) size = .ok (start, length, s) := by
  have pushed : pushSlice s start length = (s.push (.slot .i32 start)).push (.slot .i32 length) := rfl
  simp only [popSlice, pushed, State.popSlot_push, ok_bind, guard_pos (decide_eq_true bound),
    pure_eq_ok]

theorem step_stringLift (scope : Outlook) {s : State} {start : Nat} {bytes : List UInt8}
    (text : TextAt s.store.memory start bytes) :
    step scope (pushSlice s start bytes.length) .stringLift =
      .ok (s.push (.value (.text bytes))) := by
  obtain ⟨bound, -, same⟩ := text
  have slice : popSlice (pushSlice s start bytes.length) 1 = .ok (start, bytes.length, s) :=
    popSlice_pushed (by omega)
  simp only [step, Machine.stringLift, slice, ok_bind, same, pure_eq_ok]

theorem blockOf_run {loop : Bool} {moved left : List Operand} {body : List Instruction}
    {results : Nat} {scope : Outlook} {st after : Store}
    (ran : run body scope { operands := moved.reverse, store := st } =
      .ok { operands := left, store := after })
    (count : left.length = results) :
    (blockOf loop moved body results).run scope st = .ok (left, after) := by
  simp only [blockOf, ran, ok_bind, List.isEmpty_nil, Bool.and_true,
    guard_pos (decide_eq_true count), pure_eq_ok]

theorem eachElement_elements {scope : Outlook} {block : Routine} {element : Tree} {st : Store}
    (reads : ∀ start v, element.Encoded st.memory start v → start + element.size ≤ 2 ^ 32 →
      block.run (scope.atElement none start) st = .ok ([.value v], st))
    {items : List Value} {start : Nat} (elements : Elements st.memory element start items) :
    eachElement scope block element.size start items.length st = .ok (items, st) := by
  induction items generalizing start with
  | nil => rfl
  | cons v rest ih =>
    obtain ⟨first, bound⟩ := elements.head
    simp only [List.length_cons, eachElement, reads start v first bound, ok_bind,
      ih elements.tail, pure_eq_ok]

theorem run_liftLoop {element : Tree} {body : List Instruction} (other : ¬ element.isCanonical = true)
    (balanced : Balanced body) (scope : Outlook) (s : State) :
    run (liftList element body) scope s = step scope (s.withBlock (blockOf true [] body 1))
      (.listLift element.type element.extent.size) := by
  have whole : liftList element body = blockBegin 0 true :: (body ++
      blockEnd 1 :: [.listLift element.type element.extent.size]) := by
    simp [liftList, other]
  rw [whole, run_oneBlock balanced rfl]

theorem run_liftList {element : Tree} (reads : element.Reads) {scope : Outlook}
    (unfolds : element.Unfolds scope.arena) {s : State} {start : Nat} {items : List Value}
    (elements : Elements s.store.memory element start items) :
    run (liftList element (element.read iterBasePointer 0)) scope (pushSlice s start items.length) =
      .ok (s.push (.value (.list items))) := by
  by_cases canonical : element.isCanonical = true
  · obtain ⟨p, access, core, found, extent, sliced⟩ := canonical_access unfolds canonical
    have sizes : element.size = access.size := congrArg Layout.Extent.size extent
    rw [liftList, if_pos canonical, run_single rfl]
    have bound := elements.2.1
    rw [sizes] at bound
    simp only [step, Machine.listCanonLift, sliced, ok_bind, popSlice_pushed bound,
      readAll_elements core found sizes elements, pure_eq_ok]
  · have body := element.read_piece iterBasePointer_addresses 0
    have each : ∀ start v, element.Encoded s.store.memory start v →
        start + element.size ≤ 2 ^ 32 →
        (blockOf true [] (element.read iterBasePointer 0) 1).run (scope.atElement none start)
          s.store = .ok ([.value v], s.store) := by
      intro start v encoded bound
      refine blockOf_run ?_ rfl
      have ran := reads (scope.atElement none start) { operands := [], store := s.store } 0 unfolds
        (.atElement none start) encoded bound
      simpa [State.push] using ran
    rw [run_liftLoop canonical body.balanced]
    have collected := eachElement_elements each elements
    have slice : popSlice (pushSlice s start items.length) element.size =
        .ok (start, items.length, s) := popSlice_pushed elements.2.1
    have loop : (blockOf true [] (element.read iterBasePointer 0) 1).loop = true := rfl
    simp only [size] at collected slice
    simp only [step, Machine.listLift, State.popBlock_withBlock, ok_bind, loop, guard_holds, slice,
      collected, pure_eq_ok]

theorem step_optionLift_absent {scope : Outlook} {s : State} {present absent : Routine} {ty : Ty}
    (ran : absent.run (scope.atPayload none) s.store = .ok ([], s.store)) :
    step scope (((s.push (.slot .i32 0)).withBlock absent).withBlock present) (.optionLift ty) =
      .ok (s.push (.value .absent)) := by
  simp only [step, Machine.optionLift, State.popBlock_withBlock, ok_bind, State.popSlot_push, ran,
    List.isEmpty_nil, guard_holds, pure_eq_ok]

theorem step_optionLift_present {scope : Outlook} {s : State} {present absent : Routine} {ty : Ty}
    {v : Value} (ran : present.run (scope.atPayload none) s.store = .ok ([.value v], s.store)) :
    step scope (((s.push (.slot .i32 1)).withBlock absent).withBlock present) (.optionLift ty) =
      .ok (s.push (.value (.present v))) := by
  simp only [step, Machine.optionLift, State.popBlock_withBlock, ok_bind, State.popSlot_push, ran,
    pure_eq_ok]

theorem run_readAll {fields : List Tree} (each : ∀ field ∈ fields, field.Reads) {scope : Outlook}
    (unfolds : UnfoldsAll scope.arena fields) {address : Instruction} {base offset : Nat}
    (points : Points scope address base) {offsets : List Nat} {start stop : Nat}
    (placed : Layout.Placed start (fields.map Tree.extent) offsets stop)
    (bound : base + offset + stop ≤ 2 ^ 32) {s : State} {values : List Value}
    (encoded : EncodedAll s.store.memory fields offsets (base + offset) values) :
    run (readAll fields offsets address offset) scope s =
      .ok (s.pushAll (values.map .value)) := by
  induction fields generalizing offsets start s values with
  | nil =>
    cases values with
    | nil => simp [readAll]
    | cons v values => exact encoded.elim
  | cons t rest ih =>
    cases offsets with
    | nil => exact placed.elim
    | cons o offsets =>
      cases values with
      | nil => exact encoded.elim
      | cons v values =>
        obtain ⟨behind, others⟩ := placed
        have inside := others.le
        have first := each t (by simp) scope s (offset + o) unfolds.1 points
          (by rw [← Nat.add_assoc]; exact encoded.1) (by simp only [Tree.size]; omega)
        have next := ih (fun field member => each field (by simp [member])) unfolds.2 others
          (s := s.push (.value v)) encoded.2
        rw [readAll, run_append (t.read_piece points.1 _).balanced
          (readAll_piece rest offsets points.1 offset).balanced, first, ok_bind, next,
          List.map_cons, State.pushAll_cons]

theorem run_loadPair {scope : Outlook} {address : Instruction} {base offset : Nat}
    (points : Points scope address base) (bound : base + offset + 8 ≤ 2 ^ 32) (s : State) :
    run (loadPair address offset) scope s =
      .ok (pushSlice s (s.store.memory.load (base + offset) 4)
        (s.store.memory.load (base + offset + 4) 4)) := by
  have code : loadPair address offset =
      [address, .load .i32 offset] ++ [address, .load .i32 (offset + 4)] := rfl
  have first : Balanced [address, .load .i32 offset] := .plain points.1.1 (.plain rfl .nil)
  have second : Balanced [address, .load .i32 (offset + 4)] := .plain points.1.1 (.plain rfl .nil)
  rw [code, run_append first second, run_load points (by simp only [Access.size]; omega), ok_bind,
    run_load points (by simp only [Access.size]; omega), discriminant_small (.inr (.inr rfl)),
    discriminant_small (.inr (.inr rfl))]
  rfl

theorem reads_prim (p : Primitive) : (prim p).Reads := by
  intro scope s address base offset v unfolds points encoded bound
  cases v with
  | text bytes =>
    obtain ⟨rfl, text, length⟩ := encoded
    have code : (prim .string).read address offset = loadPair address offset ++ [.stringLift] := rfl
    rw [code, run_append (loadPair_piece points.1 offset).balanced (.plain rfl .nil),
      run_loadPair points bound, ok_bind, run_single rfl, length]
    exact step_stringLift scope text
  | scalar bits =>
    obtain ⟨small, access, found, loaded⟩ := encoded
    have sizes : (prim p).size = access.size := access_size found
    have code : (prim p).read address offset =
        [address, .load access offset] ++ [.numericNarrow access.slot p] := by
      simp [read, found]
    have width := slot_carries (number_of_access found)
    rw [← access_slot found] at width
    rw [code, run_append (.plain points.1.1 (.plain rfl .nil)) (.plain rfl .nil),
      run_load points (by omega), ok_bind, run_single rfl, loaded]
    simp only [step, Machine.numericNarrow, guard_pos width, ok_bind, State.popSlot_push,
      narrow_loaded found small, pure_eq_ok]
  | _ => exact encoded.elim

theorem reads_product {form : Form} {id : Nat} {fields : List Tree} {offsets : List Nat}
    {extent : Layout.Extent} (each : ∀ field ∈ fields, field.Reads) :
    (product form id fields offsets extent).Reads := by
  intro scope s address base offset v unfolds points encoded bound
  cases v with
  | product found items =>
    have whole : (product form id fields offsets extent).size = extent.size := rfl
    rw [whole] at bound
    obtain ⟨rfl, encoded⟩ := encoded
    have members := run_readAll each unfolds.2.2 points (product_placed unfolds (by omega)) bound
      encoded
    rw [read, run_append (readAll_piece fields offsets points.1 offset).balanced
      (.plain (lifting_bracket found id fields.length) .nil), members, ok_bind,
      run_single (lifting_bracket found id fields.length)]
    exact step_lifting unfolds (encodedAll_length encoded)
  | _ => exact encoded.elim

theorem reads_enumeration (id count : Nat) (extent : Layout.Extent) :
    (enumeration id count extent).Reads := by
  intro scope s address base offset v unfolds points encoded bound
  cases v with
  | choice index =>
    obtain ⟨small, loaded⟩ := encoded
    have whole : (enumeration id count extent).size = extent.size := rfl
    rw [whole] at bound
    have inside := enumeration_placed unfolds (by omega)
    rw [← discriminantAccess_size] at inside
    have code : (enumeration id count extent).read address offset =
        [address, .load (discriminantAccess count) offset] ++ [.enumLift id] := rfl
    rw [code, run_append (.plain points.1.1 (.plain rfl .nil)) (.plain rfl .nil),
      run_load points (by omega), ok_bind,
      run_single rfl, loaded, discriminant_small (discriminantAccess_cases count),
      discriminantAccess_slot]
    exact step_enumLift unfolds small
  | _ => exact encoded.elim

theorem reads_option {id start : Nat} {payload : Tree} {extent : Layout.Extent}
    (reads : payload.Reads) : (option id payload start extent).Reads := by
  intro scope s address base offset v unfolds points encoded bound
  have whole : (option id payload start extent).size = extent.size := rfl
  rw [whole] at bound
  obtain ⟨behind, inside⟩ := option_placed unfolds (by omega)
  have body := payload.read_piece points.1 (offset + start)
  have code : (option id payload start extent).read address offset =
      [address, .load .u8 offset] ++ (blockBegin 0 false :: ([] ++ blockEnd 0 ::
        (blockBegin 0 false :: (payload.read address (offset + start) ++
          blockEnd 1 :: [.optionLift payload.type])))) := by
    simp [read]
  have both : Balanced (blockBegin 0 false :: ([] ++ blockEnd 0 :: (blockBegin 0 false ::
      (payload.read address (offset + start) ++ blockEnd 1 :: [.optionLift payload.type])))) :=
    .block .nil (.block body.balanced (.plain rfl .nil))
  rw [code, run_append (.plain points.1.1 (.plain rfl .nil)) both,
    run_load points (by simp only [Access.size]; omega), ok_bind,
    run_twoBlocks .nil body.balanced rfl, discriminant_small (.inl rfl)]
  cases v with
  | absent =>
    rw [show s.store.memory.load (base + offset) Access.u8.size = 0 from encoded]
    exact step_optionLift_absent (blockOf_run rfl rfl)
  | present inner =>
    rw [show s.store.memory.load (base + offset) Access.u8.size = 1 from encoded.1]
    refine step_optionLift_present (blockOf_run ?_ rfl)
    have ran := reads (scope.atPayload none) { operands := [], store := s.store } (offset + start)
      unfolds.2.2 (points.atPayload none)
      (by rw [← Nat.add_assoc]; exact encoded.2) (by omega)
    simpa [State.push] using ran
  | _ => exact encoded.elim

theorem reads_list {id : Nat} {element : Tree} (reads : element.Reads) :
    (list id element).Reads := by
  intro scope s address base offset v unfolds points encoded bound
  cases v with
  | list items =>
    obtain ⟨elements, length⟩ := encoded
    have code : (list id element).read address offset =
        loadPair address offset ++ liftList element (element.read iterBasePointer 0) := rfl
    have last := liftList_piece address element (element.read_piece iterBasePointer_addresses 0)
    rw [code, run_append (loadPair_piece points.1 offset).balanced last.balanced,
      run_loadPair points bound, ok_bind, length]
    exact run_liftList reads unfolds.2 elements
  | _ => exact encoded.elim

theorem reads (t : Tree) : t.Reads := by
  induction t with
  | prim p => exact reads_prim p
  | product form id fields offsets extent ih => exact reads_product ih
  | enumeration id count extent => exact reads_enumeration id count extent
  | option id payload start extent ih => exact reads_option ih
  | list id element ih => exact reads_list ih
  | synonym id target ih =>
    intro scope s address base offset v unfolds points encoded bound
    exact ih scope s offset unfolds.2 points encoded bound

def Lifts (t : Tree) : Prop :=
  ∀ (scope : Outlook) (s : State) {laid : Prop} {slots : List Operand} {v : Value},
    t.Mirrors scope.arena laid → t.Flat s.store.memory slots v →
    run t.lift scope (s.pushAll slots) = .ok (s.push (.value v))

/-- The fields lifted so far stand above the slots of the others. -/
theorem run_liftAll {fields : List Tree} (each : ∀ field ∈ fields, field.Lifts) {scope : Outlook}
    (mirrors : MirrorsAll scope.arena laid fields) {s : State} (done : List Operand)
    {slots : List Operand} {values : List Value} (flats : FlatAll s.store.memory fields slots values) :
    run (liftAll done.length fields) scope ((s.pushAll slots).pushAll done) =
      .ok (s.pushAll (done ++ values.map .value)) := by
  induction fields generalizing done slots values with
  | nil =>
    cases values with
    | nil => cases flats; simp [liftAll]
    | cons v values => exact flats.elim
  | cons t rest ih =>
    cases values with
    | nil => exact flats.elim
    | cons v values =>
      obtain ⟨first, others, rfl, flat, flats⟩ := flats
      have width : (slotsAll rest).length = others.length := by
        have types := congrArg List.length (flatAll_types flats)
        simpa using types.symm
      have stack : ((s.pushAll (first ++ others)).pushAll done).operands =
          (done.reverse ++ others.reverse) ++ (first.reverse ++ s.operands) := by
        simp [State.pushAll_operands]
      have deep : 0 < first.length → t.slots.length + (slotsAll rest).length - 1 + done.length =
          first.length + (done.reverse ++ others.reverse).length - 1 := by
        intro some
        rw [← flat.length, width, List.length_append, List.length_reverse, List.length_reverse]
        omega
      have moved := run_rolls scope stack deep
      have stacked : ({ (s.pushAll (first ++ others)).pushAll done with
          operands := first.reverse ++ (done.reverse ++ others.reverse ++ s.operands) } : State) =
          ((s.pushAll others).pushAll done).pushAll first := by
        simp [State.pushAll]
      have lifted := each t (by simp) scope ((s.pushAll others).pushAll done) mirrors.1 flat
      have next := ih (fun field member => each field (by simp [member])) mirrors.2
        (done ++ [.value v]) flats
      have pushed : ((s.pushAll others).pushAll done).push (.value v) =
          (s.pushAll others).pushAll (done ++ [.value v]) := by
        rw [State.pushAll_append, State.pushAll_single]
      simp only [List.length_append, List.length_singleton] at next
      rw [liftAll, ← flat.length] at *
      rw [List.append_assoc, run_append (rolls_balanced _ _)
        (t.lift_balanced.append (liftAll_balanced rest _)), moved, ok_bind, stacked,
        run_append t.lift_balanced (liftAll_balanced rest _), lifted, ok_bind, pushed, next]
      simp

theorem run_lift_option {id start : Nat} {payload : Tree} {extent : Layout.Extent}
    {rest : List Operand} (width : payload.slots.length = rest.length) (scope : Outlook) (s : State) :
    run (option id payload start extent).lift scope (s.pushAll rest) =
      step scope ((s.withBlock (blockOf false [] [] 0)).withBlock (blockOf false rest payload.lift 1))
        (.optionLift payload.type) := by
  have code : (option id payload start extent).lift =
      blockBegin 0 false :: ([] ++ blockEnd 0 ::
        (blockBegin payload.slots.length false :: (payload.lift ++
          blockEnd 1 :: [.optionLift payload.type]))) := by
    simp [lift]
  have last : Balanced [Instruction.optionLift payload.type] := .plain rfl .nil
  rw [code, run_block .nil (.block payload.lift_balanced last), State.popN_zero, ok_bind,
    run_block payload.lift_balanced last, State.popN_withBlock _ width, ok_bind, run_single rfl]

theorem lifts_prim (p : Primitive) : (prim p).Lifts := by
  intro scope s laid slots v mirrors flat
  cases v with
  | text bytes =>
    obtain ⟨rfl, start, text, rfl⟩ := flat
    rw [lift, run_single rfl]
    exact step_stringLift scope text
  | scalar bits =>
    obtain ⟨number, small, rfl⟩ := flat
    have code : (prim p).lift = [.numericNarrow p.slot p] := by
      cases p <;> first | rfl | exact absurd rfl number
    rw [code, run_single rfl, State.pushAll_single]
    simp only [step, Machine.numericNarrow, guard_pos (slot_carries number), ok_bind,
      State.popSlot_push, narrow_widen number small, pure_eq_ok]
  | _ => exact flat.elim

theorem lifts_product {form : Form} {id : Nat} {fields : List Tree} {offsets : List Nat}
    {extent : Layout.Extent} (each : ∀ field ∈ fields, field.Lifts) :
    (product form id fields offsets extent).Lifts := by
  intro scope s laid slots v mirrors flat
  cases v with
  | product found items =>
    obtain ⟨rfl, flats⟩ := flat
    have plain := lifting_bracket found id fields.length
    have members := run_liftAll each mirrors.2.2 [] flats
    simp only [List.length_nil, State.pushAll_nil, List.nil_append] at members
    rw [lift, run_append (liftAll_balanced fields 0) (.plain plain .nil), members, ok_bind,
      run_single plain]
    exact step_lifting mirrors (flatAll_length flats)
  | _ => exact flat.elim

theorem lifts_enumeration (id count : Nat) (extent : Layout.Extent) :
    (enumeration id count extent).Lifts := by
  intro scope s laid slots v mirrors flat
  cases v with
  | choice index =>
    obtain ⟨small, rfl⟩ := flat
    rw [lift, run_single rfl, State.pushAll_single]
    exact step_enumLift mirrors small
  | _ => exact flat.elim

theorem lifts_option {id start : Nat} {payload : Tree} {extent : Layout.Extent}
    (lifts : payload.Lifts) : (option id payload start extent).Lifts := by
  intro scope s laid slots v mirrors flat
  cases v with
  | absent =>
    cases flat
    rw [State.pushAll_cons, run_lift_option (by simp)]
    exact step_optionLift_absent (blockOf_run rfl rfl)
  | present inner =>
    obtain ⟨rest, rfl, flat⟩ := flat
    rw [State.pushAll_cons, run_lift_option flat.length.symm]
    refine step_optionLift_present (blockOf_run ?_ rfl)
    have ran := lifts (scope.atPayload none) { operands := [], store := s.store } mirrors.2.2 flat
    simpa [State.pushAll, State.push] using ran
  | _ => exact flat.elim

theorem lifts_list (id : Nat) (element : Tree) : (list id element).Lifts := by
  intro scope s laid slots v mirrors flat
  cases v with
  | list items =>
    obtain ⟨start, elements, rfl⟩ := flat
    exact run_liftList element.reads mirrors.2 elements
  | _ => exact flat.elim

theorem lifts (t : Tree) : t.Lifts := by
  induction t with
  | prim p => exact lifts_prim p
  | product form id fields offsets extent ih => exact lifts_product ih
  | enumeration id count extent => exact lifts_enumeration id count extent
  | option id payload start extent ih => exact lifts_option ih
  | list id element _ => exact lifts_list id element
  | synonym id target ih =>
    intro scope s laid slots v mirrors flat
    exact ih scope s mirrors.2 flat

end ZigBindings.Tree
