import ZigBindings.Proofs.Crossing.Lowering
import ZigBindings.Proofs.Crossing.Lifting
import ZigBindings.Proofs.Crossing.Typing
import ZigBindings.Proofs.Machine.Packing
import ZigBindings.Proofs.Numeric.Plans

/-! The shortcut for lists of numbers. A slice is handed over as it lies in memory, and a loop over
its elements would have written, and read, the very same bytes. -/

namespace ZigBindings
open Machine Instruction Crossing

namespace Numeric

/-- An integer keeps its bits on the way through a slot that is wide enough to a type of its
width. -/
theorem bits_through (n slot cell : Numeric) (positive : 0 < n.bits)
    (through : slot.floating = false) (wide : n.bits ≤ slot.bits) (same : cell.bits = n.bits)
    (x : Int) (holds : n.Holds x) :
    (cell.pattern (slot.follow (plan slot cell) (n.follow (plan n slot) x))).toNat =
      (n.pattern x).toNat := by
  have out : Carries n (plan n slot) slot :=
    plan_carries positive (by omega) fun both => by rw [through] at both; cases both.2
  have back : Carries slot (plan slot cell) cell :=
    plan_carries (by omega) (by omega) fun both => by rw [through] at both; cases both.1
  rw [out.wraps x holds, back.wraps _ (wrap_holds slot x), pattern_wrap, pattern,
    ← setWidth_ofInt (show cell.bits ≤ slot.bits by omega)]
  change ((slot.pattern (slot.wrap x)).setWidth cell.bits).toNat = _
  rw [pattern_wrap, pattern, setWidth_ofInt (by omega), same, pattern]

end Numeric

/-- The casts that take a number to its slot and on to its place in memory keep its bits, and so do
those that take it back. -/
def CastsKeepBits (p : Primitive) (access : Access) : Prop :=
  let slot := Numeric.ofSlot access.slot
  let cell := Numeric.ofAccess access
  ∃ n, Numeric.ofPrimitive? p = some n ∧
    (∀ x, n.Holds x →
      (cell.pattern (slot.follow (slot.plan cell) (n.follow (n.plan slot) x))).toNat =
        (n.pattern x).toNat) ∧
    ∀ x, cell.Holds x →
      (n.pattern (slot.follow (slot.plan n) (cell.follow (cell.plan slot) x))).toNat =
        (cell.pattern x).toNat

section
variable {p : Primitive} {access : Access} (found : Access.ofPrimitive? p = some access)
include found

theorem integer_widths (integer : p.isInteger = true) :
    Numeric.ofPrimitive? p = some ⟨p.bits, p.isSigned, false⟩ ∧ access.slot.isFloat = false ∧
      0 < p.bits ∧ p.bits ≤ access.slot.bits ∧ access.size * 8 = p.bits := by
  cases p <;> cases integer <;> cases found <;> decide

theorem float_types (float : p.isFloat = true) :
    Numeric.ofPrimitive? p = some (.ofSlot access.slot) ∧
      Numeric.ofAccess access = .ofSlot access.slot := by
  cases p <;> cases float <;> cases found <;> decide

variable (numeric : (p.isInteger || p.isFloat) = true)
include numeric

theorem numeric_casts : CastsKeepBits p access := by
  rcases Bool.or_eq_true_iff.mp numeric with integer | float
  · obtain ⟨type, through, positive, wide, same⟩ := integer_widths found integer
    let n : Numeric := ⟨p.bits, p.isSigned, false⟩
    have out := Numeric.bits_through n (.ofSlot access.slot) (.ofAccess access) positive through
      wide same
    have back := Numeric.bits_through (.ofAccess access) (.ofSlot access.slot) n
      (Nat.lt_of_lt_of_eq positive same.symm) through (Nat.le_trans (Nat.le_of_eq same) wide)
      same.symm
    exact ⟨n, type, out, back⟩
  · obtain ⟨type, same⟩ := float_types found float
    have still : ∀ (n : Numeric) (x : Int), n.follow (n.plan n) x = x := fun n x => by
      rw [Numeric.plan, if_pos rfl, Numeric.follow]
    refine ⟨_, type, fun x _ => ?_, fun x _ => ?_⟩
    · rw [same, still, still]
    · rw [same, still, still]

theorem numeric_extent : Layout.primitiveExtent p = ⟨access.size, access.size⟩ := by
  cases p <;> cases found <;> first | cases numeric; done | rfl

theorem numeric_bits : 2 ^ p.bits = 256 ^ access.size := by
  cases p <;> cases found <;> first | rfl | cases numeric

end

namespace Tree

variable {t : Tree} {address : Instruction} {offset : Nat}

theorem write_core : t.core.write address offset = t.write address offset := by
  induction t with
  | synonym id target ih => exact ih
  | _ => rfl

theorem read_core : t.core.read address offset = t.read address offset := by
  induction t with
  | synonym id target ih => exact ih
  | _ => rfl

end Tree

theorem exists_tree_of_unalias {a : Arena} {depth : Nat} {ty : Ty} {p : Primitive}
    (reached : a.unaliasWithin depth ty = .ok (.prim p)) :
    ∃ t : Tree, t.type = ty ∧ t.Unfolds a ∧ t.core = .prim p := by
  induction depth generalizing ty with
  | zero =>
    cases ty with
    | prim q =>
      cases reached
      exact ⟨.prim p, rfl, trivial, rfl⟩
    | ref id => cases reached
  | succ depth ih =>
    cases ty with
    | prim q =>
      cases reached
      exact ⟨.prim p, rfl, trivial, rfl⟩
    | ref id =>
      obtain ⟨kind, found, reached⟩ := bind_eq_ok.mp reached
      cases kind with
      | «alias» target =>
        obtain ⟨t, rfl, unfolds, core⟩ := ih reached
        exact ⟨.synonym id t, rfl, ⟨.of_kind rfl found rfl, unfolds⟩, core⟩
      | _ => cases reached

/-- The elements of a list that has the layout of a slice are numbers. -/
theorem numeric_of_canonical {a : Arena} {element : Ty}
    (canonical : isCanonical a element = .ok true) :
    ∃ p, a.unalias element = .ok (.prim p) ∧ (p.isInteger || p.isFloat) = true := by
  obtain ⟨ty, reached, numeric⟩ := bind_eq_ok.mp canonical
  cases ty with
  | prim p => exact ⟨p, reached, Except.ok.inj numeric⟩
  | ref id => cases numeric

def storing (p : Primitive) (access : Access) (address : Instruction) : List Instruction :=
  [numericWiden p access.slot, address, store access 0]

def loading (p : Primitive) (access : Access) (address : Instruction) : List Instruction :=
  [address, load access 0, numericNarrow access.slot p]

def lowerLoop (element : Ty) (extent : Layout.Extent) (writing : List Instruction) :
    List Instruction :=
  blockBegin 0 true :: (iterElem :: writing ++
    [blockEnd 0, listLower element extent.size extent.align])

def liftLoop (element : Ty) (extent : Layout.Extent) (reading : List Instruction) :
    List Instruction :=
  blockBegin 0 true :: (reading ++ [blockEnd 1, listLift element extent.size])

/-- Takes memory for a slice of numbers, fills it, and leaves the slice on the stack. -/
def pushPacked (scope : Outlook) (size : Nat) (numbers : List Nat) (s : State) :
    Except Trap State := do
  let (start, st) ← s.store.allocate scope.allocator (numbers.length * size) size
  let filled := st.memory.storeText start (packed size numbers)
  pure (pushSlice (s.withStore { st with memory := filled }) start numbers.length)

theorem storing_balanced {address : Instruction} (addresses : Addresses address) (p : Primitive)
    (access : Access) : Balanced (storing p access address) :=
  .plain rfl (.plain addresses.1 (.plain rfl .nil))

theorem loading_balanced {address : Instruction} (addresses : Addresses address) (p : Primitive)
    (access : Access) : Balanced (loading p access address) :=
  .plain addresses.1 (.plain rfl (.plain rfl .nil))

theorem allocate_room {allocator : Allocator} {size align start : Nat} {st after : Store}
    (taken : st.allocate allocator size align = .ok (start, after)) : start + size ≤ 2 ^ 32 := by
  unfold Store.allocate at taken
  split at taken
  · next placed =>
    cases taken
    exact (allocator.inside placed).2
  · cases taken

theorem popSlice_room {s after : State} {size start length : Nat}
    (popped : popSlice s size = .ok (start, length, after)) : start + length * size ≤ 2 ^ 32 := by
  obtain ⟨_, _, popped⟩ := bind_eq_ok.mp popped
  obtain ⟨_, _, popped⟩ := bind_eq_ok.mp popped
  obtain ⟨_, passed, popped⟩ := bind_eq_ok.mp popped
  cases popped
  by_contra outside
  rw [decide_eq_false outside] at passed
  cases passed

section
variable {p : Primitive} {access : Access} (found : Access.ofPrimitive? p = some access)
include found

theorem run_storing {scope : Outlook} {address : Instruction} {base bits : Nat}
    (small : bits < 2 ^ p.bits) (points : Points scope address base)
    (bound : base + access.size ≤ 2 ^ 32) (s : State) :
    run (storing p access address) scope (s.push (.value (.scalar bits))) =
      .ok (s.withStore (s.store.write base access.size bits)) := by
  have width := slot_carries (number_of_access found)
  rw [← access_slot found] at width
  have stored : s.store.write base access.size (widen p access.slot bits) =
      s.store.write base access.size bits := by
    rw [Store.write, ← Memory.store_mod, widen_stored found small, Store.write]
  rw [storing, run_cons rfl (.plain points.1.1 (.plain rfl .nil)), Tree.step_numericWiden width,
    ok_bind, run_store points (by omega), Nat.add_zero, stored]

theorem eachItem_storing (scope : Outlook) {numbers : List Nat}
    (small : ∀ bits ∈ numbers, bits < 2 ^ p.bits) {start : Nat}
    (bound : start + numbers.length * access.size ≤ 2 ^ 32) (st : Store) :
    eachItem scope (blockOf true [] (iterElem :: storing p access iterBasePointer) 0) access.size
      start (numbers.map .scalar) st =
      .ok { st with memory := st.memory.storeText start (packed access.size numbers) } := by
  rw [← Store.writeAll_packed]
  induction numbers generalizing start st with
  | nil => rfl
  | cons bits rest ih =>
    rw [List.length_cons, Nat.add_mul, Nat.one_mul] at bound
    let inner := scope.atElement (some (.scalar bits)) start
    have item : step inner { operands := [], store := st } iterElem =
        .ok (({ operands := [], store := st } : State).push (.value (.scalar bits))) := rfl
    have ran : run (iterElem :: storing p access iterBasePointer) inner
        { operands := [], store := st } =
        .ok { operands := [], store := st.write start access.size bits } := by
      rw [run_cons rfl (storing_balanced iterBasePointer_addresses p access), item, ok_bind,
        run_storing found (small bits (by simp)) (.atElement (some (.scalar bits)) start) (by omega)]
      rfl
    have block : (blockOf true [] (iterElem :: storing p access iterBasePointer) 0).run inner st =
        .ok ([], st.write start access.size bits) := Tree.blockOf_run ran rfl
    have others := ih (fun other member => small other (by simp [member]))
      (show start + access.size + rest.length * access.size ≤ 2 ^ 32 by omega)
      (st.write start access.size bits)
    rw [List.map_cons, eachItem, block, ok_bind]
    exact others

theorem run_lowerLoop (element : Ty) {scope : Outlook} {numbers : List Nat}
    (small : ∀ bits ∈ numbers, bits < 2 ^ p.bits) (s : State) :
    run (lowerLoop element ⟨access.size, access.size⟩ (storing p access iterBasePointer)) scope
        (s.push (.value (.list (numbers.map .scalar)))) =
      pushPacked scope access.size numbers s := by
  have inner : Balanced (iterElem :: storing p access iterBasePointer) :=
    .plain rfl (storing_balanced iterBasePointer_addresses p access)
  have loop : ∀ body, (blockOf true [] body 0).loop = true := fun _ => rfl
  rw [lowerLoop, run_oneBlock inner rfl]
  simp only [step, Machine.listLower, State.popBlock_withBlock, ok_bind, loop, guard_holds,
    State.popValue_push, elements, List.length_map, pushPacked]
  refine bind_congr_of_ok fun allocated taken => ?_
  obtain ⟨start, st⟩ := allocated
  simp only [eachItem_storing found scope small (allocate_room taken), ok_bind, pure_eq_ok]
  rfl

variable (numeric : (p.isInteger || p.isFloat) = true)
include numeric

theorem run_loading {scope : Outlook} {address : Instruction} {base : Nat}
    (points : Points scope address base) (bound : base + access.size ≤ 2 ^ 32) (s : State) :
    run (loading p access address) scope s =
      .ok (s.push (.value (.scalar (s.store.memory.load base access.size)))) := by
  have width := slot_carries (number_of_access found)
  rw [← access_slot found] at width
  have small : s.store.memory.load base access.size < 2 ^ p.bits := by
    rw [numeric_bits found numeric]
    exact Memory.load_lt _ _ _
  have balanced : Balanced [address, load access 0] := .plain points.1.1 (.plain rfl .nil)
  have narrowed := narrow_loaded found small
  have parts : loading p access address =
      [address, load access 0] ++ [numericNarrow access.slot p] := rfl
  rw [parts, run_append balanced (.plain rfl .nil), run_load points (by omega), ok_bind, run_single rfl]
  simp only [Nat.add_zero, step, Machine.numericNarrow, guard_pos width, ok_bind,
    State.popSlot_push, narrowed, pure_eq_ok]

theorem eachElement_loading (scope : Outlook) {n start : Nat} {st : Store}
    (bound : start + n * access.size ≤ 2 ^ 32) :
    eachElement scope (blockOf true [] (loading p access iterBasePointer) 1) access.size start n
      st = .ok ((st.readAll start access.size n).map .scalar, st) := by
  induction n generalizing start with
  | zero => rfl
  | succ n ih =>
    rw [Nat.add_mul, Nat.one_mul] at bound
    have ran : run (loading p access iterBasePointer) (scope.atElement none start)
        { operands := [], store := st } =
        .ok { operands := [.value (.scalar (st.memory.load start access.size))], store := st } :=
      run_loading found numeric (.atElement none start) (by omega) _
    have block : (blockOf true [] (loading p access iterBasePointer) 1).run
        (scope.atElement none start) st =
        .ok ([.value (.scalar (st.memory.load start access.size))], st) := Tree.blockOf_run ran rfl
    have others := ih (show start + access.size + n * access.size ≤ 2 ^ 32 by omega)
    rw [eachElement, block, ok_bind]
    simp only [others, ok_bind, Store.readAll, List.map_cons, pure_eq_ok]

variable {scope : Outlook} {element : Ty} (reached : scope.arena.unalias element = .ok (.prim p))

include reached in
theorem sliceAccess_eq : sliceAccess scope.arena element = .ok access := by
  rw [sliceAccess, reached]
  simp only [numeric, if_true, found, need_some]

include reached in
theorem run_canonLower (numbers : List Nat) (s : State) :
    run [listCanonLower element] scope (s.push (.value (.list (numbers.map .scalar)))) =
      pushPacked scope access.size numbers s := by
  have sliced := sliceAccess_eq found numeric reached
  have read : (numbers.map Value.scalar).mapM scalar = .ok numbers := by
    rw [mapM_eq_ok, List.forall₂_map_left_iff, List.forall₂_same]
    intro bits _
    rfl
  rw [run_single rfl]
  simp only [step, Machine.listCanonLower, sliced, ok_bind, State.popValue_push, elements, read,
    pushPacked, Store.writeAll_packed]
  rfl

include reached in
theorem run_canonLift (s : State) :
    run [listCanonLift element] scope s =
      run (liftLoop element ⟨access.size, access.size⟩ (loading p access iterBasePointer)) scope
        s := by
  have sliced := sliceAccess_eq found numeric reached
  have loop : ∀ body, (blockOf true [] body 1).loop = true := fun _ => rfl
  have inner := loading_balanced iterBasePointer_addresses p access
  rw [liftLoop, run_oneBlock inner rfl, run_single rfl]
  simp only [step, Machine.listCanonLift, sliced, Machine.listLift, State.popBlock_withBlock,
    ok_bind, loop, guard_holds]
  refine bind_congr_of_ok fun slice popped => ?_
  obtain ⟨start, length, after⟩ := slice
  simp only [eachElement_loading found numeric scope (popSlice_room popped), ok_bind]

theorem readAll_of_packed {numbers : List Nat} (small : ∀ bits ∈ numbers, bits < 2 ^ p.bits)
    {st : Store} {start : Nat}
    (text : st.memory.text start (numbers.length * access.size) = packed access.size numbers) :
    st.readAll start access.size numbers.length = numbers :=
  Store.readAll_packed (fun bits member => by
    rw [← numeric_bits found numeric]
    exact small bits member) text

include reached in
theorem run_canonLift_packed {numbers : List Nat} (small : ∀ bits ∈ numbers, bits < 2 ^ p.bits)
    {s : State} {start : Nat} (room : start + numbers.length * access.size ≤ 2 ^ 32)
    (text : s.store.memory.text start (numbers.length * access.size) = packed access.size numbers) :
    run [listCanonLift element] scope (pushSlice s start numbers.length) =
      .ok (s.push (.value (.list (numbers.map .scalar)))) := by
  have sliced := sliceAccess_eq found numeric reached
  rw [run_single rfl]
  simp only [step, Machine.listCanonLift, sliced, ok_bind, Tree.popSlice_pushed room,
    readAll_of_packed found numeric small text, pure_eq_ok]

end

/-- The shortcut for lists of such elements does what a loop over them would do. -/
structure ShortcutAgrees (a : Arena) (element : Ty) (p : Primitive) (access : Access) : Prop where
  casts : CastsKeepBits p access
  measured : Layout.measure a element = .ok ⟨access.size, access.size⟩
  writes : Crossing.write a element iterBasePointer 0 = .ok (storing p access iterBasePointer)
  reads : Crossing.read a element iterBasePointer 0 = .ok (loading p access iterBasePointer)
  lowers : lowerList a (Crossing.write a) element = .ok [listCanonLower element]
  lifts : liftList a (Crossing.read a) element = .ok [listCanonLift element]
  /-- Written one behind the other, the elements are packed. -/
  stored : ∀ (scope : Outlook) numbers start st,
    (∀ bits ∈ numbers, Inhabits a (.scalar bits) element) →
    start + numbers.length * access.size ≤ 2 ^ 32 →
    eachItem scope (blockOf true [] (iterElem :: storing p access iterBasePointer) 0) access.size
      start (numbers.map .scalar) st =
      .ok { st with memory := st.memory.storeText start (packed access.size numbers) }
  /-- Read one behind the other where they are packed, the elements are those of the slice. -/
  loaded : ∀ (scope : Outlook) numbers start (s : State), scope.arena = a →
    (∀ bits ∈ numbers, Inhabits a (.scalar bits) element) →
    start + numbers.length * access.size ≤ 2 ^ 32 →
    s.store.memory.text start (numbers.length * access.size) = packed access.size numbers →
    eachElement scope (blockOf true [] (loading p access iterBasePointer) 1) access.size start
      numbers.length s.store = .ok (numbers.map .scalar, s.store) ∧
    run [listCanonLift element] scope (pushSlice s start numbers.length) =
      .ok (s.push (.value (.list (numbers.map .scalar))))
  /-- The slice that is handed over holds the packed elements, whichever way it is made. -/
  lowering : ∀ (scope : Outlook) numbers (s : State), scope.arena = a →
    (∀ bits ∈ numbers, Inhabits a (.scalar bits) element) →
    run [listCanonLower element] scope (s.push (.value (.list (numbers.map .scalar)))) =
      pushPacked scope access.size numbers s ∧
    run (lowerLoop element ⟨access.size, access.size⟩ (storing p access iterBasePointer)) scope
      (s.push (.value (.list (numbers.map .scalar)))) = pushPacked scope access.size numbers s
  lifting : ∀ (scope : Outlook) (s : State), scope.arena = a →
    run [listCanonLift element] scope s =
      run (liftLoop element ⟨access.size, access.size⟩ (loading p access iterBasePointer)) scope s

section
variable {a : Arena} {t : Tree} {p : Primitive} {access : Access} (unfolds : t.Unfolds a)
  (core : t.core = .prim p) (found : Access.ofPrimitive? p = some access)
include unfolds core found

theorem small_of_inhabits {numbers : List Nat}
    (each : ∀ bits ∈ numbers, Inhabits a (.scalar bits) t.type) :
    ∀ bits ∈ numbers, bits < 2 ^ p.bits := by
  intro bits member
  obtain ⟨held, same, bound⟩ := Tree.admits_number core (number_of_access found)
    (Tree.admits_of_inhabits unfolds (each bits member))
  cases same
  exact bound

theorem shortcut_agrees (numeric : (p.isInteger || p.isFloat) = true) :
    ShortcutAgrees a t.type p access := by
  have reached : a.unalias t.type = .ok (.prim p) := by rw [Tree.unalias_core unfolds, core]; rfl
  have accepted : t.isCanonical = true := by rw [Tree.isCanonical, core]; exact numeric
  have measured : t.extent = ⟨access.size, access.size⟩ := by
    rw [← Tree.extent_core, core]
    exact numeric_extent found numeric
  have written : t.write iterBasePointer 0 = storing p access iterBasePointer := by
    rw [← Tree.write_core, core, Tree.write, found]
    rfl
  have read : t.read iterBasePointer 0 = loading p access iterBasePointer := by
    rw [← Tree.read_core, core, Tree.read, found]
    rfl
  exact {
    casts := numeric_casts found numeric
    measured := by rw [Tree.measure_extent unfolds, measured]
    writes := by rw [Tree.write_eq unfolds, written]
    reads := by rw [Tree.read_eq unfolds, read]
    lowers := by
      rw [Tree.lowerList_eq unfolds (Tree.write_eq unfolds iterBasePointer 0), Tree.lowerList,
        if_pos accepted]
    lifts := by
      rw [Tree.liftList_eq unfolds (Tree.read_eq unfolds iterBasePointer 0), Tree.liftList,
        if_pos accepted]
    stored := fun scope numbers start st each room =>
      eachItem_storing found scope (small_of_inhabits unfolds core found each) room st
    loaded := by
      rintro scope numbers start s rfl each room text
      have small := small_of_inhabits unfolds core found each
      have looped :=
        @eachElement_loading p access found numeric scope numbers.length start s.store room
      rw [readAll_of_packed found numeric small text] at looped
      exact ⟨looped, run_canonLift_packed found numeric reached small room text⟩
    lowering := by
      rintro scope numbers s rfl each
      exact ⟨run_canonLower found numeric reached numbers s,
        run_lowerLoop found t.type (small_of_inhabits unfolds core found each) s⟩
    lifting := by
      rintro scope s rfl
      exact run_canonLift found numeric reached s }

end

/-- Only lists of integers and floats take the shortcut, and their values are lists of numbers. For
these the shortcut and the loop agree, on every list and in every state of the machine. -/
theorem canonical_agrees {a : Arena} {element : Ty} (canonical : isCanonical a element = .ok true) :
    ∃ p access, a.unalias element = .ok (.prim p) ∧ (p.isInteger || p.isFloat) = true ∧
      Access.ofPrimitive? p = some access ∧
      (∀ items : List Value, (∀ item ∈ items, Inhabits a item element) →
        ∃ numbers : List Nat, items = numbers.map .scalar) ∧
      ShortcutAgrees a element p access := by
  obtain ⟨p, reached, numeric⟩ := numeric_of_canonical canonical
  obtain ⟨access, found⟩ := access_of_number (Tree.number_of_numeric numeric)
  obtain ⟨t, rfl, unfolds, core⟩ := exists_tree_of_unalias reached
  refine ⟨p, access, reached, numeric, found, fun items each => ?_,
    shortcut_agrees unfolds core found numeric⟩
  obtain ⟨numbers, same, -⟩ := Tree.scalars_of_admits core (number_of_access found)
    fun item member => Tree.admits_of_inhabits unfolds (each item member)
  exact ⟨numbers, same⟩

def samples : Arena := #[⟨.alias (.prim .s16), some "sample"⟩]

theorem samples_agree : isCanonical samples (.ref 0) = .ok true ∧
    ShortcutAgrees samples (.ref 0) .s16 .i16 ∧
    packed 2 [300, 65534] = [0x2C, 0x01, 0xFE, 0xFF] := by
  have canonical : isCanonical samples (.ref 0) = .ok true := by decide
  obtain ⟨p, access, reached, -, found, -, agrees⟩ := canonical_agrees canonical
  have leads : samples.unalias (.ref 0) = .ok (.prim .s16) := by decide
  cases leads.symm.trans reached
  cases found
  exact ⟨canonical, agrees, by decide⟩

end ZigBindings
