import ZigBindings.Proofs.Crossing.Pieces
import ZigBindings.Proofs.Crossing.Slices

/-! Code that puts texts and lists into memory of their own: it takes fresh memory, fills it, and
leaves a pointer and a length on the stack. -/

namespace ZigBindings.Tree
open Machine Instruction Crossing

def Writes (t : Tree) : Prop :=
  ∀ (scope : Outlook) (s : State) {address : Instruction} {base : Nat} (offset : Nat) {v : Value},
    t.Unfolds scope.arena → Points scope address base → t.Admits v →
    base + offset + t.size ≤ 2 ^ 32 →
    (∀ x, Within (base + offset) (base + offset + t.size) x → Covered s.store.taken x) →
    Reaches scope.allocator (t.Asks v) (run (t.write address offset) scope (s.push (.value v))) fun s' =>
      ∃ st, s' = s.withStore st ∧ Stored (t.Touches (base + offset) v)
        (fun m => t.Encoded m (base + offset) v) s.store st

theorem blockOf_reaches {loop : Bool} {moved : List Operand} {body : List Instruction}
    {results : Nat} (scope : Outlook) {st : Store} {requests : Nat → Nat → Prop}
    {wanted : List Operand × Store → Prop}
    (ran : Reaches scope.allocator requests (run body scope { operands := moved.reverse, store := st })
      fun s => s.operands.length = results ∧ s.blocks = [] ∧ wanted (s.operands, s.store)) :
    Reaches scope.allocator requests ((blockOf loop moved body results).run scope st) wanted := by
  refine ran.bind fun s holds => ?_
  obtain ⟨count, closed, holds⟩ := holds
  have passed : Machine.guard (s.operands.length = results && s.blocks.isEmpty) = .ok () := by
    simp [count, closed, Machine.guard]
  rw [passed]
  exact holds

theorem eachItem_reaches {scope : Outlook} {block : Routine} {element : Tree}
    (writes : ∀ start v st, element.Admits v → start + element.size ≤ 2 ^ 32 →
      (∀ x, Within start (start + element.size) x → Covered st.taken x) →
      Reaches scope.allocator (element.Asks v) (block.run (scope.atElement (some v) start) st) fun left =>
        left.1 = [] ∧ Stored (Within start (start + element.size))
          (fun m => element.Encoded m start v) st left.2)
    {items : List Value} (admits : ∀ item ∈ items, element.Admits item)
    (short : items.length < 2 ^ 32) {start : Nat} {st : Store}
    (bound : start + items.length * element.size ≤ 2 ^ 32)
    (inside : ∀ x, Within start (start + items.length * element.size) x → Covered st.taken x) :
    Reaches scope.allocator (fun size align => ∃ item ∈ items, element.Asks item size align)
      (eachItem scope block element.size start items st)
      (Stored (Within start (start + items.length * element.size))
        (fun m => Elements m element start items) st) := by
  induction items generalizing start st with
  | nil =>
    refine .refl fun m => .nil ?_
    simpa using bound
  | cons v rest ih =>
    have length : (v :: rest).length * element.size = element.size + rest.length * element.size := by
      simp only [List.length_cons, Nat.add_mul, Nat.one_mul]
      omega
    rw [length] at bound inside ⊢
    have early : ∀ x, Within start (start + element.size) x → Covered st.taken x := fun x within =>
      inside x ⟨within.1, by have := within.2; omega⟩
    have late : ∀ x, Within (start + element.size)
        (start + element.size + rest.length * element.size) x → Covered st.taken x := fun x within =>
      inside x (within.widen (by omega) (by omega))
    have first := (writes start v st (admits v (by simp)) (by omega) early).widen
      fun size align asks => (⟨v, by simp, asks⟩ : ∃ item ∈ v :: rest, element.Asks item size align)
    refine first.bind fun left holds => ?_
    obtain ⟨operands, middle⟩ := left
    obtain ⟨nothing, stored⟩ := holds
    cases nothing
    have last := (ih (fun item member => admits item (by simp [member]))
      (by simp only [List.length_cons] at short; omega) (by omega) fun x within =>
        stored.changes.grows x (late x within)).widen fun size align ⟨item, member, asks⟩ =>
          (⟨item, by simp [member], asks⟩ : ∃ item ∈ v :: rest, element.Asks item size align)
    refine last.mono fun after others => ?_
    have apart : ∀ x, Within start (start + element.size) x → ¬ Within (start + element.size)
        (start + element.size + rest.length * element.size) x := fun x here there => by
      have := here.2
      have := there.1
      omega
    have both := (stored.trans others early late apart).imp fun m parts =>
      Elements.cons (by simpa using short) parts.1 parts.2
    refine both.mono fun x member => ?_
    rcases member with within | within
    · exact ⟨within.1, by have := within.2; omega⟩
    · exact within.widen (by omega) (by omega)

theorem Store.writeAll_taken (st : Store) (start size : Nat) (numbers : List Nat) :
    (st.writeAll start size numbers).taken = st.taken := by
  induction numbers generalizing st start with
  | nil => rfl
  | cons bits rest ih =>
    rw [Store.writeAll, ih]
    rfl

theorem Store.writeAll_outside (st : Store) (start size : Nat) (numbers : List Nat) {x : Nat}
    (outside : ¬ Within start (start + numbers.length * size) x) :
    (st.writeAll start size numbers).memory x = st.memory x := by
  induction numbers generalizing st start with
  | nil => rfl
  | cons bits rest ih =>
    have length : (bits :: rest).length * size = size + rest.length * size := by
      simp only [List.length_cons, Nat.add_mul, Nat.one_mul]
      omega
    rw [length] at outside
    rw [Store.writeAll, ih _ _ fun behind => outside
      (behind.widen (by omega) (by omega))]
    exact Memory.store_outside fun first => outside ⟨first.1, by have := first.2; omega⟩

theorem writeAll_elements {element : Tree} {p : Primitive} {access : Access}
    (core : element.core = .prim p) (found : Access.ofPrimitive? p = some access)
    (sizes : element.size = access.size) {numbers : List Nat}
    (small : ∀ bits ∈ numbers, bits < 2 ^ p.bits) (short : numbers.length < 2 ^ 32) (st : Store)
    {start : Nat} (bound : start + numbers.length * access.size ≤ 2 ^ 32) :
    Kept (Within start (start + numbers.length * access.size))
      (st.writeAll start access.size numbers).memory
      fun m => Elements m element start (numbers.map .scalar) := by
  induction numbers generalizing st start with
  | nil =>
    intro m _
    exact .nil (by simpa using bound)
  | cons bits rest ih =>
    have length : (bits :: rest).length * access.size = access.size + rest.length * access.size := by
      simp only [List.length_cons, Nat.add_mul, Nat.one_mul]
      omega
    rw [length] at bound ⊢
    have room : start + access.size + rest.length * access.size ≤ 2 ^ 32 := by omega
    have others := ih (fun other member => small other (by simp [member]))
      (by simp only [List.length_cons] at short; omega) (st.write start access.size bits) room
    have loaded : (st.writeAll start access.size (bits :: rest)).memory.load start access.size =
        bits := by
      have first := Memory.load_store st.memory start access.size bits
      rw [Nat.mod_eq_of_lt (lt_of_lt_of_le (small bits (by simp)) (access_bits found))] at first
      refine Eq.trans ?_ first
      exact Memory.load_congr fun x _ high => Store.writeAll_outside (st.write start access.size bits)
        (start + access.size) access.size rest fun behind => by
          have := behind.1
          omega
    refine ((Kept.load loaded).and others).mono (fun x member => ?_) |>.imp
      fun m holds => ?_
    · rcases member with within | within
      · exact ⟨within.1, by have := within.2; omega⟩
      · exact within.widen (by omega) (by omega)
    · obtain ⟨first, rest⟩ := holds
      rw [List.map_cons]
      exact .cons (by simpa using short)
        (encoded_of_load core found (small bits (by simp)) first) (by rw [sizes]; exact rest)

theorem stored_elements {element : Tree} {p : Primitive} {access : Access}
    (core : element.core = .prim p) (found : Access.ofPrimitive? p = some access)
    (sizes : element.size = access.size) {numbers : List Nat}
    (small : ∀ bits ∈ numbers, bits < 2 ^ p.bits) (short : numbers.length < 2 ^ 32) (st : Store)
    {start : Nat} (bound : start + numbers.length * access.size ≤ 2 ^ 32) :
    Stored (Within start (start + numbers.length * access.size))
      (fun m => Elements m element start (numbers.map .scalar)) st
      (st.writeAll start access.size numbers) := by
  refine ⟨⟨fun x covered => ?_, fun x outside _ => ?_⟩, ?_⟩
  · rwa [Store.writeAll_taken]
  · exact Store.writeAll_outside st start access.size numbers outside
  · exact (writeAll_elements core found sizes small short st bound).mono fun _ => .inl

/-- A text or list has been put into memory of its own. -/
structure Sliced (s s' : State) (length : Nat) (holds : Memory → Nat → Prop) (start : Nat)
    (st : Store) : Prop where
  result : s' = pushSlice (s.withStore st) start length
  low : start < 2 ^ 32
  changes : Changes (fun _ => False) s.store st
  kept : Kept (Newly s.store st) st.memory fun m => holds m start

/-- Memory of its own is what was taken for the text or list and has been filled with it. -/
theorem Sliced.of_allocated {s : State} {length start size : Nat} {holds : Memory → Nat → Prop}
    {st : Store} (low : start < 2 ^ 32)
    (fresh : ∀ x, Within start (start + size) x → ¬ Covered s.store.taken x)
    (stored : Stored (Within start (start + size)) (fun m => holds m start)
      ⟨s.store.memory, ⟨start, start + size⟩ :: s.store.taken⟩ st) :
    Sliced s (pushSlice (s.withStore st) start length) length holds start st := by
  have apart := Stored.of_allocated fresh stored
  exact ⟨rfl, low, apart.changes, apart.kept.mono fun x member => member.elim False.elim id⟩

theorem stored_text (st : Store) {start : Nat} {bytes : List UInt8} (short : bytes.length < 2 ^ 32)
    (room : start + bytes.length ≤ 2 ^ 32) :
    Stored (Within start (start + bytes.length)) (fun m => TextAt m start bytes) st
      { st with memory := st.memory.storeText start bytes } := by
  refine ⟨⟨fun x covered => covered, fun x outside _ => Memory.storeText_outside outside⟩, ?_⟩
  intro m same
  have read : m.text start bytes.length = (st.memory.storeText start bytes).text start bytes.length :=
    Memory.text_congr fun x low high => same x (.inl ⟨low, high⟩)
  exact ⟨room, short, read.trans (Memory.text_storeText st.memory start bytes)⟩

theorem stringLower_reaches (scope : Outlook) (s : State) (bytes : List UInt8)
    (short : bytes.length < 2 ^ 32) :
    Reaches scope.allocator ((prim .string).Asks (.text bytes))
      (step scope (s.push (.value (.text bytes))) .stringLower) fun s' =>
      ∃ start st, Sliced s s' bytes.length (fun m start => TextAt m start bytes) start st := by
  simp only [step, Machine.stringLower, State.popValue_push, ok_bind]
  refine (Store.allocate_reaches scope.allocator ⟨rfl, rfl, rfl⟩ s.store).bind ?_
  rintro _ ⟨start, rfl, low, high, fresh⟩
  exact ⟨start, _, .of_allocated low fresh (stored_text _ short high)⟩

theorem scalars_of_admits {element : Tree} {p : Primitive} (core : element.core = .prim p)
    (number : p ≠ .string) {items : List Value} (admits : ∀ item ∈ items, element.Admits item) :
    ∃ numbers : List Nat, items = numbers.map .scalar ∧ items.mapM scalar = .ok numbers ∧
      ∀ bits ∈ numbers, bits < 2 ^ p.bits := by
  induction items with
  | nil => exact ⟨[], rfl, rfl, by simp⟩
  | cons v rest ih =>
    obtain ⟨numbers, rfl, read, small⟩ := ih fun item member => admits item (by simp [member])
    obtain ⟨bits, rfl, bound⟩ := admits_number core number (admits v (by simp))
    refine ⟨bits :: numbers, rfl, ?_, ?_⟩
    · rw [List.mapM_cons, read]
      rfl
    · intro other member
      rcases List.mem_cons.mp member with rfl | later
      · exact bound
      · exact small other later

theorem run_lowerLoop {element : Tree} {body : List Instruction} (other : ¬ element.isCanonical = true)
    (balanced : Balanced body) (scope : Outlook) (s : State) :
    run (lowerList element body) scope s =
      step scope (s.withBlock (blockOf true [] (iterElem :: body) 0))
        (.listLower element.type element.extent.size element.extent.align) := by
  have loop : Balanced (iterElem :: body) := .plain rfl balanced
  have whole : lowerList element body = blockBegin 0 true :: ((iterElem :: body) ++
      blockEnd 0 :: [.listLower element.type element.extent.size element.extent.align]) := by
    simp [lowerList, other]
  rw [whole, run_oneBlock loop rfl]

theorem run_lowerList {element : Tree} (writes : element.Writes) (id : Nat) {scope : Outlook}
    (unfolds : element.Unfolds scope.arena) (s : State) {items : List Value}
    (short : items.length < 2 ^ 32) (admits : ∀ item ∈ items, element.Admits item) :
    Reaches scope.allocator ((list id element).Asks (.list items))
      (run (lowerList element (element.write iterBasePointer 0)) scope (s.push (.value (.list items))))
      fun s' => ∃ start st, Sliced s s' items.length
        (fun m start => Elements m element start items) start st := by
  by_cases canonical : element.isCanonical = true
  · obtain ⟨p, access, core, found, extent, sliced⟩ := canonical_access unfolds canonical
    have sizes : element.size = access.size := congrArg Layout.Extent.size extent
    obtain ⟨numbers, rfl, read, small⟩ := scalars_of_admits core (number_of_access found) admits
    have asked : (list id element).Asks (.list (numbers.map .scalar)) (numbers.length * access.size)
        access.size := .inl (by rw [extent, List.length_map]; exact ⟨rfl, rfl⟩)
    rw [lowerList, if_pos canonical, run_single rfl]
    simp only [step, Machine.listCanonLower, sliced, ok_bind, State.popValue_push, elements, read]
    refine (Store.allocate_reaches scope.allocator asked s.store).bind ?_
    rintro _ ⟨start, rfl, low, high, fresh⟩
    rw [List.length_map] at short ⊢
    exact ⟨start, _, .of_allocated low fresh (stored_elements core found sizes small short _ high)⟩
  · have body := element.write_piece iterBasePointer_addresses 0
    have each : ∀ start v st, element.Admits v → start + element.size ≤ 2 ^ 32 →
        (∀ x, Within start (start + element.size) x → Covered st.taken x) →
        Reaches scope.allocator (element.Asks v)
          ((blockOf true [] (iterElem :: element.write iterBasePointer 0) 0).run
          (scope.atElement (some v) start) st) fun left =>
            left.1 = [] ∧ Stored (Within start (start + element.size))
              (fun m => element.Encoded m start v) st left.2 := by
      intro start v st admits bound inside
      refine blockOf_reaches (scope.atElement (some v) start) ?_
      rw [run_cons rfl body.balanced]
      have item : step (scope.atElement (some v) start) { operands := [], store := st } iterElem =
          .ok (({ operands := [], store := st } : State).push (.value v)) := rfl
      rw [List.reverse_nil, item, ok_bind]
      refine (writes (scope.atElement (some v) start) { operands := [], store := st } 0 unfolds
        (.atElement (some v) start) admits bound inside).mono fun s' holds => ?_
      obtain ⟨after, result, stored⟩ := holds
      subst result
      exact ⟨rfl, rfl, rfl, stored.mono fun x touches => touches.within unfolds (by omega)⟩
    rw [run_lowerLoop canonical body.balanced]
    simp only [step, Machine.listLower, State.popBlock_withBlock, ok_bind, State.popValue_push,
      elements]
    rw [show (blockOf true [] (iterElem :: element.write iterBasePointer 0) 0).loop = true from rfl,
      guard_holds, ok_bind]
    refine (Store.allocate_reaches scope.allocator (.inl ⟨rfl, rfl⟩) s.store).bind ?_
    rintro _ ⟨start, rfl, low, high, fresh⟩
    have inside : ∀ x, Within start (start + items.length * element.size) x →
        Covered (⟨start, start + items.length * element.size⟩ :: s.store.taken) x := fun x within =>
      covered_cons.mpr (.inl within)
    refine ((eachItem_reaches each admits short high inside).widen fun size align => .inr).bind
      fun after stored => ?_
    exact ⟨start, after, .of_allocated low fresh stored⟩

end ZigBindings.Tree
