import ZigBindings.Proofs.Crossing.Arguments
import ZigBindings.Proofs.Crossing.Canonical

/-! The code for a value does what its canonical encoding says: in slots when it lowers and lifts the
value, and in linear memory when it writes and reads it. Nothing else on the machine is touched. -/

namespace ZigBindings
open Machine

variable {a : Arena} {ty : Ty}

/-- Lowering takes a value off the stack and leaves exactly the slots of its flat encoding there, with
the types that the value's type flattens to; texts and lists lie in memory taken meanwhile. Lifting
takes a flat encoding off the stack and leaves the value. What stood below, and the blocks that wait,
stay as they are. Only a buffer that the value needs can be refused. -/
theorem Slottable.lower_lift_exact (slottable : Slottable a ty) :
    ∃ lowering lifting types, Crossing.lower a ty = .ok lowering ∧ Crossing.lift a ty = .ok lifting ∧
      Layout.flatten a ty = .ok types ∧
      ∀ v, Inhabits a v ty → ∀ (scope : Outlook) (s : State), scope.arena = a →
        (Reaches scope.allocator (a.BufferFor v ty) (run lowering scope (s.push (.value v))) fun s' =>
          ∃ slots st, s' = (s.withStore st).pushAll slots ∧ slots.map Operand.type? = types.map some ∧
            Stored (fun _ => False) (fun m => Flattens a m v ty slots) s.store st) ∧
        ∀ slots, Flattens a s.store.memory v ty slots →
          run lifting scope (s.pushAll slots) = .ok (s.push (.value v)) := by
  obtain ⟨t, rfl, mirrors⟩ := slottable.exists_mirror
  refine ⟨_, _, _, Tree.lower_eq mirrors, Tree.lift_eq mirrors, Tree.flatten_slots mirrors, ?_⟩
  rintro v typed scope s rfl
  constructor
  · have lowered := t.lowers scope s mirrors (Tree.admits_of_inhabits mirrors typed)
    refine (lowered.widen fun size align => Tree.bufferFor_of_asks mirrors).mono fun s' lowered => ?_
    obtain ⟨slots, st, result, carried⟩ := lowered
    have stored : Stored (fun _ => False) (fun m => t.Flat m slots v) s.store st :=
      ⟨carried.changes, carried.kept.mono fun _ => .inr⟩
    exact ⟨slots, st, result, carried.kept.here.types,
      stored.imp fun m flat => Tree.flattens_of_flat mirrors flat⟩
  · intro slots flattens
    exact t.lifts scope s mirrors (Tree.flat_of_flattens mirrors flattens)

/-- In a well-founded arena a value that is lowered and lifted again comes back, for every type that is
carried in slots. -/
theorem lower_lift_of_wellFounded (wf : a.WellFounded) (inRange : a.InRange ty)
    (carried : a.CarriesInSlots ty) :
    ∃ lowering lifting, Crossing.lower a ty = .ok lowering ∧ Crossing.lift a ty = .ok lifting ∧
      ∀ v, Inhabits a v ty → ∀ (scope : Outlook) (s : State), scope.arena = a →
        Reaches scope.allocator (a.BufferFor v ty)
          (run (lowering ++ lifting) scope (s.push (.value v))) fun s' =>
            ∃ st, s' = (s.withStore st).push (.value v) := by
  obtain ⟨t, rfl, mirrors⟩ := (Slottable.of_wellFounded wf inRange carried).exists_mirror
  refine ⟨_, _, Tree.lower_eq mirrors, Tree.lift_eq mirrors, ?_⟩
  rintro v typed scope s rfl
  have lowered := t.lowers scope s mirrors (Tree.admits_of_inhabits mirrors typed)
  rw [run_append t.lower_balanced t.lift_balanced]
  refine (lowered.widen fun size align => Tree.bufferFor_of_asks mirrors).bind fun s' lowered => ?_
  obtain ⟨slots, st, rfl, carried⟩ := lowered
  rw [t.lifts scope (s.withStore st) mirrors carried.kept.here]
  exact ⟨st, rfl⟩

/-- The record with level 7 and the label "hi", lowered with nothing in memory yet, and lifted again. -/
theorem hi_lowered_and_lifted : ∃ lowering lifting types slots st,
    Crossing.lower labelled (.ref 0) = .ok lowering ∧
    Crossing.lift labelled (.ref 0) = .ok lifting ∧
    Layout.flatten labelled (.ref 0) = .ok types ∧
    let scope : Outlook := { allocator := .bump, arena := labelled, args := [] }
    let s : State := { store := .empty }
    run lowering scope (s.push (.value hi)) = .ok ((s.withStore st).pushAll slots) ∧
    slots.map Operand.type? = types.map some ∧ Flattens labelled st.memory hi (.ref 0) slots ∧
    run lifting scope ((s.withStore st).pushAll slots) = .ok ((s.withStore st).push (.value hi)) := by
  obtain ⟨lowering, lifting, types, lowers, lifts, flat, exact⟩ :=
    labelled_crossable.slottable.lower_lift_exact
  let scope : Outlook := { allocator := .bump, arena := labelled, args := [] }
  let s : State := { store := .empty }
  have ran : (do
      let lowering ← Crossing.lower labelled (.ref 0)
      return (run lowering scope (s.push (.value hi))).isOk) = .ok true := by
    decide +kernel
  simp only [lowers, ok_bind, pure_eq_ok, Except.ok.injEq, isOk_iff] at ran
  obtain ⟨s', lowered⟩ := ran
  have reached := (exact hi hi_inhabits scope s rfl).1
  rw [lowered, Reaches.ok] at reached
  obtain ⟨slots, st, rfl, shape, stored⟩ := reached
  have flattens : Flattens labelled st.memory hi (.ref 0) slots := stored.kept.here
  exact ⟨lowering, lifting, types, slots, st, lowers, lifts, flat, lowered, shape, flattens,
    (exact hi hi_inhabits scope (s.withStore st) rfl).2 slots flattens⟩

/-- Writing takes a value off the stack and makes the bytes at an address the canonical encoding of
the value. All other bytes, those of padding and of an absent payload included, keep what they had
unless they belong to memory that was taken meanwhile. Reading pushes the value that memory encodes at
the address, and so gives back what was written. Only a buffer that the value needs can be refused. -/
theorem Slottable.write_read_exact (slottable : Slottable a ty) {extent : Layout.Extent}
    (measured : Layout.measure a ty = .ok extent) (address : Instruction) (offset : Nat) :
    ∃ writing reading, Crossing.write a ty address offset = .ok writing ∧
      Crossing.read a ty address offset = .ok reading ∧
      ∀ v, Inhabits a v ty → ∀ (scope : Outlook) (s : State) base, scope.arena = a →
        Points scope address base → base + offset + extent.size ≤ 2 ^ 32 →
        ((∀ x, Within (base + offset) (base + offset + extent.size) x → Covered s.store.taken x) →
          Reaches scope.allocator (a.BufferFor v ty) (run writing scope (s.push (.value v))) fun s' =>
            ∃ st cells, s' = s.withStore st ∧ Encodes a st.memory v ty (base + offset) cells ∧
              (∀ c ∈ cells, c.HeldBy st.memory) ∧
              (∀ c ∈ cells, ∀ x, c.Has x → Within (base + offset) (base + offset + extent.size) x) ∧
              Changes (fun x => ∃ c ∈ cells, c.Has x) s.store st ∧
              run reading scope s' = .ok (s'.push (.value v))) ∧
        ∀ cells, Encodes a s.store.memory v ty (base + offset) cells →
          (∀ c ∈ cells, c.HeldBy s.store.memory) →
          run reading scope s = .ok (s.push (.value v)) := by
  obtain ⟨t, rfl, unfolds, rfl⟩ := slottable.exists_tree measured
  refine ⟨_, _, Tree.write_eq unfolds address offset, Tree.read_eq unfolds address offset, ?_⟩
  rintro v typed scope s base rfl points bound
  have small : t.size < 2 ^ 50 := by
    change base + offset + t.size ≤ 2 ^ 32 at bound
    omega
  constructor
  · intro inside
    have written := t.writes scope s offset unfolds points (Tree.admits_of_inhabits unfolds typed) bound
      inside
    refine (written.widen fun size align => Tree.bufferFor_of_asks unfolds).mono fun s' written => ?_
    obtain ⟨st, rfl, stored⟩ := written
    have encoded := stored.kept.here
    obtain ⟨cells, covers⟩ := Tree.exists_covers unfolds encoded
    refine ⟨st, cells, rfl, covers.encodes, covers.held, fun c member x has => ?_, ?_, ?_⟩
    · have touches := (covers.touches x).mp ⟨c, member, has⟩
      exact touches.within unfolds small
    · exact stored.changes.mono fun x touches => (covers.touches x).mpr touches
    · exact t.reads scope (s.withStore st) offset unfolds points encoded bound
  · intro cells encodes held
    exact t.reads scope s offset unfolds points (Tree.encoded_of_encodes unfolds encodes held) bound

/-- The same record, written to the sixteen bytes that the first argument points to. -/
theorem hi_written_and_read : ∃ writing reading st cells,
    Crossing.write labelled (.ref 0) (.getArg 0) 0 = .ok writing ∧
    Crossing.read labelled (.ref 0) (.getArg 0) 0 = .ok reading ∧
    let scope : Outlook := { allocator := .bump, arena := labelled, args := [.slot .i32 16] }
    let s : State := { store := ⟨fun _ => 0, [⟨16, 32⟩]⟩ }
    run writing scope (s.push (.value hi)) = .ok (s.withStore st) ∧
    Encodes labelled st.memory hi (.ref 0) 16 cells ∧ (∀ c ∈ cells, c.HeldBy st.memory) ∧
    (∀ c ∈ cells, ∀ x, c.Has x → Within 16 32 x) ∧ Changes (fun x => ∃ c ∈ cells, c.Has x) s.store st ∧
    run reading scope (s.withStore st) = .ok ((s.withStore st).push (.value hi)) := by
  have measured : Layout.measure labelled (.ref 0) = .ok ⟨16, 4⟩ := by decide +kernel
  obtain ⟨writing, reading, writes, reads, exact⟩ :=
    labelled_crossable.slottable.write_read_exact measured (.getArg 0) 0
  let scope : Outlook := { allocator := .bump, arena := labelled, args := [.slot .i32 16] }
  let s : State := { store := ⟨fun _ => 0, [⟨16, 32⟩]⟩ }
  have ran : (do
      let writing ← Crossing.write labelled (.ref 0) (.getArg 0) 0
      return (run writing scope (s.push (.value hi))).isOk) = .ok true := by
    decide +kernel
  simp only [writes, ok_bind, pure_eq_ok, Except.ok.injEq, isOk_iff] at ran
  obtain ⟨s', written⟩ := ran
  have reached := (exact hi hi_inhabits scope s 16 rfl (.ofArg rfl) (by decide)).1 fun x within =>
    ⟨⟨16, 32⟩, List.mem_singleton_self _, within⟩
  rw [written, Reaches.ok] at reached
  obtain ⟨st, cells, rfl, encodes, held, inside, changes, read⟩ := reached
  exact ⟨writing, reading, st, cells, writes, reads, written, encodes, held, inside, changes, read⟩

end ZigBindings
