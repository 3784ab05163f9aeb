import ZigBindings.Proofs.Emission.Isolation

/-! What a computation on the operand stack needs: where it is there the computation ends as described,
and anywhere else the stack is a mismatch. The steps on operands, open and closed blocks each with what
they need, and what they trade on the stack. -/

namespace ZigBindings

/-- Where what is needed is there the computation ends as described, and anywhere else the stack is a
mismatch. -/
def Needs {α : Type} (needed : Prop) (x : Except Fault α) (described : α → Prop) : Prop :=
  (needed → ∃ a, x = .ok a ∧ described a) ∧ (¬ needed → ∃ cause, x = .error (.stack cause))

namespace Needs

variable {α β : Type} {needed more : Prop} {x : Except Fault α} {described : α → Prop}

theorem ok {a : α} (holds : described a) : Needs True (.ok a) described :=
  ⟨fun _ => ⟨a, rfl, holds⟩, fun never => absurd trivial never⟩

theorem stack {cause : StackFault} (lacks : ¬ needed) : Needs needed (.error (.stack cause)) described :=
  ⟨fun found => absurd found lacks, fun _ => ⟨cause, rfl⟩⟩

theorem congr (needs : Needs needed x described) (same : needed ↔ more) : Needs more x described :=
  ⟨fun found => needs.1 (same.mpr found), fun lacks => needs.2 fun found => lacks (same.mp found)⟩

theorem mono {other : α → Prop} (needs : Needs needed x described) (weaker : ∀ a, described a → other a) :
    Needs needed x other :=
  ⟨fun found => (needs.1 found).imp fun a ends => ⟨ends.1, weaker a ends.2⟩, needs.2⟩

theorem bind {f : α → Except Fault β} {next : β → Prop} (first : Needs needed x described)
    (weaker : more → needed) (after : ∀ a, described a → Needs more (f a) next) :
    Needs more (x >>= f) next := by
  by_cases found : needed
  · obtain ⟨a, done, holds⟩ := first.1 found
    rw [done, ok_bind]
    exact after a holds
  · obtain ⟨cause, stopped⟩ := first.2 found
    rw [stopped, error_bind]
    exact .stack fun whole => found (weaker whole)

theorem finish {f : α → Except Fault β} {next : β → Prop} (last : Needs needed x described)
    (after : ∀ a, described a → Needs True (f a) next) : Needs needed (x >>= f) next := by
  by_cases found : needed
  · obtain ⟨a, done, holds⟩ := last.1 found
    rw [done, ok_bind]
    exact (after a holds).congr (iff_of_true trivial found)
  · obtain ⟨cause, stopped⟩ := last.2 found
    rw [stopped, error_bind]
    exact .stack found

end Needs

namespace Emission
open Zig

/-- Operands on top of the stack are gone and others have come, and so are the newest closed blocks. All
below them is as it was, and so is what the open blocks have put aside. -/
structure Trades (takes gives uses : Nat) (s s' : Emission) : Prop where
  operands : ∃ taken given below : List Expr, taken.length = takes ∧ given.length = gives ∧
    s.operands = taken ++ below ∧ s'.operands = given ++ below
  blocks : ∃ used : List Block, used.length = uses ∧ s.blocks = used ++ s'.blocks
  frames : s'.frames.map Frame.outer = s.frames.map Frame.outer

namespace Trades

variable {takes gives uses more others again : Nat} {s s' s'' : Emission}

theorem of_same (operands : s'.operands = s.operands) (blocks : s'.blocks = s.blocks)
    (frames : s'.frames = s.frames) : Trades 0 0 0 s s' :=
  ⟨⟨[], [], s.operands, rfl, rfl, rfl, operands⟩, ⟨[], rfl, blocks.symm⟩, congrArg _ frames⟩

theorem of_sameCode (same : SameCode s s') : Trades 0 0 0 s s' :=
  of_same same.operands same.blocks same.frames

theorem refl (s : Emission) : Trades 0 0 0 s s := of_same rfl rfl rfl

theorem cast (trades : Trades takes gives uses s s') (same : gives = others) : Trades takes others uses s s' :=
  same ▸ trades

theorem and_take (first : Trades takes 0 uses s s') (second : Trades more others again s' s'') :
    Trades (takes + more) others (uses + again) s s'' := by
  obtain ⟨taken, given, between, length, none, before, after⟩ := first.operands
  obtain ⟨next, left, below, length', given', before', after'⟩ := second.operands
  obtain ⟨used, count, blocks⟩ := first.blocks
  obtain ⟨rest, count', blocks'⟩ := second.blocks
  have empty : given = [] := List.eq_nil_of_length_eq_zero none
  rw [empty, List.nil_append] at after
  refine ⟨⟨taken ++ next, left, below, ?_, given', ?_, after'⟩, ⟨used ++ rest, ?_, ?_⟩,
    second.frames.trans first.frames⟩
  · rw [List.length_append, length, length']
  · rw [before, ← after, before', List.append_assoc]
  · rw [List.length_append, count, count']
  · rw [blocks, blocks', List.append_assoc]

theorem and_give (first : Trades takes gives uses s s') (second : Trades 0 others 0 s' s'') :
    Trades takes (others + gives) uses s s'' := by
  obtain ⟨taken, given, below, length, count, before, after⟩ := first.operands
  obtain ⟨next, left, between, none, count', before', after'⟩ := second.operands
  obtain ⟨used, number, blocks⟩ := first.blocks
  obtain ⟨rest, none', blocks'⟩ := second.blocks
  have empty : next = [] := List.eq_nil_of_length_eq_zero none
  have unused : rest = [] := List.eq_nil_of_length_eq_zero none'
  rw [empty, List.nil_append] at before'
  rw [unused, List.nil_append] at blocks'
  refine ⟨⟨taken, left ++ given, below, length, ?_, before, ?_⟩, ⟨used, number, ?_⟩,
    second.frames.trans first.frames⟩
  · rw [List.length_append, count, count']
  · rw [after', ← before', after, List.append_assoc]
  · rw [blocks, blocks']

end Trades

section
variable (s : Emission)

theorem tmp_trades (stem : String) : Trades 0 0 0 s (s.tmp stem).2 :=
  .of_sameCode (s.tmp_same stem)

theorem fresh_trades (name : String) : Trades 0 0 0 s (s.fresh name).2 :=
  .of_sameCode (s.fresh_same name)

theorem reserve_trades (names : List String) : Trades 0 0 0 s (s.reserve names) :=
  .of_sameCode (s.reserve_same names)

theorem write_trades (stmt : Stmt) : Trades 0 0 0 s (s.write stmt) := .of_same rfl rfl rfl

theorem tmp_write_trades (stem : String) (stmt : Stmt) : Trades 0 0 0 s ((s.tmp stem).2.write stmt) :=
  (s.tmp_trades stem).and_give (write_trades _ stmt)

theorem fresh_write_trades (name : String) (stmt : Stmt) : Trades 0 0 0 s ((s.fresh name).2.write stmt) :=
  (s.fresh_trades name).and_give (write_trades _ stmt)

theorem materialize_trades (value : Expr) (stem : String) : Trades 0 0 0 s (s.materialize value stem).2 := by
  unfold materialize
  split
  · exact .refl s
  · exact s.tmp_write_trades stem _

theorem push_trades (value : Expr) : Trades 0 1 0 s (s.push value) :=
  ⟨⟨[], [value], s.operands, rfl, rfl, rfl, rfl⟩, ⟨[], rfl, rfl⟩, rfl⟩

theorem pushAll_trades (values : List Expr) : Trades 0 values.length 0 s (s.pushAll values) :=
  ⟨⟨[], values.reverse, s.operands, rfl, List.length_reverse, rfl, rfl⟩, ⟨[], rfl, rfl⟩, rfl⟩

theorem slotVars_trades (slots : List (String × Slot)) :
    Trades 0 0 0 s (slots.foldl (fun s (slot, ty) => s.write (.slotVar slot ty.name)) s) := by
  induction slots generalizing s with
  | nil => exact .refl s
  | cons slot rest ih => exact (s.write_trades _).and_give (ih _)

theorem optionSlots_trades (names : List String) (slots : List (String × Slot)) (stmt : Stmt) :
    Trades 0 0 0 s ((slots.foldl (fun s (slot, ty) => s.write (.slotVar slot ty.name))
      ((s.tmp "option").2.reserve names)).write stmt) :=
  (((s.tmp_trades "option").and_give (reserve_trades _ names)).and_give (slotVars_trades _ slots)).and_give
    (write_trades _ stmt)

theorem exit_trades (condition : Prop) [Decidable condition] (stmt : Stmt) :
    Trades 0 0 0 s (if condition then s.write stmt else s) := by
  split
  · exact s.write_trades stmt
  · exact .refl s

end

/-! ### What single steps need -/

section
variable {s : Emission} {needed more : Prop}

theorem pop_needs (s : Emission) :
    Needs (1 ≤ s.operands.length) s.pop fun popped => Trades 1 0 0 s popped.2 := by
  unfold pop
  cases stack : s.operands with
  | nil => exact .stack (by simp)
  | cons value rest =>
    refine (Needs.ok ?_).congr (by simp)
    exact ⟨⟨[value], [], rest, rfl, rfl, stack, rfl⟩, ⟨[], rfl, rfl⟩, rfl⟩

theorem popN_needs (s : Emission) (n : Nat) : Needs (n ≤ s.operands.length) (s.popN n)
    fun popped => popped.1.length = n ∧ Trades n 0 0 s popped.2 := by
  unfold popN
  by_cases few : s.operands.length < n
  · rw [if_pos few]
    exact .stack (by omega)
  · rw [if_neg few]
    have length : (s.operands.take n).length = n := List.length_take_of_le (by omega)
    refine (Needs.ok ?_).congr (iff_of_true trivial (by omega))
    refine ⟨by rw [List.length_reverse, length], ⟨s.operands.take n, [], s.operands.drop n, length, rfl, ?_, rfl⟩,
      ⟨[], rfl, rfl⟩, rfl⟩
    exact (List.take_append_drop n s.operands).symm

theorem Trades.pop_needs {takes uses : Nat} {t : Emission} (trades : Trades takes 0 uses s t) :
    Needs (takes + 1 ≤ s.operands.length) t.pop fun popped => Trades (takes + 1) 0 uses s popped.2 := by
  obtain ⟨taken, given, below, length, none, before, after⟩ := trades.operands
  have empty : given = [] := List.eq_nil_of_length_eq_zero none
  have count : s.operands.length = takes + t.operands.length := by
    rw [before, after, empty, List.nil_append, List.length_append, length]
  exact ((Emission.pop_needs t).mono fun _ popped => trades.and_take popped).congr (by omega)

theorem payload_needs (s : Emission) :
    Needs (s.frames ≠ []) s.payload fun named => Trades 0 0 0 s named.2 := by
  unfold payload
  cases around : s.frames with
  | nil => exact .stack (fun found => found rfl)
  | cons frame rest =>
    have named := s.tmp_trades "payload"
    refine Needs.congr ?_ (iff_of_true trivial (List.cons_ne_nil _ _))
    dsimp only
    split
    · exact .ok (.refl s)
    · exact .ok ⟨named.operands, named.blocks, by rw [around]; rfl⟩

theorem loopFrame_needs (s : Emission) :
    Needs (∃ frame ∈ s.frames, frame.loop = true) s.loopFrame fun _ => True := by
  unfold loopFrame
  cases found : s.frames.find? (·.loop) with
  | none =>
    have flat := List.find?_eq_none.mp found
    exact .stack fun ⟨frame, member, loop⟩ => flat frame member loop
  | some frame =>
    exact (Needs.ok trivial).congr (iff_of_true trivial
      ⟨frame, List.mem_of_find?_eq_some found, List.find?_some found⟩)

theorem capture_trades {t : Emission} (trades : Trades 0 0 0 s t) (captures : Captures) :
    Trades 0 0 0 s { t with frames := setLoopCaptures captures t.frames } :=
  ⟨trades.operands, trades.blocks, (setLoopCaptures_outer captures t.frames).trans trades.frames⟩

theorem item_needs (s : Emission) : Needs (∃ frame ∈ s.frames, frame.loop = true) s.item
    fun named => Trades 0 0 0 s named.2 := by
  refine (loopFrame_needs s).finish fun frame _ => ?_
  split
  · exact .ok (.refl s)
  · exact .ok (capture_trades (s.tmp_trades "elem") _)

theorem base_needs (s : Emission) : Needs (∃ frame ∈ s.frames, frame.loop = true) s.base
    fun named => Trades 0 0 0 s named.2 := by
  refine (loopFrame_needs s).finish fun frame _ => ?_
  split
  · exact .ok (.refl s)
  · exact .ok (capture_trades ((s.tmp_trades "base").and_give (tmp_trades _ "index")) _)

theorem popBlock_needs (s : Emission) : Needs (s.blocks ≠ []) s.popBlock
    fun popped => s.blocks = popped.1 :: popped.2.blocks ∧ Trades 0 0 1 s popped.2 := by
  unfold popBlock
  cases closed : s.blocks with
  | nil => exact .stack fun found => found rfl
  | cons block rest =>
    refine (Needs.ok ?_).congr (iff_of_true trivial (List.cons_ne_nil _ _))
    exact ⟨rfl, ⟨[], [], s.operands, rfl, rfl, rfl, rfl⟩, ⟨[block], rfl, closed⟩, rfl⟩

theorem requireResults_needs (block : Block) (count : Nat) (consumer : String) :
    Needs (block.results.length = count) (requireResults block count consumer)
      fun _ => block.results.length = count := by
  unfold requireResults
  by_cases length : block.results.length = count
  · rw [if_pos length]
    exact (Needs.ok (a := ()) length).congr (iff_of_true trivial length)
  · rw [if_neg length]
    exact .stack length

end

end Emission

end ZigBindings
