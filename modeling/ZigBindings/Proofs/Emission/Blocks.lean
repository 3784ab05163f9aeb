import ZigBindings.Proofs.Emission.Instructions

/-! Emission of blocks. A block whose body can be emitted is closed with its results, and the
instruction that consumes one or two of them finds them on top. -/

namespace ZigBindings.Emission

/-- One more block is closed, and the operands that it took are gone. -/
structure Closed (takes results : Nat) (s s' : Emission) : Prop where
  block : ∃ block, s'.blocks = block :: s.blocks ∧ block.results.length = results
  moved : Moved takes 0 s { s' with blocks := s.blocks }

variable {setting : Setting} {given inner : Context → Prop}

theorem Closed.context {takes results : Nat} {s s' : Emission} (closed : Closed takes results s s') :
    s'.context = s.context := closed.moved.context

theorem block_computes {loop : Bool} {code : List Instruction} {inputs results : Nat} {s : Emission}
    (body : Emits setting inner code inputs results) (allowed : inner (s.context.within loop))
    (enough : inputs ≤ s.operands.length) :
    Computes False
      (emitAll setting (.blockBegin inputs loop :: (code ++ [.blockEnd results])) s)
      (Closed inputs results s) := by
  have code : Instruction.blockBegin inputs loop :: (code ++ [.blockEnd results]) =
      [.blockBegin inputs loop] ++ (code ++ [.blockEnd results]) := rfl
  rw [code, emitAll_append, emitAll_single]
  simp only [emit, beginBlock, bind_assoc]
  refine (popN_computes enough).bind fun moved took => ?_
  obtain ⟨values, below⟩ := moved
  obtain ⟨length, popped⟩ := took
  simp only [pure_eq_ok, ok_bind]
  rw [emitAll_append]
  refine (body _ ?_ (by simpa using length.ge)).bind fun s' moved => ?_
  · have around := popped.context
    simp only [context, Context.mk.injEq] at around
    simp only [context, List.map_cons, around.1, around.2]
    exact allowed
  rw [emitAll_single]
  simp only [emit, endBlock]
  have frames := moved.frames
  have count := moved.count
  simp only [List.length_reverse, length] at count
  cases around : s'.frames with
  | nil => simp [around] at frames
  | cons frame rest =>
    rw [around, List.map_cons, List.map_cons, List.cons.injEq] at frames
    obtain ⟨same, others⟩ := frames
    have outer : frame.outerOperands = below.operands := congrArg Frame.outerOperands same
    have left : s'.operands.length = results := by omega
    dsimp only
    rw [if_neg (by omega)]
    refine ⟨⟨_, by rw [moved.blocks, popped.blocks], by simpa using left⟩, ?_, ?_, rfl, ?_⟩
    · simpa [outer] using popped.count
    · exact moved.params.trans popped.params
    · exact others.trans popped.frames

theorem Closed.popBlock {takes results : Nat} {s s' : Emission}
    (closed : Closed takes results s s') : ∃ block last, block.results.length = results ∧
      s'.popBlock = .ok (block, last) ∧ Moved takes 0 s last := by
  obtain ⟨block, blocks, length⟩ := closed.block
  refine ⟨block, _, length, ?_, closed.moved⟩
  rw [Emission.popBlock, blocks]
  rfl

theorem Closed.popBlocks {takes results more others : Nat} {s s' s'' : Emission}
    (first : Closed takes results s s') (second : Closed more others s' s'') :
    ∃ block other middle last, block.results.length = results ∧ other.results.length = others ∧
      s''.popBlock = .ok (other, middle) ∧ middle.popBlock = .ok (block, last) ∧
      Moved (takes + more) 0 s last := by
  obtain ⟨other, blocks', length'⟩ := second.block
  obtain ⟨block, blocks, length⟩ := first.block
  refine ⟨block, other, { s'' with blocks := s'.blocks }, { s'' with blocks := s.blocks }, length,
    length', ?_, ?_, ?_, ?_, rfl, ?_⟩
  · rw [Emission.popBlock, blocks']
    rfl
  · rw [Emission.popBlock, blocks]
    rfl
  · have one := first.moved.count
    have two := second.moved.count
    simp only at one two ⊢
    omega
  · exact second.moved.params.trans first.moved.params
  · exact second.moved.frames.trans first.moved.frames

theorem requireResults_eq {block : Block} {count : Nat} (length : block.results.length = count)
    (consumer : String) : requireResults block count consumer = .ok () := by
  rw [requireResults, if_pos length]
  rfl

theorem slotVars_moved (slots : List (String × Slot)) (s : Emission) :
    Moved 0 0 s (slots.foldl (fun s (slot, ty) => s.write (.slotVar slot ty.name)) s) := by
  induction slots generalizing s with
  | nil => exact .refl s
  | cons slot rest ih => exact (s.write_moved _).trans (ih _)

theorem optionSlots_moved (s : Emission) (names : List String) (slots : List (String × Slot))
    (stmt : Zig.Stmt) : Moved 0 0 s ((slots.foldl (fun s (slot, ty) => s.write (.slotVar slot ty.name))
      ((s.tmp "option").2.reserve names)).write stmt) :=
  ((s.tmp_moved "option").trans (reserve_moved _ names)).trans
    ((slotVars_moved slots _).trans (write_moved _ stmt))

theorem optionLower_computes {results : List Slot} {s s' s'' : Emission}
    (first : Closed 0 results.length s s') (second : Closed 0 results.length s' s'')
    (enough : 1 ≤ s.operands.length) :
    Computes False (s''.optionLower results) (Moved 1 results.length s) := by
  obtain ⟨absent, present, middle, last, none, some, one, two, moved⟩ := first.popBlocks second
  simp only [optionLower, one, two, ok_bind, requireResults_eq none, requireResults_eq some]
  have count := moved.count
  refine (pop_computes (by omega)).bind fun found popped => ?_
  obtain ⟨value, below⟩ := found
  have written := below.optionSlots_moved
  simp only [pure_eq_ok, Computes.ok]
  exact (moved.trans (popped.trans ((written _ _ _).trans (pushAll_moved _ _)))).cast (by simp)

theorem optionLift_computes {payload : Ty} {text : String} {inputs : Nat} {s s' s'' : Emission}
    (spelled : Zig.spell setting.arena payload = .ok text) (first : Closed 0 0 s s')
    (second : Closed inputs 1 s' s'') (enough : inputs + 1 ≤ s.operands.length) :
    Computes False (s''.optionLift setting.arena payload) (Moved (inputs + 1) 1 s) := by
  obtain ⟨absent, present, middle, last, none, some, one, two, moved⟩ := first.popBlocks second
  simp only [optionLift, one, two, ok_bind, requireResults_eq none, requireResults_eq some, spelled]
  have count := moved.count
  refine (pop_computes (by omega)).bind fun found popped => ?_
  obtain ⟨value, below⟩ := found
  have named := below.tmp_write_moved "option"
  simp only [pure_eq_ok, Computes.ok]
  exact (moved.trans (popped.trans ((named _).trans (push_moved _ _)))).cast (by omega)

theorem exit_moved (s : Emission) (condition : Prop) [Decidable condition] (stmt : Zig.Stmt) :
    Moved 0 0 s (if condition then s.write stmt else s) := by
  split
  · exact s.write_moved stmt
  · exact .refl s

theorem listLower_computes {size align : Nat} {s s' : Emission} (positive : align ≠ 0)
    (closed : Closed 0 0 s s') (enough : 1 ≤ s.operands.length) :
    Computes False (s'.listLower setting size align) (Moved 1 2 s) := by
  obtain ⟨block, last, length, popped, moved⟩ := closed.popBlock
  simp only [listLower, popped, ok_bind, requireResults_eq length, if_neg positive]
  have count := moved.count
  refine (pop_computes (by omega)).bind fun found taken => ?_
  obtain ⟨value, below⟩ := found
  have first := below.materialize_moved value "vec"
  have second := (below.materialize value "vec").2.tmp_write_moved "result"
  simp only [pure_eq_ok, Computes.ok]
  refine (moved.trans (taken.trans (first.trans ((second _).trans
    ((exit_moved _ _ _).trans ((write_moved _ _).trans (pushAll_moved _ _))))))).cast (by simp)

theorem listLift_computes {element : Ty} {text : String} {size : Nat} {s s' : Emission}
    (spelled : Zig.spell setting.arena element = .ok text) (closed : Closed 0 1 s s')
    (enough : 2 ≤ s.operands.length) :
    Computes False (s'.listLift setting.arena element size) (Moved 2 1 s) := by
  obtain ⟨block, last, length, popped, moved⟩ := closed.popBlock
  simp only [listLift, popped, ok_bind, requireResults_eq length, spelled]
  have count := moved.count
  refine (pop_computes (by omega)).bind fun found one => ?_
  obtain ⟨length, below⟩ := found
  have left : below.operands.length + 1 = last.operands.length := one.count
  refine (pop_computes (by simp only; omega)).bind fun found two => ?_
  obtain ⟨pointer, bottom⟩ := found
  have first := bottom.tmp_write_moved "result"
  simp only [pure_eq_ok, Computes.ok]
  exact (moved.trans (one.trans (two.trans ((first _).trans ((tmp_write_moved _ _ _).trans
    (push_moved _ _)))))).cast (by omega)

theorem optionLower_emits {first second : List Instruction} {results : List Slot} (payload : Ty)
    (absent : Emits setting inner first 0 results.length)
    (present : Emits setting inner second 0 results.length)
    (allowed : ∀ c, given c → inner (c.within false)) :
    Emits setting given (.blockBegin 0 false :: (first ++ [.blockEnd results.length]) ++
      (.blockBegin 0 false :: (second ++ [.blockEnd results.length])) ++
      [.optionLower payload results]) 1 results.length := by
  intro s fits enough
  rw [emitAll_append, emitAll_append, bind_assoc]
  refine (block_computes absent (allowed _ fits) (Nat.zero_le _)).bind fun s' one => ?_
  rw [← one.context] at fits
  refine (block_computes present (allowed _ fits) (Nat.zero_le _)).bind fun s'' two => ?_
  rw [emitAll_single]
  exact optionLower_computes one two enough

theorem optionLift_emits {part : List Instruction} {payload : Ty} {text : String} {inputs : Nat}
    (spelled : Zig.spell setting.arena payload = .ok text) (present : Emits setting inner part inputs 1)
    (allowed : ∀ c, given c → inner (c.within false)) :
    Emits setting given (.blockBegin 0 false :: ([] ++ [.blockEnd 0]) ++
      (.blockBegin inputs false :: (part ++ [.blockEnd 1])) ++ [.optionLift payload])
      (inputs + 1) 1 := by
  intro s fits enough
  rw [emitAll_append, emitAll_append, bind_assoc]
  refine (block_computes Emits.nil (allowed _ fits) (Nat.zero_le _)).bind fun s' one => ?_
  have count := one.moved.count
  rw [← one.context] at fits
  refine (block_computes present (allowed _ fits) ?_).bind fun s'' two => ?_
  · simp only at count
    omega
  · rw [emitAll_single]
    exact optionLift_computes spelled one two enough

theorem listLower_emits {body : List Instruction} {element : Ty} {size align : Nat}
    (positive : align ≠ 0) (written : Emits setting (fun c => true ∈ c.loops) body 1 0) :
    Emits setting given
      ([.blockBegin 0 true, .iterElem] ++ body ++ [.blockEnd 0, .listLower element size align])
      1 2 := by
  have parts : [.blockBegin 0 true, .iterElem] ++ body ++
      [.blockEnd 0, .listLower element size align] = Instruction.blockBegin 0 true ::
        (.iterElem :: body ++ [.blockEnd 0]) ++ [.listLower element size align] := by simp
  intro s fits enough
  rw [parts, emitAll_append]
  have code : Emits setting (fun c => true ∈ c.loops) (.iterElem :: body) 0 0 :=
    (iterElem_emits.append written).cast (by omega) (by omega)
  refine (block_computes code (List.mem_cons_self ..) (Nat.zero_le _)).bind fun s' closed => ?_
  rw [emitAll_single]
  exact listLower_computes positive closed enough

theorem listLift_emits {body : List Instruction} {element : Ty} {text : String} {size : Nat}
    (spelled : Zig.spell setting.arena element = .ok text)
    (found : Emits setting (fun c => true ∈ c.loops) body 0 1) :
    Emits setting given
      ([.blockBegin 0 true] ++ body ++ [.blockEnd 1, .listLift element size]) 2 1 := by
  have parts : [.blockBegin 0 true] ++ body ++ [.blockEnd 1, .listLift element size] =
      Instruction.blockBegin 0 true :: (body ++ [.blockEnd 1]) ++ [.listLift element size] := by simp
  intro s fits enough
  rw [parts, emitAll_append]
  refine (block_computes found (List.mem_cons_self ..) (Nat.zero_le _)).bind fun s' closed => ?_
  rw [emitAll_single]
  exact listLift_computes spelled closed enough

end ZigBindings.Emission
