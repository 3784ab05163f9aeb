import ZigBindings.Proofs.Emission.Trades

/-! Stack effects. One table says for every instruction which operands it takes and leaves and which
closed blocks it uses up. Where all of that is found the instruction does what the table says and
leaves everything below as it is, and anywhere else the stack is a mismatch. -/

namespace ZigBindings

namespace Instruction
open Zig

def takes : Instruction → Nat
  | getArg _ | i32Const _ | constZero _ | roll _ | iterElem | iterBasePointer | variantPayload
  | returnPointer _ _ | paramPointer _ _ | recordLower _ | recordLift _ | enumLower _ | enumLift _ => 0
  | numericWiden _ _ | numericNarrow _ _ | stringLower | listCanonLower _ | listLower _ _ _
  | tupleLower _ _ | optionLower _ _ | optionLift _ | load _ _ => 1
  | stringLift | listCanonLift _ | listLift _ _ | store _ _ => 2
  | bitcasts casts => casts.length
  | tupleLift _ arity => arity
  | blockBegin inputs _ => inputs
  | blockEnd results => results
  | callWasm _ sig => sig.params.length
  | callInterface f => f.params.length
  | ret amount => amount

def gives : Instruction → Nat
  | roll _ | store _ _ | blockBegin _ _ | blockEnd _ | ret _ | recordLower _ | recordLift _
  | enumLower _ | enumLift _ => 0
  | getArg _ | i32Const _ | numericWiden _ _ | numericNarrow _ _ | stringLift | listCanonLift _
  | listLift _ _ | iterElem | iterBasePointer | variantPayload | tupleLift _ _ | optionLift _
  | load _ _ | returnPointer _ _ | paramPointer _ _ => 1
  | stringLower | listCanonLower _ | listLower _ _ _ => 2
  | constZero types => types.length
  | bitcasts casts => casts.length
  | tupleLower _ arity => arity
  | optionLower _ results => results.length
  | callWasm _ sig => sig.results.length
  | callInterface f => f.results.types.length

/-- The closed blocks that an instruction uses up, newest first, by the number of their results. -/
def wants : Instruction → List Nat
  | optionLower _ results => [results.length, results.length]
  | optionLift _ => [1, 0]
  | listLower _ _ _ => [0]
  | listLift _ _ => [1]
  | _ => []

/-- The instruction can be emitted in this direction at all: slots are wide enough, alignments are
positive, and types that have to be spelled and the implementation that is called can be. -/
def Usable (setting : Setting) : Instruction → Prop
  | numericWiden value slot | numericNarrow slot value => (slotWidths value).contains slot.bits = true
  | listCanonLift ty | listLift ty _ | optionLift ty => ∃ text, spell setting.arena ty = .ok text
  | listLower _ _ align => align ≠ 0
  | callWasm _ sig => setting.direction = .outward ∧ sig.results.length ≤ 1
  | callInterface _ => setting.direction = .inward ∧ ∃ impl, setting.implParam.text? = some impl
  | recordLower _ | recordLift _ | enumLower _ | enumLift _ => False
  | _ => True

/-- Several values are returned that have no names. -/
def Nameless (setting : Setting) : Instruction → Prop
  | ret amount => 1 < amount ∧ ¬ (setting.direction = .outward ∧ setting.function.results.isNamed = true)
  | _ => False

end Instruction

namespace Emission
open Zig

section
variable {s : Emission}

/-! ### What instructions need -/

theorem numericWiden_needs {p : Primitive} {slot : Slot} (width : (slotWidths p).contains slot.bits = true) :
    Needs (1 ≤ s.operands.length) (s.numericWiden p slot) (Trades 1 1 0 s) := by
  have number : ∀ value, ∃ converted, widened value p slot = .ok converted := fun value => by
    cases p <;> first | exact ⟨_, rfl⟩ | cases width
  simp only [numericWiden, requireWidth, width, if_true, pure_bind]
  refine (pop_needs s).finish fun popped trades => ?_
  obtain ⟨converted, done⟩ := number popped.1
  rw [done]
  exact .ok (trades.and_give (push_trades _ converted))

theorem numericNarrow_needs {p : Primitive} {slot : Slot} (width : (slotWidths p).contains slot.bits = true) :
    Needs (1 ≤ s.operands.length) (s.numericNarrow slot p) (Trades 1 1 0 s) := by
  have number : ∀ value, ∃ converted, narrowed value slot p = .ok converted := fun value => by
    cases p <;> first | exact ⟨_, rfl⟩ | cases width
  simp only [numericNarrow, requireWidth, width, if_true, pure_bind]
  refine (pop_needs s).finish fun popped trades => ?_
  obtain ⟨converted, done⟩ := number popped.1
  rw [done]
  exact .ok (trades.and_give (push_trades _ converted))

theorem bitcasts_needs (casts : List (Slot × Slot)) :
    Needs (casts.length ≤ s.operands.length) (s.bitcasts casts) (Trades casts.length casts.length 0 s) := by
  refine (popN_needs s casts.length).finish fun popped taken => ?_
  obtain ⟨length, trades⟩ := taken
  exact .ok ((trades.and_give (pushAll_trades _ _)).cast (by simp [length]))

theorem lowerSlice_needs : Needs (1 ≤ s.operands.length) s.lowerSlice (Trades 1 2 0 s) := by
  refine (pop_needs s).finish fun popped trades => ?_
  have named := popped.2.materialize_trades popped.1 "slice"
  exact .ok (((trades.and_give named).and_give (pushAll_trades _ _)).cast rfl)

theorem liftSlice_needs (element stem : String) :
    Needs (2 ≤ s.operands.length) (s.liftSlice element stem) (Trades 2 1 0 s) := by
  refine (pop_needs s).bind (by omega) fun length one => ?_
  refine one.pop_needs.finish fun pointer two => ?_
  exact .ok ((two.and_give (tmp_write_trades _ stem _)).and_give (push_trades _ _))

theorem tupleLower_needs (arity : Nat) :
    Needs (1 ≤ s.operands.length) (s.tupleLower arity) (Trades 1 arity 0 s) := by
  refine (pop_needs s).finish fun popped trades => ?_
  obtain ⟨value, t⟩ := popped
  by_cases empty : arity = 0
  · rw [empty]
    exact .ok (trades.and_give (write_trades _ _))
  · have named := t.materialize_trades value "tuple"
    simp only [if_neg empty]
    exact .ok (((trades.and_give named).and_give (pushAll_trades _ _)).cast (by simp))

theorem tupleLift_needs (arity : Nat) :
    Needs (arity ≤ s.operands.length) (s.tupleLift arity) (Trades arity 1 0 s) :=
  (popN_needs s arity).finish fun _ taken => .ok (taken.2.and_give (push_trades _ _))

theorem load_needs (access : Access) (offset : Nat) :
    Needs (1 ≤ s.operands.length) (s.load access offset) (Trades 1 1 0 s) :=
  (pop_needs s).finish fun popped trades =>
    .ok ((trades.and_give (popped.2.tmp_write_trades "load" _)).and_give (push_trades _ _))

theorem store_needs (access : Access) (offset : Nat) :
    Needs (2 ≤ s.operands.length) (s.store access offset) (Trades 2 0 0 s) := by
  refine (pop_needs s).bind (by omega) fun base one => ?_
  exact one.pop_needs.finish fun value two => .ok (two.and_give (write_trades _ _))

theorem useReturnArea_trades (s : Emission) (size align : Nat) :
    Trades 0 0 0 s (s.useReturnArea size align).2 := by
  unfold useReturnArea
  split
  · exact .refl s
  · exact (s.fresh_trades "ret_area").and_give (.of_same rfl rfl rfl)

theorem useParamArea_trades (s : Emission) (size align : Nat) :
    Trades 0 0 0 s (s.useParamArea size align).2 := by
  unfold useParamArea
  split
  · exact .refl s
  · exact (s.fresh_trades "param_area").and_give (.of_same rfl rfl rfl)

def Closes (s : Emission) (counts : List Nat) : Prop := counts <+: s.blocks.map (·.results.length)

theorem closes_nil : s.Closes [] := List.nil_prefix

theorem closes_cons {block : Block} {t : Emission} {n : Nat} {counts : List Nat}
    (popped : s.blocks = block :: t.blocks) :
    s.Closes (n :: counts) ↔ block.results.length = n ∧ t.Closes counts := by
  rw [Closes, popped, List.map_cons, List.cons_prefix_cons, eq_comm]
  rfl

theorem Closes.nonempty {n : Nat} {counts : List Nat} (closes : s.Closes (n :: counts)) : s.blocks ≠ [] := by
  intro empty
  rw [Closes, empty] at closes
  exact absurd closes.length_le (by simp)

theorem closes_one {block : Block} {t : Emission} {n : Nat} (popped : s.blocks = block :: t.blocks) :
    s.Closes [n] ↔ block.results.length = n :=
  (closes_cons popped).trans (and_iff_left closes_nil)

theorem closes_two {block other : Block} {t u : Emission} {n m : Nat} (popped : s.blocks = block :: t.blocks)
    (also : t.blocks = other :: u.blocks) :
    s.Closes [n, m] ↔ block.results.length = n ∧ other.results.length = m :=
  (closes_cons popped).trans (and_congr_right fun _ => closes_one also)

theorem optionLower_needs (results : List Slot) :
    Needs (s.Closes [results.length, results.length] ∧ 1 ≤ s.operands.length) (s.optionLower results)
      (Trades 1 results.length 2 s) := by
  refine (popBlock_needs s).bind (fun whole => whole.1.nonempty) fun found one => ?_
  obtain ⟨present, t⟩ := found
  refine (popBlock_needs t).bind (fun whole => ((closes_cons one.1).mp whole.1).2.nonempty) fun found two => ?_
  obtain ⟨absent, u⟩ := found
  have closes : s.Closes [results.length, results.length] ↔ _ := closes_two one.1 two.1
  refine (requireResults_needs present _ _).bind (fun whole => (closes.mp whole.1).1) fun _ first => ?_
  refine (requireResults_needs absent _ _).bind (fun whole => (closes.mp whole.1).2) fun _ second => ?_
  have both := closes.mpr ⟨first, second⟩
  refine ((one.2.and_take two.2).pop_needs.congr (and_iff_right both).symm).finish fun popped taken => ?_
  have slots := popped.2.optionSlots_trades
  exact .ok (((taken.and_give (slots _ _ _)).and_give (pushAll_trades _ _)).cast (by simp))

theorem optionLift_needs {a : Arena} {payload : Ty} {text : String} (spelled : spell a payload = .ok text) :
    Needs (s.Closes [1, 0] ∧ 1 ≤ s.operands.length) (s.optionLift a payload) (Trades 1 1 2 s) := by
  refine (popBlock_needs s).bind (fun whole => whole.1.nonempty) fun found one => ?_
  obtain ⟨present, t⟩ := found
  refine (popBlock_needs t).bind (fun whole => ((closes_cons one.1).mp whole.1).2.nonempty) fun found two => ?_
  obtain ⟨absent, u⟩ := found
  have closes : s.Closes [1, 0] ↔ _ := closes_two one.1 two.1
  refine (requireResults_needs present _ _).bind (fun whole => (closes.mp whole.1).1) fun _ first => ?_
  refine (requireResults_needs absent _ _).bind (fun whole => (closes.mp whole.1).2) fun _ second => ?_
  have both := closes.mpr ⟨first, second⟩
  refine ((one.2.and_take two.2).pop_needs.congr (and_iff_right both).symm).finish fun popped taken => ?_
  simp only [spelled, ok_bind]
  exact .ok ((taken.and_give (tmp_write_trades _ "option" _)).and_give (push_trades _ _))

theorem listLower_needs (setting : Setting) {size align : Nat} (positive : align ≠ 0) :
    Needs (s.Closes [0] ∧ 1 ≤ s.operands.length) (s.listLower setting size align) (Trades 1 2 1 s) := by
  refine (popBlock_needs s).bind (fun whole => whole.1.nonempty) fun found one => ?_
  obtain ⟨block, t⟩ := found
  have closes : s.Closes [0] ↔ _ := closes_one one.1
  refine (requireResults_needs block _ _).bind (fun whole => closes.mp whole.1) fun _ length => ?_
  refine (one.2.pop_needs.congr (and_iff_right (closes.mpr length)).symm).finish fun popped taken => ?_
  simp only [if_neg positive]
  have vec := popped.2.materialize_trades popped.1 "vec"
  have buffer := fun stmt => (taken.and_give vec).and_give (tmp_write_trades _ "result" stmt)
  have freed := fun stmt exit => (buffer stmt).and_give (exit_trades _ (setting.direction = .outward) exit)
  have loop := fun stmt exit after => (freed stmt exit).and_give (write_trades _ after)
  exact .ok (((loop _ _ _).and_give (pushAll_trades _ _)).cast rfl)

theorem listLift_needs {a : Arena} {element : Ty} {text : String} {size : Nat}
    (spelled : spell a element = .ok text) :
    Needs (s.Closes [1] ∧ 2 ≤ s.operands.length) (s.listLift a element size) (Trades 2 1 1 s) := by
  refine (popBlock_needs s).bind (fun whole => whole.1.nonempty) fun found one => ?_
  obtain ⟨block, t⟩ := found
  have closes : s.Closes [1] ↔ _ := closes_one one.1
  refine (requireResults_needs block _ _).bind (fun whole => closes.mp whole.1) fun _ length => ?_
  refine one.2.pop_needs.bind (by omega) fun length' first => ?_
  refine (first.pop_needs.congr (and_iff_right (closes.mpr length)).symm).finish fun pointer second => ?_
  simp only [spelled, ok_bind]
  have buffer := fun stmt => second.and_give (tmp_write_trades _ "result" stmt)
  exact .ok (((buffer _).and_give (tmp_write_trades _ "item" _)).and_give (push_trades _ _))

theorem callWasm_needs {setting : Setting} {name : String} {sig : Signature}
    (outward : setting.direction = .outward) (single : sig.results.length ≤ 1) :
    Needs (sig.params.length ≤ s.operands.length) (s.callWasm setting name sig)
      (Trades sig.params.length sig.results.length 0 s) := by
  simp only [callWasm, outward, ne_eq, not_true, if_false, if_neg (Nat.not_lt.mpr single)]
  refine (popN_needs s _).finish fun popped taken => ?_
  obtain ⟨args, t⟩ := popped
  have called := fun stmt => taken.2.and_give (t.fresh_write_trades "wasm_import" stmt)
  by_cases none : sig.results.isEmpty = true
  · have zero : sig.results.length = 0 := by simpa using none
    simp only [if_pos none, zero]
    exact .ok ((called _).and_give (write_trades _ _))
  · have one : sig.results.length = 1 := by
      have some : sig.results.length ≠ 0 := by simpa using none
      omega
    simp only [if_neg none, one]
    exact .ok (((called _).and_give (fresh_write_trades _ "ret" _)).and_give (push_trades _ _))

theorem callInterface_needs {setting : Setting} (inward : setting.direction = .inward) {impl : String}
    (text : setting.implParam.text? = some impl) (f : Function) :
    Needs (f.params.length ≤ s.operands.length) (s.callInterface setting f)
      (Trades f.params.length f.results.types.length 0 s) := by
  simp only [callInterface, implementation, inward, text, reduceCtorEq, if_false, pure_bind]
  refine (popN_needs s _).finish fun popped taken => ?_
  obtain ⟨args, t⟩ := popped
  have called := fun stmt => taken.2.and_give (t.fresh_write_trades "ret" stmt)
  rcases f.results.shape with ⟨types, plain⟩ | ⟨ty, types, plain⟩ | ⟨types, some, named⟩
  · simp only [types, List.isEmpty_nil, if_true]
    exact .ok (taken.2.and_give (write_trades _ _))
  · simp only [types, plain, List.isEmpty_cons, Bool.false_eq_true, if_false]
    exact .ok ((called _).and_give (push_trades _ _))
  · simp only [types, named, List.isEmpty_iff, List.map_eq_nil_iff, some, if_false, if_true]
    exact .ok (((called _).and_give (pushAll_trades _ _)).cast (by simp))

theorem getArg_needs (nth : Nat) : Needs (nth < s.params.length) (s.getArg nth) (Trades 0 1 0 s) := by
  unfold getArg
  by_cases bound : nth < s.params.length
  · rw [List.getElem?_eq_getElem bound]
    exact (Needs.ok (push_trades s _)).congr (iff_of_true trivial bound)
  · rw [List.getElem?_eq_none (Nat.le_of_not_lt bound)]
    exact .stack bound

theorem iterElem_needs : Needs (∃ frame ∈ s.frames, frame.loop = true)
    (do let (name, s) ← s.item; pure (s.push (.name name))) (Trades 0 1 0 s) :=
  (item_needs s).finish fun _ named => .ok (named.and_give (push_trades _ _))

theorem iterBasePointer_needs : Needs (∃ frame ∈ s.frames, frame.loop = true)
    (do let (name, s) ← s.base; pure (s.push (.name name))) (Trades 0 1 0 s) :=
  (base_needs s).finish fun _ named => .ok (named.and_give (push_trades _ _))

theorem variantPayload_needs : Needs (s.frames ≠ [])
    (do let (name, s) ← s.payload; pure (s.push (.name name))) (Trades 0 1 0 s) :=
  (payload_needs s).finish fun _ named => .ok (named.and_give (push_trades _ _))

theorem ret_needs {setting : Setting} {amount : Nat} (form : ¬ Instruction.Nameless setting (.ret amount)) :
    Needs (amount ≤ s.operands.length ∧ (setting.direction = .outward →
      setting.function.results.isNamed = true → amount = setting.function.results.named.length))
      (s.ret setting amount) (Trades amount 0 0 s) := by
  refine (popN_needs s amount).bind (fun whole => whole.1) fun popped taken => ?_
  obtain ⟨values, t⟩ := popped
  obtain ⟨length, trades⟩ := taken
  have enough : amount ≤ s.operands.length := by
    obtain ⟨_, _, _, count, _, before, _⟩ := trades.operands
    rw [before, List.length_append]
    omega
  by_cases named : setting.direction = .outward ∧ setting.function.results.isNamed = true
  · have both : (decide (setting.direction = .outward) && setting.function.results.isNamed) = true := by
      simpa using named
    simp only [if_pos both]
    by_cases same : amount = setting.function.results.named.length
    · rw [if_neg (not_not.mpr (length.trans same))]
      exact (Needs.ok (trades.and_give (write_trades t _))).congr
        (iff_of_true trivial ⟨enough, fun _ _ => same⟩)
    · rw [if_pos fun other => same (length.symm.trans other)]
      exact .stack fun whole => same (whole.2 named.1 named.2)
  · have few : amount ≤ 1 := Nat.le_of_not_lt fun several => form ⟨several, named⟩
    have other : (decide (setting.direction = .outward) && setting.function.results.isNamed) ≠ true := by
      simpa using named
    simp only [if_neg other]
    refine Needs.congr ?_ (iff_of_true trivial ⟨enough, fun outward some => absurd ⟨outward, some⟩ named⟩)
    rcases values with _ | ⟨value, _ | ⟨other, rest⟩⟩
    · exact .ok trades
    · exact .ok (trades.and_give (write_trades t _))
    · exact absurd (length ▸ few) (by simp)

theorem ret_nameless {setting : Setting} {amount : Nat} (form : Instruction.Nameless setting (.ret amount)) :
    (∃ cause, s.ret setting amount = .error (.stack cause)) ↔ ¬ amount ≤ s.operands.length := by
  obtain ⟨several, unnamed⟩ := form
  constructor
  · rintro ⟨cause, stopped⟩ enough
    obtain ⟨⟨values, t⟩, popped, length, _⟩ := (popN_needs s amount).1 enough
    have other : (decide (setting.direction = .outward) && setting.function.results.isNamed) ≠ true := by
      simpa using unnamed
    simp only [ret, popped, ok_bind, if_neg other] at stopped
    rcases values with _ | ⟨value, _ | ⟨other, rest⟩⟩
    · exact absurd (length ▸ several) (by simp)
    · exact absurd (length ▸ several) (by simp)
    · cases stopped
  · intro lacks
    obtain ⟨cause, stopped⟩ := (popN_needs s amount).2 lacks
    exact ⟨cause, by rw [ret, stopped, error_bind]⟩

theorem roll_needs (depth : Nat) : Needs (depth < s.operands.length) (s.roll depth) fun s' =>
    ∃ above value below, above.length = depth ∧ s.operands = above ++ value :: below ∧
      s' = { s with operands := value :: (above ++ below) } := by
  unfold roll
  by_cases inside : depth < s.operands.length
  · rw [List.getElem?_eq_getElem inside]
    refine (Needs.ok ?_).congr (iff_of_true trivial inside)
    refine ⟨s.operands.take depth, s.operands[depth], s.operands.drop (depth + 1),
      List.length_take_of_le inside.le, ?_, ?_⟩
    · rw [List.getElem_cons_drop, List.take_append_drop]
    · rw [List.eraseIdx_eq_take_drop_succ]
  · rw [List.getElem?_eq_none (Nat.le_of_not_lt inside)]
    exact .stack inside

theorem beginBlock_needs (inputs : Nat) (loop : Bool) :
    Needs (inputs ≤ s.operands.length) (s.beginBlock inputs loop) fun s' =>
      ∃ moved below, moved.length = inputs ∧ s.operands = moved ++ below ∧
        s' = { s with frames := ⟨below, s.body, loop, {}⟩ :: s.frames, operands := moved, body := [] } := by
  unfold beginBlock popN
  by_cases few : s.operands.length < inputs
  · rw [if_pos few]
    exact .stack (by omega)
  · rw [if_neg few]
    refine (Needs.ok ?_).congr (iff_of_true trivial (by omega))
    refine ⟨s.operands.take inputs, s.operands.drop inputs, List.length_take_of_le (by omega),
      (List.take_append_drop inputs s.operands).symm, ?_⟩
    rw [List.reverse_reverse]

theorem endBlock_needs (results : Nat) :
    Needs (s.frames ≠ [] ∧ s.operands.length = results) (s.endBlock results) fun s' =>
      ∃ frame frames, s.frames = frame :: frames ∧
        s' = { s with
          frames, blocks := ⟨s.body, s.operands.reverse, frame.loop, frame.captures⟩ :: s.blocks,
          operands := frame.outerOperands, body := frame.outerBody } := by
  unfold endBlock
  cases around : s.frames with
  | nil => exact .stack fun whole => whole.1 rfl
  | cons frame frames =>
    by_cases same : s.operands.length = results
    · simp only [ne_eq, same, not_true, if_false]
      exact (Needs.ok ⟨frame, frames, rfl, rfl⟩).congr (iff_of_true trivial ⟨List.cons_ne_nil _ _, trivial⟩)
    · simp only [ne_eq, same, not_false_iff, if_true]
      exact .stack fun whole => whole.2

end

/-! ### What every instruction needs and does -/

/-- What an instruction refers to besides operands and closed blocks is there: the argument, the operand
at a depth, the open block or the loop around it, the operands a block leaves, the names of the results. -/
def Refers (setting : Setting) (s : Emission) : Instruction → Prop
  | .getArg nth => nth < s.params.length
  | .roll depth => depth < s.operands.length
  | .variantPayload => s.frames ≠ []
  | .iterElem | .iterBasePointer => ∃ frame ∈ s.frames, frame.loop = true
  | .blockEnd results => s.frames ≠ [] ∧ s.operands.length = results
  | .ret amount => setting.direction = .outward →
      setting.function.results.isNamed = true → amount = setting.function.results.named.length
  | _ => True

/-- Everything that an instruction needs is there. -/
structure Finds (setting : Setting) (inst : Instruction) (s : Emission) : Prop where
  operands : inst.takes ≤ s.operands.length
  blocks : s.Closes inst.wants
  refers : Refers setting s inst

/-- What an instruction does to operands and blocks. A roll brings one operand to the top, a block begins
with operands of its own and ends as a closed block above the others, and all else trades operands and
closed blocks by the table. -/
def Effect (s s' : Emission) : Instruction → Prop
  | .roll depth => ∃ above value below, above.length = depth ∧ s.operands = above ++ value :: below ∧
      s' = { s with operands := value :: (above ++ below) }
  | .blockBegin inputs loop => ∃ moved below, moved.length = inputs ∧ s.operands = moved ++ below ∧
      s' = { s with frames := ⟨below, s.body, loop, {}⟩ :: s.frames, operands := moved, body := [] }
  | .blockEnd _ => ∃ frame frames, s.frames = frame :: frames ∧
      s' = { s with
        frames, blocks := ⟨s.body, s.operands.reverse, frame.loop, frame.captures⟩ :: s.blocks,
        operands := frame.outerOperands, body := frame.outerBody }
  | inst => Trades inst.takes inst.gives inst.wants.length s s'

section
variable {setting : Setting} {inst : Instruction} {s s' : Emission} {x : Except Fault Emission}
  {described : Emission → Prop}

theorem finds_operands (wants : inst.wants = []) (refers : Refers setting s inst)
    (needs : Needs (inst.takes ≤ s.operands.length) x described) : Needs (Finds setting inst s) x described :=
  needs.congr ⟨fun enough => ⟨enough, wants ▸ closes_nil, refers⟩, fun finds => finds.operands⟩

theorem finds_blocks (refers : Refers setting s inst)
    (needs : Needs (s.Closes inst.wants ∧ inst.takes ≤ s.operands.length) x described) :
    Needs (Finds setting inst s) x described :=
  needs.congr ⟨fun found => ⟨found.2, found.1, refers⟩, fun finds => ⟨finds.blocks, finds.operands⟩⟩

theorem finds_refers (wants : inst.wants = []) (enough : Refers setting s inst → inst.takes ≤ s.operands.length)
    (needs : Needs (Refers setting s inst) x described) : Needs (Finds setting inst s) x described :=
  needs.congr ⟨fun refers => ⟨enough refers, wants ▸ closes_nil, refers⟩, fun finds => finds.refers⟩

theorem finds_nothing (takes : inst.takes = 0) (wants : inst.wants = []) (refers : Refers setting s inst)
    (holds : described s') : Needs (Finds setting inst s) (.ok s') described :=
  (Needs.ok holds).congr (iff_of_true trivial ⟨takes ▸ Nat.zero_le _, wants ▸ closes_nil, refers⟩)

theorem emit_needs (usable : inst.Usable setting) (form : ¬ inst.Nameless setting) :
    Needs (Finds setting inst s) (emit setting inst s) fun s' => Effect s s' inst := by
  have none := fun _ : Refers setting s inst => Nat.zero_le s.operands.length
  cases inst with
  | getArg nth => exact finds_refers rfl none (getArg_needs nth)
  | i32Const value => exact finds_nothing rfl rfl trivial (push_trades s _)
  | constZero types => exact finds_nothing rfl rfl trivial ((pushAll_trades s _).cast (List.length_map _))
  | roll depth => exact finds_refers rfl none (roll_needs depth)
  | numericWiden src dst => exact finds_operands rfl trivial (numericWiden_needs usable)
  | numericNarrow src dst => exact finds_operands rfl trivial (numericNarrow_needs usable)
  | bitcasts casts => exact finds_operands rfl trivial (bitcasts_needs casts)
  | stringLower | listCanonLower element => exact finds_operands rfl trivial lowerSlice_needs
  | stringLift => exact finds_operands rfl trivial (liftSlice_needs "u8" "str")
  | listCanonLift element =>
    obtain ⟨text, spelled⟩ := usable
    simp only [emit, listCanonLift, spelled, ok_bind]
    exact finds_operands rfl trivial (liftSlice_needs text "list")
  | listLower element size align => exact finds_blocks trivial (listLower_needs setting usable)
  | listLift element size => exact finds_blocks trivial (listLift_needs usable.choose_spec)
  | iterElem => exact finds_refers rfl none iterElem_needs
  | iterBasePointer => exact finds_refers rfl none iterBasePointer_needs
  | tupleLower ty arity => exact finds_operands rfl trivial (tupleLower_needs arity)
  | tupleLift ty arity => exact finds_operands rfl trivial (tupleLift_needs arity)
  | recordLower | recordLift | enumLower | enumLift => exact usable.elim
  | optionLower payload results => exact finds_blocks trivial (optionLower_needs results)
  | optionLift payload => exact finds_blocks trivial (optionLift_needs usable.choose_spec)
  | variantPayload => exact finds_refers rfl none variantPayload_needs
  | blockBegin inputs loop => exact finds_operands rfl trivial (beginBlock_needs inputs loop)
  | blockEnd results => exact finds_refers rfl (fun whole => whole.2.ge) (endBlock_needs results)
  | load access offset => exact finds_operands rfl trivial (load_needs access offset)
  | store access offset => exact finds_operands rfl trivial (store_needs access offset)
  | returnPointer size align =>
    exact finds_nothing rfl rfl trivial ((s.useReturnArea_trades size align).and_give (push_trades _ _))
  | paramPointer size align =>
    exact finds_nothing rfl rfl trivial ((s.useParamArea_trades size align).and_give (push_trades _ _))
  | callWasm name sig => exact finds_operands rfl trivial (callWasm_needs usable.1 usable.2)
  | callInterface f =>
    obtain ⟨inward, impl, text⟩ := usable
    exact finds_operands rfl trivial (callInterface_needs inward text f)
  | ret amount =>
    exact (ret_needs form).congr
      ⟨fun found => ⟨found.1, closes_nil, found.2⟩, fun finds => ⟨finds.operands, finds.refers⟩⟩

theorem Finds.stack_iff (usable : inst.Usable setting) :
    (∃ cause, emit setting inst s = .error (.stack cause)) ↔ ¬ Finds setting inst s := by
  by_cases form : inst.Nameless setting
  · cases inst with
    | ret amount =>
      have operands : amount ≤ s.operands.length ↔ Finds setting (.ret amount) s :=
        ⟨fun enough => ⟨enough, closes_nil, fun outward named => absurd ⟨outward, named⟩ form.2⟩,
          fun finds => finds.operands⟩
      exact (ret_nameless form).trans (not_congr operands)
    | _ => exact form.elim
  · have needs := emit_needs (s := s) usable form
    refine ⟨fun ⟨cause, stopped⟩ finds => ?_, needs.2⟩
    obtain ⟨s', done, _⟩ := needs.1 finds
    cases done.symm.trans stopped

/-- An instruction that can be emitted meets a mismatch of the stack just where something is missing that
it needs. Anywhere else, unless it returns several values without names, it does to operands and blocks
what the table says; and but for a block's begin and end the text goes on at the indentation it is at. -/
theorem emit_effect (usable : inst.Usable setting) :
    ((∃ cause, emit setting inst s = .error (.stack cause)) ↔ ¬ Finds setting inst s) ∧
    (Finds setting inst s → ¬ inst.Nameless setting →
      ∃ s', emit setting inst s = .ok s' ∧ Effect s s' inst ∧
        (Machine.isBracket inst = false → ∀ (width : Int) (page : Page) (outer : List Page), ∃ page',
          Printing.step setting width ⟨s, page, outer⟩ inst = .ok ⟨s', page', outer⟩ ∧
          page'.indent = page.indent)) := by
  refine ⟨Finds.stack_iff usable, fun finds form => ?_⟩
  obtain ⟨s', done, effect⟩ := (emit_needs usable form).1 finds
  refine ⟨s', done, effect, fun plain width page outer => ?_⟩
  exact ⟨_, Printing.step_plain plain done, Page.printAll_indent width _ page⟩

def choosing : Emission where
  operands := [.name "option", .name "below"]
  blocks := [⟨[], [.name "payload"], false, {}⟩, ⟨[], [.name "zero"], false, {}⟩]

theorem emit_effect_option :
    (∃ s' pushed, emit default (.optionLower (.prim .u32) [.i32]) choosing = .ok s' ∧
      s'.operands = [pushed, .name "below"] ∧ s'.blocks = []) ∧
    ∃ cause, emit default (.optionLower (.prim .u32) [.i32, .i32]) choosing = .error (.stack cause) := by
  have usable (results : List Slot) : (Instruction.optionLower (.prim .u32) results).Usable default := trivial
  have closed : choosing.Closes [1, 1] := ⟨[], rfl⟩
  have other : ¬ choosing.Closes [2, 2] := fun ⟨rest, same⟩ => absurd (List.cons.inj same).1 (by decide)
  refine ⟨?_, (emit_effect (usable _)).1.mpr fun finds => other finds.blocks⟩
  have finds : Finds default (.optionLower (.prim .u32) [.i32]) choosing := ⟨by decide, closed, trivial⟩
  obtain ⟨s', done, trades, -⟩ := (emit_effect (usable _)).2 finds id
  obtain ⟨taken, given, below, one, pushed, before, after⟩ := trades.operands
  obtain ⟨used, two, blocks⟩ := trades.blocks
  obtain ⟨value, rfl⟩ := List.length_eq_one_iff.mp one
  obtain ⟨result, rfl⟩ := List.length_eq_one_iff.mp pushed
  have deeper : [Expr.name "below"] = below := (List.cons.inj before).2
  have both : 2 = used.length + s'.blocks.length := by
    rw [← List.length_append, ← blocks]
    rfl
  have used_two : used.length = 2 := two
  refine ⟨s', result, done, ?_, List.eq_nil_of_length_eq_zero (by omega)⟩
  rw [after, ← deeper]
  rfl

end

end Emission

end ZigBindings
