import ZigBindings.Emission.Emit
import ZigBindings.Proofs.Emission.Fresh
import ZigBindings.Proofs.Layout.Range

/-! What instructions do to the operands of an emission. An instruction whose operands are there is
emitted; it takes and leaves a fixed number of them, and keeps the blocks around it as they are. -/

namespace ZigBindings

def Frame.bare (frame : Frame) : Frame := { frame with captures := {} }

/-- What code can refer to besides the operands: parameters, and the blocks that it stands in, of
which some are loops. -/
structure Context where
  params : Nat
  loops : List Bool

def Context.within (c : Context) (loop : Bool) : Context := { c with loops := loop :: c.loops }

def Context.Offers (c : Context) : Instruction → Prop
  | .getArg nth => nth < c.params
  | .iterBasePointer => true ∈ c.loops
  | .returnPointer _ _ | .paramPointer _ _ => True
  | _ => False

theorem Context.Offers.within {c : Context} {address : Instruction} (offers : c.Offers address)
    (loop : Bool) : (c.within loop).Offers address := by
  cases address with
  | iterBasePointer => exact List.mem_cons_of_mem _ offers
  | _ => exact offers

namespace Emission

def context (s : Emission) : Context := ⟨s.params.length, s.frames.map (·.loop)⟩

/-- Some operands are gone and others have come; parameters, closed blocks and frames are kept. -/
structure Moved (takes gives : Nat) (s s' : Emission) : Prop where
  count : s'.operands.length + takes = s.operands.length + gives
  params : s'.params = s.params
  blocks : s'.blocks = s.blocks
  frames : s'.frames.map Frame.bare = s.frames.map Frame.bare

namespace Moved

variable {takes gives more others : Nat} {s s' s'' : Emission}

theorem refl (s : Emission) : Moved 0 0 s s := ⟨rfl, rfl, rfl, rfl⟩

theorem trans (first : Moved takes gives s s') (second : Moved more others s' s'') :
    Moved (takes + more) (gives + others) s s'' where
  count := by
    have one := first.count
    have two := second.count
    omega
  params := second.params.trans first.params
  blocks := second.blocks.trans first.blocks
  frames := second.frames.trans first.frames

theorem cast (moved : Moved takes gives s s') (same : takes + others = more + gives) :
    Moved more others s s' where
  count := by
    have count := moved.count
    omega
  params := moved.params
  blocks := moved.blocks
  frames := moved.frames

theorem context (moved : Moved takes gives s s') : s'.context = s.context := by
  have loops := congrArg (List.map Frame.loop) moved.frames
  rw [List.map_map, List.map_map] at loops
  have same : s'.frames.map (·.loop) = s.frames.map (·.loop) := loops
  rw [Emission.context, Emission.context, moved.params, same]

end Moved

section
variable (s : Emission)

theorem SameCode.moved {s s' : Emission} (same : SameCode s s') : Moved 0 0 s s' :=
  ⟨by rw [same.operands], same.params, same.blocks, by rw [same.frames]⟩

theorem reserve_moved (names : List String) : Moved 0 0 s (s.reserve names) := (s.reserve_same names).moved

theorem tmp_moved (stem : String) : Moved 0 0 s (s.tmp stem).2 := (s.tmp_same stem).moved

theorem fresh_moved (name : String) : Moved 0 0 s (s.fresh name).2 := (s.fresh_same name).moved

theorem write_moved (stmt : Zig.Stmt) : Moved 0 0 s (s.write stmt) := ⟨rfl, rfl, rfl, rfl⟩

theorem tmp_write_moved (stem : String) (stmt : Zig.Stmt) :
    Moved 0 0 s ((s.tmp stem).2.write stmt) :=
  (s.tmp_moved stem).trans (write_moved _ stmt)

theorem fresh_write_moved (name : String) (stmt : Zig.Stmt) :
    Moved 0 0 s ((s.fresh name).2.write stmt) :=
  (s.fresh_moved name).trans (write_moved _ stmt)

theorem materialize_moved (value : Zig.Expr) (stem : String) :
    Moved 0 0 s (s.materialize value stem).2 := by
  unfold materialize
  split
  · exact .refl s
  · exact s.tmp_write_moved stem _

theorem push_moved (value : Zig.Expr) : Moved 0 1 s (s.push value) := ⟨rfl, rfl, rfl, rfl⟩

theorem pushAll_moved (values : List Zig.Expr) : Moved 0 values.length s (s.pushAll values) :=
  ⟨by simp [pushAll, Nat.add_comm], rfl, rfl, rfl⟩

theorem pop_computes {s : Emission} (some : 1 ≤ s.operands.length) :
    Computes False s.pop fun popped => Moved 1 0 s popped.2 := by
  unfold pop
  cases stack : s.operands with
  | nil => simp [stack] at some
  | cons value rest => exact ⟨by simp [stack], rfl, rfl, rfl⟩

theorem popN_computes {s : Emission} {n : Nat} (enough : n ≤ s.operands.length) :
    Computes False (s.popN n) fun popped => popped.1.length = n ∧ Moved n 0 s popped.2 := by
  unfold popN
  rw [if_neg (by omega)]
  exact ⟨by simp [enough], by simp [enough], rfl, rfl, rfl⟩

theorem roll_computes {s : Emission} {depth : Nat} (enough : depth < s.operands.length) :
    Computes False (s.roll depth) (Moved (depth + 1) (depth + 1) s) := by
  unfold roll
  rw [List.getElem?_eq_getElem enough]
  refine ⟨?_, rfl, rfl, rfl⟩
  simp only [List.length_cons, List.length_eraseIdx, if_pos enough]
  omega

theorem payload_computes {s : Emission} (inside : s.context.loops ≠ []) :
    Computes False s.payload fun named => Moved 0 0 s named.2 := by
  unfold payload
  cases around : s.frames with
  | nil => simp [context, around] at inside
  | cons frame frames =>
    have named := s.tmp_moved "payload"
    cases asked : frame.captures.payload with
    | some name =>
      simp only [asked, pure_eq_ok, Computes.ok]
      exact .refl s
    | none =>
      simp only [asked, pure_eq_ok, Computes.ok]
      refine ⟨named.count, named.params, named.blocks, ?_⟩
      rw [around]
      rfl

theorem setLoopCaptures_bare (captures : Captures) (frames : List Frame) :
    (setLoopCaptures captures frames).map Frame.bare = frames.map Frame.bare := by
  induction frames with
  | nil => rfl
  | cons frame rest ih =>
    rw [setLoopCaptures]
    split
    · rfl
    · rw [List.map_cons, List.map_cons, ih]

theorem loopFrame_computes {s : Emission} (inside : true ∈ s.context.loops) :
    Computes False s.loopFrame fun _ => True := by
  unfold loopFrame
  cases found : s.frames.find? (·.loop) with
  | some frame => trivial
  | none =>
    obtain ⟨frame, member, loop⟩ := List.mem_map.mp inside
    have plain := List.find?_eq_none.mp found frame member
    exact absurd loop plain

theorem item_computes {s : Emission} (inside : true ∈ s.context.loops) :
    Computes False s.item fun named => Moved 0 0 s named.2 := by
  refine (loopFrame_computes inside).bind fun frame _ => ?_
  cases frame.captures.item with
  | some name =>
    simp only [pure_eq_ok, Computes.ok]
    exact .refl s
  | none =>
    simp only [pure_eq_ok, Computes.ok]
    have named := s.tmp_moved "elem"
    exact ⟨named.count, named.params, named.blocks, (setLoopCaptures_bare _ _).trans named.frames⟩

theorem base_computes {s : Emission} (inside : true ∈ s.context.loops) :
    Computes False s.base fun named => Moved 0 0 s named.2 := by
  refine (loopFrame_computes inside).bind fun frame _ => ?_
  cases frame.captures.base with
  | some name =>
    simp only [pure_eq_ok, Computes.ok]
    exact .refl s
  | none =>
    simp only [pure_eq_ok, Computes.ok]
    have named := (s.tmp_moved "base").trans ((s.tmp "base").2.tmp_moved "index")
    exact ⟨named.count, named.params, named.blocks, (setLoopCaptures_bare _ _).trans named.frames⟩

end

/-- Code is emitted wherever the context allows it and its operands are there. -/
def Emits (setting : Setting) (given : Context → Prop) (code : List Instruction)
    (takes gives : Nat) : Prop :=
  ∀ s : Emission, given s.context → takes ≤ s.operands.length →
    Computes False (emitAll setting code s) (Moved takes gives s)

theorem emitAll_append (setting : Setting) (first second : List Instruction) (s : Emission) :
    emitAll setting (first ++ second) s = emitAll setting first s >>= emitAll setting second :=
  List.foldlM_append

theorem emitAll_single (setting : Setting) (inst : Instruction) (s : Emission) :
    emitAll setting [inst] s = emit setting inst s := by
  simp only [emitAll, List.foldlM_cons, List.foldlM_nil, bind_pure]

namespace Emits

variable {setting : Setting} {given wider : Context → Prop} {first second : List Instruction}
  {takes gives more others : Nat}

theorem nil : Emits setting given [] 0 0 := fun s _ _ => .refl s

theorem single {inst : Instruction}
    (emitted : ∀ s : Emission, given s.context → takes ≤ s.operands.length →
      Computes False (emit setting inst s) (Moved takes gives s)) :
    Emits setting given [inst] takes gives := fun s fits enough => by
  rw [emitAll_single]
  exact emitted s fits enough

theorem cast (emits : Emits setting given first takes gives) (same : takes + others = more + gives)
    (le : takes ≤ more) : Emits setting given first more others := fun s fits enough =>
  (emits s fits (by omega)).mono fun _ moved => moved.cast same

theorem append (left : Emits setting given first takes gives)
    (right : Emits setting given second more others) :
    Emits setting given (first ++ second) (takes + (more - gives)) (others + (gives - more)) :=
  fun s fits enough => by
    rw [emitAll_append]
    refine (left s fits (by omega)).bind fun middle moved => ?_
    have count := moved.count
    refine (right middle (by rwa [moved.context]) (by omega)).mono fun s' also => ?_
    exact (moved.trans also).cast (by omega)

theorem weaken (emits : Emits setting wider first takes gives) (wide : ∀ c, given c → wider c) :
    Emits setting given first takes gives := fun s fits => emits s (wide _ fits)

end Emits

end Emission

end ZigBindings
