import ZigBindings.Emission.Emit
import ZigBindings.Proofs.Emission.Fresh
import ZigBindings.Proofs.Outcome
import ZigBindings.Proofs.Zig.Scoping

/-! How names flow through an emission. Between two states some statements are written; what they
mention is in scope, no operand is lost between them, and the names that they declare are handed
out for them. -/

namespace ZigBindings
open Zig

/-- The names that a block has asked for. -/
def Captures.names (captures : Captures) : List String :=
  captures.payload.toList ++ captures.item.toList ++ captures.base.toList ++ captures.index.toList

namespace Emission
open Zig.Expr Zig.Stmt

/-- Frames stay as they are, but the innermost loop may have come to know where its elements begin. -/
inductive Deepens : List Frame → List Frame → Prop where
  | refl (frames : List Frame) : Deepens frames frames
  | based {frame : Frame} (rest : List Frame) (base index : String) (loop : frame.loop = true)
    (unknown : frame.captures.base = none) :
    Deepens (frame :: rest)
      ({ frame with captures := { frame.captures with base := some base, index := some index } } :: rest)
  | past {frame : Frame} {rest rest' : List Frame} (flat : frame.loop = false)
    (behind : Deepens rest rest') : Deepens (frame :: rest) (frame :: rest')

/-- The name of the place where the elements of the innermost loop begin, if it is known. -/
def loopBase (frames : List Frame) : List String :=
  ((frames.find? (·.loop)).bind (·.captures.base)).toList

theorem loopBase_loop {frame : Frame} (loop : frame.loop = true) (rest : List Frame) :
    loopBase (frame :: rest) = frame.captures.base.toList := by
  rw [loopBase, List.find?_cons_of_pos (by exact loop)]
  rfl

theorem loopBase_flat {frame : Frame} (flat : frame.loop = false) (rest : List Frame) :
    loopBase (frame :: rest) = loopBase rest := by
  rw [loopBase, List.find?_cons_of_neg (by simp [flat]), loopBase]

namespace Deepens

variable {frames frames' frames'' : List Frame}

theorem loopBase_subset (deepens : Deepens frames frames') : loopBase frames ⊆ loopBase frames' := by
  induction deepens with
  | refl => exact fun _ => id
  | based rest base index loop unknown =>
    rw [loopBase_loop loop, unknown]
    exact List.nil_subset _
  | past flat _ ih => rwa [loopBase_flat flat, loopBase_flat flat]

theorem trans (first : Deepens frames frames') (second : Deepens frames' frames'') :
    Deepens frames frames'' := by
  induction first generalizing frames'' with
  | refl => exact second
  | based rest base index loop unknown =>
    cases second with
    | refl => exact .based rest base index loop unknown
    | based _ _ _ _ again => cases again
    | past flat => exact absurd (flat : _ = false) (by simp [loop])
  | past flat behind ih =>
    cases second with
    | refl => exact .past flat behind
    | based _ _ _ loop => exact absurd loop (by simp [flat])
    | past _ further => exact .past flat (ih further)

theorem of_flat {frame : Frame} {rest : List Frame} (flat : frame.loop = false)
    (deepens : Deepens (frame :: rest) frames') :
    ∃ rest', frames' = frame :: rest' ∧ Deepens rest rest' := by
  cases deepens with
  | refl => exact ⟨rest, rfl, .refl rest⟩
  | based _ _ _ loop => exact absurd loop (by simp [flat])
  | past _ behind => exact ⟨_, rfl, behind⟩

theorem of_loop {frame : Frame} {rest : List Frame} (loop : frame.loop = true)
    (deepens : Deepens (frame :: rest) frames') :
    ∃ captures, frames' = { frame with captures } :: rest ∧
      captures.payload = frame.captures.payload ∧ captures.item = frame.captures.item ∧
      (captures = frame.captures ∨ captures.base.isSome ∧ captures.index.isSome) := by
  cases deepens with
  | refl => exact ⟨frame.captures, rfl, rfl, rfl, .inl rfl⟩
  | based _ base index => exact ⟨_, rfl, rfl, rfl, .inr ⟨rfl, rfl⟩⟩
  | past flat => exact absurd loop (by simp [flat])

end Deepens

def areas (s : Emission) : List String := (s.paramArea.toList ++ s.returnArea.toList).map (·.name)

theorem SameCode.areas {s s' : Emission} (same : SameCode s s') : s'.areas = s.areas := by
  rw [Emission.areas, Emission.areas, same.paramArea, same.returnArea]

/-- The names that are handed out and not yet declared by a statement. -/
def held (s : Emission) : List String := s.areas ++ s.frames.flatMap (·.captures.names)

end Emission

def Block.locals (block : Block) : List String :=
  Stmt.localsAll block.body ++ block.captures.names

def Block.said (block : Block) : List String :=
  Stmt.mentionsAll block.body ++ Expr.namesAll block.results

/-- Wherever all of these names and the block's captures are in scope, so is what the block mentions. -/
def Block.Fits (around : List String) (block : Block) : Prop :=
  ∀ wider, around ⊆ wider → block.captures.names ⊆ wider →
    Stmt.ScopedAll wider block.body ∧
      Expr.namesAll block.results ⊆ wider ++ Stmt.declaredAll block.body

structure Block.Spent (block : Block) : Prop where
  captures : block.captures.payload.toList ++ block.captures.item.toList ++
    block.captures.base.toList ⊆ block.said
  body : Stmt.SpentAll (Expr.namesAll block.results) block.body

theorem Block.Fits.mono {around wider : List String} {block : Block} (fits : block.Fits around)
    (wide : around ⊆ wider) : block.Fits wider :=
  fun widest inside => fits widest fun _ member => inside (wide member)

namespace Emission
open Zig.Expr Zig.Stmt

/-- What the blocks in hand and the operands on the stack mention. -/
def pending (hand : List Block) (s : Emission) : List String :=
  hand.flatMap Block.said ++ namesAll s.operands

/-- No operand is lost: it is mentioned by a statement or by what is still pending, and so are the
names of new areas, of the loop's base and of what was asked for. Declared names are mentioned in
turn. -/
structure Spends (s s' : Emission) (asked : List String) (hand : List Block) (written : List Stmt) :
    Prop where
  operands : namesAll s.operands ⊆ mentionsAll written ++ pending hand s'
  areas : s'.areas ⊆ s.areas ++ (mentionsAll written ++ pending hand s')
  base : loopBase s'.frames ⊆ loopBase s.frames ++ (mentionsAll written ++ pending hand s')
  asked : asked ⊆ mentionsAll written ++ pending hand s'
  spent : SpentAll (pending hand s') written
  hand : ∀ block ∈ hand, block.Spent

/-- What comes to pass with names between two states of an emission. Statements are written, a block
is asked for some names, and some closed blocks are in hand that no statement contains yet. -/
structure Course (firm options : Prop) (s s' : Emission) (asked : List String) (hand : List Block)
    (written : List Stmt) : Prop where
  body : s'.body = s.body ++ written
  params : s'.params = s.params
  areas : s.areas ⊆ s'.areas
  base : loopBase s.frames ⊆ loopBase s'.frames
  named : ∃ names, Hands options s s' names ∧
    ∀ x, (hand.flatMap Block.locals ++ localsAll written ++ s'.held).count x ≤
      (s.held ++ names).count x
  visible : ∀ around, s.params ⊆ around → s'.areas ⊆ around → loopBase s'.frames ⊆ around →
    asked ⊆ around → namesAll s.operands ⊆ around →
      ScopedAll around written ∧ namesAll s'.operands ⊆ around ++ declaredAll written ∧
        ∀ block ∈ hand, block.Fits (around ++ declaredAll written)
  spends : firm → Spends s s' asked hand written

/-- A course that asks for no names but the loop's base, and that leaves no block in hand. -/
structure Flow (firm options : Prop) (s s' : Emission) (written : List Stmt) : Prop
    extends Course firm options s s' [] [] written where
  blocks : s'.blocks = s.blocks
  frames : Deepens s.frames s'.frames

section
variable {firm options : Prop} {s s' s'' : Emission} {asked more : List String}
  {hand others : List Block} {first second : List Stmt}

theorem Spends.carry (right : Spends s' s'' more others second) :
    mentionsAll first ++ pending hand s' ⊆
      mentionsAll (first ++ second) ++ pending (hand ++ others) s'' := by
  intro x member
  have later : x ∈ namesAll s'.operands → _ := fun operand => right.operands operand
  simp only [pending, mentionsAll_append, List.flatMap_append, List.mem_append] at member later ⊢
  tauto

theorem Spends.trans (left : Spends s s' asked hand first) (right : Spends s' s'' more others second) :
    Spends s s'' (asked ++ more) (hand ++ others) (first ++ second) := by
  have carried : mentionsAll first ++ pending hand s' ⊆ _ := right.carry
  have later : mentionsAll second ++ pending others s'' ⊆
      mentionsAll (first ++ second) ++ pending (hand ++ others) s'' := by
    intro x member
    simp only [pending, mentionsAll_append, List.flatMap_append, List.mem_append] at member ⊢
    tauto
  refine ⟨fun x member => carried (left.operands member), fun x member => ?_, fun x member => ?_,
    List.append_subset.mpr ⟨fun x member => carried (left.asked member),
      fun x member => later (right.asked member)⟩, ?_, ?_⟩
  · rcases List.mem_append.mp (right.areas member) with known | new
    · rcases List.mem_append.mp (left.areas known) with old | new
      · exact List.mem_append_left _ old
      · exact List.mem_append_right _ (carried new)
    · exact List.mem_append_right _ (later new)
  · rcases List.mem_append.mp (right.base member) with known | new
    · rcases List.mem_append.mp (left.base known) with old | new
      · exact List.mem_append_left _ old
      · exact List.mem_append_right _ (carried new)
    · exact List.mem_append_right _ (later new)
  · refine (left.spent.mono fun x member => ?_).append (right.spent.mono fun x member => ?_)
    · have through : mentionsAll [] ++ pending hand s' ⊆ _ := right.carry
      exact through member
    · simp only [pending, List.flatMap_append, List.mem_append] at member ⊢
      tauto
  · exact fun block member => (List.mem_append.mp member).elim (left.hand block) (right.hand block)

theorem Course.trans (left : Course firm options s s' asked hand first)
    (right : Course firm options s' s'' more others second) :
    Course firm options s s'' (asked ++ more) (hand ++ others) (first ++ second) where
  body := by rw [right.body, left.body, List.append_assoc]
  params := right.params.trans left.params
  areas _ member := right.areas (left.areas member)
  base _ member := right.base (left.base member)
  named := by
    obtain ⟨one, hands, fewer⟩ := left.named
    obtain ⟨two, also, less⟩ := right.named
    refine ⟨one ++ two, hands.trans also, fun x => ?_⟩
    have := fewer x
    have := less x
    simp only [localsAll_append, List.flatMap_append, List.count_append] at *
    omega
  visible around params areas base asks operands := by
    obtain ⟨scope, left_operands, left_hand⟩ := left.visible around params
      (fun x member => areas (right.areas member)) (fun x member => base (right.base member))
      (fun x member => asks (List.mem_append_left _ member)) operands
    have wider : around ⊆ around ++ declaredAll first := List.subset_append_left _ _
    obtain ⟨also, right_operands, right_hand⟩ := right.visible (around ++ declaredAll first)
      (fun x member => wider (params (left.params ▸ member)))
      (fun x member => wider (areas member)) (fun x member => wider (base member))
      (fun x member => wider (asks (List.mem_append_right _ member))) left_operands
    rw [declaredAll_append, ← List.append_assoc]
    refine ⟨scopedAll_append.mpr ⟨scope, also⟩, right_operands, fun block member => ?_⟩
    rcases List.mem_append.mp member with member | member
    · exact (left_hand block member).mono (List.subset_append_left _ _)
    · exact right_hand block member
  spends strict := (left.spends strict).trans (right.spends strict)

theorem Flow.refl (s : Emission) : Flow firm options s s [] where
  body := (List.append_nil _).symm
  params := rfl
  areas _ := id
  base _ := id
  named := ⟨[], .refl s, fun x => by simp⟩
  visible around _ _ _ _ operands := ⟨scopedAll_nil, by simpa using operands, by simp⟩
  spends _ := ⟨by simp [pending], by simp, by simp, by simp, spentAll_nil, by simp⟩
  blocks := rfl
  frames := .refl _

theorem Flow.trans (left : Flow firm options s s' first) (right : Flow firm options s' s'' second) :
    Flow firm options s s'' (first ++ second) where
  toCourse := left.toCourse.trans right.toCourse
  blocks := right.blocks.trans left.blocks
  frames := left.frames.trans right.frames

end

/-- Some operands on top are gone and others have come, while a body was written. Frames, closed
blocks and areas are as before. -/
structure Exchange (s s' : Emission) (taken given : List Expr) (written : List Stmt) : Prop where
  operands : ∃ below, s.operands = taken.reverse ++ below ∧ s'.operands = given.reverse ++ below
  body : s'.body = s.body ++ written
  params : s'.params = s.params
  blocks : s'.blocks = s.blocks
  frames : s'.frames = s.frames
  areas : s'.areas = s.areas

section
variable {s s' : Emission} {taken : List Expr} {written : List Stmt}

theorem SameCode.takes (same : SameCode s s') (taken : List Expr) :
    Exchange (s.pushAll taken) s' taken [] [] :=
  ⟨⟨s.operands, rfl, same.operands⟩, by rw [same.body, List.append_nil]; rfl, same.params, same.blocks,
    same.frames, same.areas⟩

theorem Exchange.writes (exchange : Exchange s s' taken [] written) (stmts : List Stmt) :
    Exchange s { s' with body := s'.body ++ stmts } taken [] (written ++ stmts) :=
  ⟨exchange.operands, by rw [exchange.body, List.append_assoc], exchange.params, exchange.blocks,
    exchange.frames, exchange.areas⟩

theorem Exchange.renames {s'' : Emission} (exchange : Exchange s s' taken [] written)
    (same : SameCode s' s'') : Exchange s s'' taken [] written := by
  obtain ⟨below, before, after⟩ := exchange.operands
  exact ⟨⟨below, before, same.operands.trans after⟩, same.body.trans exchange.body,
    same.params.trans exchange.params, same.blocks.trans exchange.blocks,
    same.frames.trans exchange.frames, same.areas.trans exchange.areas⟩

theorem Exchange.gives (exchange : Exchange s s' taken [] written) (given : List Expr) :
    Exchange s (s'.pushAll given) taken given written := by
  obtain ⟨below, before, after⟩ := exchange.operands
  exact ⟨⟨below, before, congrArg (given.reverse ++ ·) after⟩, exchange.body, exchange.params,
    exchange.blocks, exchange.frames, exchange.areas⟩

end

@[simp] theorem mem_namesAll_reverse {x : String} {values : List Expr} :
    x ∈ namesAll values.reverse ↔ x ∈ namesAll values := by
  simp [mem_namesAll]

/-- An exchange in which the body mentions what it takes, and gives what it declares. -/
theorem Exchange.flow {firm options : Prop} {s s' : Emission} {taken given : List Expr}
    {written : List Stmt} (exchange : Exchange s s' taken given written)
    (hands : Hands options s s' (localsAll written))
    (visible : ∀ around, s.params ⊆ around → namesAll taken ⊆ around →
      ScopedAll around written ∧ namesAll given ⊆ around ++ declaredAll written)
    (kept : namesAll taken ⊆ mentionsAll written ++ namesAll given)
    (spent : SpentAll (namesAll given) written) : Flow firm options s s' written := by
  obtain ⟨below, before, after⟩ := exchange.operands
  have old : ∀ x, x ∈ namesAll s.operands ↔ x ∈ namesAll taken ∨ x ∈ namesAll below := fun x => by
    rw [before, namesAll_append, List.mem_append, mem_namesAll_reverse]
  have new : ∀ x, x ∈ namesAll s'.operands ↔ x ∈ namesAll given ∨ x ∈ namesAll below := fun x => by
    rw [after, namesAll_append, List.mem_append, mem_namesAll_reverse]
  refine ⟨⟨exchange.body, exchange.params, ?_, ?_, ⟨_, hands, fun x => ?_⟩, ?_,
    fun _ => ⟨?_, ?_, ?_, List.nil_subset _, spent.mono fun x member => (new x).mpr (.inl member),
      by simp⟩⟩, exchange.blocks, ?_⟩
  · rw [exchange.areas]
    exact fun _ => id
  · rw [exchange.frames]
    exact fun _ => id
  · rw [held, held, exchange.areas, exchange.frames]
    simp only [List.flatMap_nil, List.nil_append, List.count_append]
    omega
  · intro around params _ _ _ operands
    obtain ⟨scope, inside⟩ := visible around params fun x member => operands ((old x).mpr (.inl member))
    refine ⟨scope, fun x member => ?_, by simp⟩
    rcases (new x).mp member with member | member
    · exact inside member
    · exact List.mem_append_left _ (operands ((old x).mpr (.inr member)))
  · intro x member
    rcases (old x).mp member with member | member
    · rcases List.mem_append.mp (kept member) with mention | left
      · exact List.mem_append_left _ mention
      · exact List.mem_append_right _ ((new x).mpr (.inl left))
    · exact List.mem_append_right _ ((new x).mpr (.inr member))
  · rw [exchange.areas]
    exact List.subset_append_left _ _
  · rw [exchange.frames]
    exact List.subset_append_left _ _
  · rw [exchange.frames]
    exact .refl _

end Emission

end ZigBindings
