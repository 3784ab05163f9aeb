import ZigBindings.Proofs.Emission.Plain

/-! Names and blocks. A block that is closed keeps to itself what its body declares and what it has
asked for, until a statement contains it. -/

namespace ZigBindings.Emission
open Zig Zig.Expr Zig.Stmt

/-- The state right inside a block that has just been opened. -/
def opened (t : Emission) (moved : List Expr) (loop : Bool) : Emission :=
  { t with
    frames := { outerOperands := t.operands, outerBody := t.body, loop } :: t.frames
    operands := moved.reverse
    body := [] }

def closed (t e : Emission) (rest : List Frame) (block : Block) : Emission :=
  { e with frames := rest, blocks := block :: e.blocks, operands := t.operands, body := t.body }

theorem beginBlock_ok {s b : Emission} {inputs : Nat} {loop : Bool}
    (done : s.beginBlock inputs loop = .ok b) :
    ∃ (moved : List Expr) (t : Emission), moved.length = inputs ∧ s = t.pushAll moved ∧
      b = t.opened moved loop := by
  simp only [beginBlock, bind_eq_ok, Prod.exists, popN_eq_ok, pure_eq_ok, Except.ok.injEq] at done
  obtain ⟨moved, t, ⟨length, same⟩, rfl⟩ := done
  exact ⟨moved, t, length, same, rfl⟩

theorem endBlock_ok {t e s' : Emission} {results : Nat} {loop : Bool} {captures : Captures}
    {rest : List Frame} (frames : e.frames = ⟨t.operands, t.body, loop, captures⟩ :: rest)
    (done : e.endBlock results = .ok s') :
    s' = t.closed e rest ⟨e.body, e.operands.reverse, loop, captures⟩ := by
  rw [endBlock, frames] at done
  dsimp only at done
  split at done
  case isTrue => cases done
  case isFalse =>
    cases done
    rfl

section
variable {firm options : Prop} {s t e u v : Emission} {moved : List Expr}
  {captures : Captures} {rest : List Frame} {asked names : List String} {hand : List Block}
  {before : List Stmt}

section
variable {loop : Bool} {written : List Stmt}
  (course : Course firm options (t.opened moved loop) e asked [] written)
  (frames : e.frames = ⟨t.operands, t.body, loop, captures⟩ :: rest)
include course

theorem Course.said : mentionsAll written ++ pending [] e ⊆
    (Block.mk e.body e.operands.reverse loop captures).said := fun x member => by
  have body : e.body = written := course.body
  simpa [Block.said, body, pending] using member

include frames

theorem Course.close_named : ∃ names,
    Hands options (t.pushAll moved) (t.closed e rest ⟨e.body, e.operands.reverse, loop, captures⟩) names ∧
    ∀ x, ((Block.mk e.body e.operands.reverse loop captures).locals ++
        (t.closed e rest ⟨e.body, e.operands.reverse, loop, captures⟩).held).count x ≤
      ((t.pushAll moved).held ++ names).count x := by
  obtain ⟨names, hands, fewer⟩ := course.named
  have body : e.body = written := course.body
  have start : (t.opened moved loop).held = (t.pushAll moved).held := rfl
  have stop : e.held = e.areas ++ (captures.names ++ rest.flatMap (·.captures.names)) := by
    rw [held, frames, List.flatMap_cons]
  have behind : (t.closed e rest ⟨e.body, e.operands.reverse, loop, captures⟩).held =
    e.areas ++ rest.flatMap (·.captures.names) := rfl
  refine ⟨names, hands.congr rfl rfl, fun x => ?_⟩
  have less := fewer x
  rw [start, stop] at less
  rw [behind]
  simp only [Block.locals, body, List.flatMap_nil, List.nil_append, List.count_append] at less ⊢
  omega

theorem Course.close_fits (asks : captures.payload.toList ++ captures.item.toList = asked)
    {around : List String} (params : t.params ⊆ around) (areas : e.areas ⊆ around)
    (base : loopBase rest ⊆ around) (operands : namesAll moved.reverse ⊆ around) :
    (Block.mk e.body e.operands.reverse loop captures).Fits around := by
  intro wider wide inside
  have body : e.body = written := course.body
  have within : around ⊆ wider := fun x member => wide member
  have inner : loopBase e.frames ⊆ captures.base.toList ++ loopBase rest := by
    cases loop with
    | true => simp [frames, loopBase_loop]
    | false => simp [frames, loopBase_flat]
  have elements : loopBase e.frames ⊆ wider := fun x member => by
    rcases List.mem_append.mp (inner member) with element | outer
    · exact inside (by simp only [Captures.names, List.mem_append]; tauto)
    · exact within (base outer)
  have asked_names : asked ⊆ captures.names := fun x member => by
    simp only [← asks, Captures.names, List.mem_append] at member ⊢
    tauto
  obtain ⟨scope, left, _⟩ := course.visible wider (fun x member => within (params member))
    (fun x member => within (areas member)) elements
    (fun x member => inside (asked_names member)) fun x member => within (operands member)
  rw [body]
  exact ⟨scope, fun x member => left (mem_namesAll_reverse.mp member)⟩

theorem Course.close_spent (strict : firm) (flat : loop = false → captures.base = none)
    (asks : captures.payload.toList ++ captures.item.toList = asked) :
    (Block.mk e.body e.operands.reverse loop captures).Spent := by
  have kept := course.spends strict
  have body : e.body = written := course.body
  refine ⟨List.append_subset.mpr ⟨?_, fun x member => ?_⟩, ?_⟩
  · rw [asks]
    exact fun x member => course.said (kept.asked member)
  · cases loop with
    | true =>
      have element := kept.base
      rw [frames, loopBase_loop rfl, opened, loopBase_loop rfl] at element
      exact course.said (element member)
    | false => simp [flat rfl] at member
  · refine body ▸ kept.spent.mono fun x member => ?_
    simpa [pending] using member

theorem Course.close_spends (strict : firm) (own : loop = true → rest = t.frames)
    (flat : loop = false → captures.base = none)
    (asks : captures.payload.toList ++ captures.item.toList = asked) :
    Spends (t.pushAll moved) (t.closed e rest ⟨e.body, e.operands.reverse, loop, captures⟩) []
      [⟨e.body, e.operands.reverse, loop, captures⟩] [] := by
  have kept := course.spends strict
  have known : mentionsAll written ++ pending [] e ⊆ mentionsAll [] ++ pending
      [⟨e.body, e.operands.reverse, loop, captures⟩]
      (t.closed e rest ⟨e.body, e.operands.reverse, loop, captures⟩) := fun x member => by
    simp [pending, course.said member]
  refine ⟨fun x member => ?_, fun x member => ?_, ?_, List.nil_subset _, spentAll_nil,
    fun block member => ?_⟩
  · rcases List.mem_append.mp (namesAll_append _ _ ▸ member) with gone | below
    · exact known (kept.operands gone)
    · exact List.mem_append_right _ (List.mem_append_right _ below)
  · exact (List.mem_append.mp (kept.areas member)).elim (List.mem_append_left _)
      fun new => List.mem_append_right _ (known new)
  · cases loop with
    | true =>
      obtain rfl := own rfl
      exact List.subset_append_left _ _
    | false =>
      intro x member
      have outer := kept.base
      rw [frames, loopBase_flat rfl, opened, loopBase_flat rfl] at outer
      exact (List.mem_append.mp (outer member)).elim (List.mem_append_left _)
        fun new => List.mem_append_right _ (known new)
  · obtain rfl := List.mem_singleton.mp member
    exact course.close_spent frames strict flat asks

/-- A block that is closed comes into hand. A loop leaves the frames around it alone, and a block that
is no loop has no elements. -/
theorem Course.close (behind : Deepens t.frames rest) (own : loop = true → rest = t.frames)
    (flat : loop = false → captures.base = none)
    (asks : captures.payload.toList ++ captures.item.toList = asked) :
    Course firm options (t.pushAll moved) (t.closed e rest ⟨e.body, e.operands.reverse, loop, captures⟩)
      [] [⟨e.body, e.operands.reverse, loop, captures⟩] [] := by
  refine ⟨(List.append_nil _).symm, course.params, course.areas, behind.loopBase_subset, ?_, ?_,
    fun strict => course.close_spends frames strict own flat asks⟩
  · simpa using course.close_named frames
  · intro around params areas base _ operands
    have moved_names : namesAll moved.reverse ⊆ around ∧ namesAll t.operands ⊆ around := by
      simpa [pushAll] using operands
    refine ⟨scopedAll_nil, List.subset_append_of_subset_left _ moved_names.2, fun block member => ?_⟩
    obtain rfl := List.mem_singleton.mp member
    rw [declaredAll_nil, List.append_nil]
    exact course.close_fits frames asks params areas base moved_names.1

end

structure Encloses (firm options : Prop) (s s' : Emission) (block : Block) : Prop
    extends Course firm options s s' [] [block] [] where
  blocks : s'.blocks = block :: s.blocks
  frames : Deepens s.frames s'.frames

/-- Blocks have been taken from the stack for a statement that is about to contain them. -/
structure Holds (firm options : Prop) (s u : Emission) (hand : List Block) (before : List Stmt) : Prop
    extends Course firm options s u [] hand before where
  blocks : u.blocks = s.blocks
  frames : Deepens s.frames u.frames

theorem drop_course (s : Emission) (blocks : List Block) :
    Course firm options s { s with blocks } [] [] [] := by
  have course : Course firm options s s [] [] [] := (Flow.refl s).toCourse
  refine ⟨course.body, course.params, course.areas, course.base, ?_, course.visible, fun strict => ?_⟩
  · obtain ⟨names, hands, fewer⟩ := course.named
    exact ⟨names, hands.congr rfl rfl, fewer⟩
  · have spends := course.spends strict
    exact ⟨spends.operands, spends.areas, spends.base, spends.asked, spends.spent, spends.hand⟩

theorem Encloses.holds {s' : Emission} {block : Block} (encloses : Encloses firm options s s' block) :
    Holds firm options s { s' with blocks := s.blocks } [block] [] :=
  ⟨encloses.toCourse.trans (drop_course s' s.blocks), rfl, encloses.frames⟩

theorem Encloses.holds_both {s' s'' : Emission} {absent present : Block}
    (first : Encloses firm options s s' absent) (second : Encloses firm options s' s'' present) :
    Holds firm options s { s'' with blocks := s.blocks } [absent, present] [] :=
  ⟨(first.toCourse.trans second.toCourse).trans (drop_course s'' s.blocks), rfl,
    first.frames.trans second.frames⟩

theorem Holds.flow {written : List Stmt} (holds : Holds firm options s u hand before)
    (flow : Flow firm options u v written) : Holds firm options s v hand (before ++ written) := by
  have course := holds.toCourse.trans flow.toCourse
  rw [List.append_nil, List.append_nil] at course
  exact ⟨course, flow.blocks.trans holds.blocks, holds.frames.trans flow.frames⟩

/-- What is in hand is put into statements, which then mention and declare what it does. -/
theorem Holds.consume (holds : Holds firm options s u hand before) (taken given : List Expr)
    (written : List Stmt)
    (exchange : Exchange u v taken given written) (hands : Hands options u v names)
    (counts : ∀ x, (localsAll written).count x ≤ (hand.flatMap Block.locals ++ names).count x)
    (visible : ∀ around, (∀ block ∈ hand, block.Fits around) → namesAll taken ⊆ around →
      ScopedAll around written ∧ namesAll given ⊆ around ++ declaredAll written)
    (kept : firm → hand.flatMap Block.said ++ namesAll taken ⊆ mentionsAll written ++ namesAll given)
    (spent : firm → (∀ block ∈ hand, block.Spent) → SpentAll (namesAll given) written) :
    Flow firm options s v (before ++ written) := by
  have course := holds.toCourse
  obtain ⟨below, operands, left⟩ := exchange.operands
  have old : ∀ x, x ∈ namesAll u.operands ↔ x ∈ namesAll taken ∨ x ∈ namesAll below := fun x => by
    rw [operands, namesAll_append, List.mem_append, mem_namesAll_reverse]
  have new : ∀ x, x ∈ namesAll v.operands ↔ x ∈ namesAll given ∨ x ∈ namesAll below := fun x => by
    rw [left, namesAll_append, List.mem_append, mem_namesAll_reverse]
  refine ⟨⟨?_, exchange.params.trans course.params, ?_, ?_, ?_, ?_, fun strict => ?_⟩,
    exchange.blocks.trans holds.blocks, exchange.frames ▸ holds.frames⟩
  · rw [exchange.body, course.body, List.append_assoc]
  · rw [exchange.areas]
    exact course.areas
  · rw [exchange.frames]
    exact course.base
  · obtain ⟨one, first, fewer⟩ := course.named
    refine ⟨one ++ names, first.trans hands, fun x => ?_⟩
    have := fewer x
    have := counts x
    rw [held, exchange.areas, exchange.frames, ← held]
    simp only [localsAll_append, List.flatMap_nil, List.nil_append, List.count_append] at *
    omega
  · intro around params areas base _ start
    rw [exchange.areas] at areas
    rw [exchange.frames] at base
    obtain ⟨scope, around_operands, fits⟩ := course.visible around params areas base
      (List.nil_subset _) start
    obtain ⟨also, inside⟩ := visible _ fits fun x member => around_operands ((old x).mpr (.inl member))
    refine ⟨scopedAll_append.mpr ⟨scope, also⟩, fun x member => ?_, by simp⟩
    rw [declaredAll_append, ← List.append_assoc]
    rcases (new x).mp member with member | member
    · exact inside member
    · exact List.mem_append_left _ (around_operands ((old x).mpr (.inr member)))
  · have spends := course.spends strict
    have through : pending hand u ⊆ mentionsAll written ++ pending [] v := by
      intro x member
      simp only [pending, List.mem_append, old, new, List.flatMap_nil, List.nil_append] at member ⊢
      have moved := kept strict (a := x)
      simp only [List.mem_append] at moved
      tauto
    have carry : mentionsAll before ++ pending hand u ⊆
        mentionsAll (before ++ written) ++ pending [] v := by
      intro x member
      rw [mentionsAll_append, List.append_assoc]
      exact (List.mem_append.mp member).elim (List.mem_append_left _)
        fun later => List.mem_append_right _ (through later)
    refine ⟨fun x member => carry (spends.operands member), fun x member => ?_, fun x member => ?_,
      List.nil_subset _, (spends.spent.mono through).append
        ((spent strict spends.hand).mono fun x member => (new x).mpr (.inl member)), by simp⟩
    · rw [exchange.areas] at member
      exact (List.mem_append.mp (spends.areas member)).elim (List.mem_append_left _)
        fun new => List.mem_append_right _ (carry new)
    · rw [exchange.frames] at member
      exact (List.mem_append.mp (spends.base member)).elim (List.mem_append_left _)
        fun new => List.mem_append_right _ (carry new)

theorem ask_course (stem : String) (clear : Stem stem) (captures : Captures) {frame : Frame}
    {outer : List Frame} (frames : s.frames = frame :: outer) (base : captures.base = frame.captures.base)
    (asked : ∀ x, captures.names.count x ≤ (frame.captures.names ++ [(s.tmp stem).1]).count x)
    (asks : v = { (s.tmp stem).2 with frames := { frame with captures } :: outer }) :
    Course firm options s (v.push (.name (s.tmp stem).1)) [(s.tmp stem).1] [] [] := by
  have elements : loopBase v.frames = loopBase s.frames := by
    rw [asks, frames]
    cases loop : frame.loop with
    | true => rw [loopBase_loop rfl, loopBase_loop loop, base]
    | false => rw [loopBase_flat rfl, loopBase_flat loop]
  have same := s.tmp_same stem
  have body : v.body = s.body := by rw [asks]; exact same.body
  have params : v.params = s.params := by rw [asks]; exact same.params
  have operands : v.operands = s.operands := by rw [asks]; exact same.operands
  have areas : v.areas = s.areas := by rw [asks]; exact same.areas
  have used : v.used = (s.tmp stem).2.used := by rw [asks]
  have held : v.held = s.areas ++ (captures.names ++ outer.flatMap (·.captures.names)) := by
    rw [held, areas, asks, List.flatMap_cons]
  refine ⟨by simp [push, body], params, areas.symm ▸ fun _ => id, elements.symm ▸ fun _ => id,
    ⟨_, (s.tmp_hands stem clear).congr rfl used, fun x => ?_⟩, fun around _ _ _ known start => ?_,
    fun _ => ⟨?_, ?_, ?_, ?_, spentAll_nil, by simp⟩⟩
  · have more := asked x
    have before : s.held = s.areas ++ (frame.captures.names ++ outer.flatMap (·.captures.names)) := by
      rw [Emission.held, frames, List.flatMap_cons]
    have after : (v.push (.name (s.tmp stem).1)).held = v.held := rfl
    rw [after, held, before]
    simp only [List.flatMap_nil, localsAll_nil, List.nil_append, List.count_append] at more ⊢
    omega
  · refine ⟨scopedAll_nil, ?_, by simp⟩
    rw [push, namesAll_cons, names_name, operands, declaredAll_nil, List.append_nil]
    exact List.append_subset.mpr ⟨known, start⟩
  · simp [pending, push, operands]
  · exact fun x member => List.mem_append_left _ (areas ▸ member)
  · exact fun x member => List.mem_append_left _ (elements ▸ member)
  · simp [pending, push]

end

end ZigBindings.Emission
