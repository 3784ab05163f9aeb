import ZigBindings.Proofs.Emission.Surroundings
import ZigBindings.Proofs.Emission.Weaving
import ZigBindings.Proofs.Zig.Pages

/-! Blocks keep to themselves. Whatever balanced code stands between the brackets, the block takes its
operands from the top of the stack, and what lies below them, the text around the block and the open
blocks are found again behind it. -/

namespace ZigBindings

/-- A loop still knows the names that it knew, and it may have been asked for others. -/
structure Captures.Filled (captures later : Captures) : Prop where
  payload : later.payload = captures.payload
  item : ∀ name, captures.item = some name → later.item = some name
  base : later.base = captures.base ∧ later.index = captures.index ∨
    captures.base = none ∧ later.base.isSome ∧ later.index.isSome

namespace Captures.Filled

theorem refl (captures : Captures) : captures.Filled captures := ⟨rfl, fun _ => id, .inl ⟨rfl, rfl⟩⟩

theorem trans {captures later last : Captures} (first : captures.Filled later) (second : later.Filled last) :
    captures.Filled last := by
  refine ⟨second.payload.trans first.payload, fun name known => second.item name (first.item name known), ?_⟩
  rcases first.base with ⟨base, index⟩ | ⟨unknown, base, index⟩
  · rw [← base, ← index]
    exact second.base
  · rcases second.base with ⟨base', index'⟩ | ⟨_, last⟩
    · exact .inr ⟨unknown, base' ▸ base, index' ▸ index⟩
    · exact .inr ⟨unknown, last⟩

end Captures.Filled

namespace Emission
open Zig Instruction
open Machine (Balanced isBracket)

/-- The innermost loop may have been asked for names; nothing else differs. -/
inductive Fills : List Frame → List Frame → Prop where
  | none : Fills [] []
  | loop {frame : Frame} {captures : Captures} (rest : List Frame) (loop : frame.loop = true)
    (filled : frame.captures.Filled captures) : Fills (frame :: rest) ({ frame with captures } :: rest)
  | past {frame : Frame} {rest rest' : List Frame} (flat : frame.loop = false)
    (behind : Fills rest rest') : Fills (frame :: rest) (frame :: rest')

/-- Code may fill in any names of the block that it stands in, and names of the innermost loop. -/
inductive Asks : List Frame → List Frame → Prop where
  | none : Asks [] []
  | own {frame : Frame} {rest rest' : List Frame} (captures : Captures) (behind : Fills rest rest')
    (inside : frame.loop = true → rest' = rest) : Asks (frame :: rest) ({ frame with captures } :: rest')

variable {frames frames' frames'' : List Frame}

theorem Fills.refl (frames : List Frame) : Fills frames frames := by
  induction frames with
  | nil => exact .none
  | cons frame rest ih =>
    by_cases loop : frame.loop = true
    · exact .loop rest loop (.refl _)
    · exact .past (Bool.eq_false_of_not_eq_true loop) ih

theorem Fills.trans (first : Fills frames frames') (second : Fills frames' frames'') : Fills frames frames'' := by
  induction first generalizing frames'' with
  | none => exact second
  | loop rest loop filled =>
    cases second with
    | loop _ _ more => exact .loop rest loop (filled.trans more)
    | past flat _ => exact absurd (loop.symm.trans flat) nofun
  | past flat _ ih =>
    cases second with
    | loop _ loop _ => exact absurd (loop.symm.trans flat) nofun
    | past _ further => exact .past flat (ih further)

theorem Fills.asks (fills : Fills frames frames') : Asks frames frames' := by
  cases fills with
  | none => exact .none
  | loop rest _ _ => exact .own _ (.refl rest) fun _ => rfl
  | past flat behind => exact .own _ behind fun loop => absurd (loop.symm.trans flat) nofun

theorem Asks.trans (first : Asks frames frames') (second : Asks frames' frames'') : Asks frames frames'' := by
  cases first with
  | none => exact second
  | own captures behind inside =>
    cases second with
    | own later further within =>
      exact .own later (behind.trans further) fun loop => (within loop).trans (inside loop)

theorem Asks.of_cons {frame : Frame} {rest : List Frame} (asks : Asks (frame :: rest) frames') :
    ∃ captures rest', frames' = { frame with captures } :: rest' ∧ Fills rest rest' ∧
      (frame.loop = true → rest' = rest) := by
  cases asks with
  | own captures behind inside => exact ⟨captures, _, rfl, behind, inside⟩

theorem setLoopCaptures_fills {frame : Frame} {captures : Captures}
    (found : frames.find? (·.loop) = some frame) (filled : frame.captures.Filled captures) :
    Fills frames (setLoopCaptures captures frames) := by
  induction frames with
  | nil => cases found
  | cons head rest ih =>
    rw [setLoopCaptures]
    by_cases loop : head.loop = true
    · rw [List.find?_cons_of_pos (by exact loop)] at found
      cases found
      rw [if_pos loop]
      exact .loop rest loop filled
    · rw [List.find?_cons_of_neg (by exact loop)] at found
      rw [if_neg loop]
      exact .past (Bool.eq_false_of_not_eq_true loop) (ih found)

variable {setting : Setting} {s s' t : Emission} {inst : Instruction} {code rest : List Instruction}
  {inputs results : Nat} {loop : Bool}

theorem loopFrame_ok {frame : Frame} (done : s.loopFrame = .ok frame) : s.frames.find? (·.loop) = some frame := by
  unfold loopFrame at done
  split at done
  · cases done
  · rename_i found
    cases done
    exact found

theorem payload_asks {name : String} (done : s.payload = .ok (name, t)) : Asks s.frames t.frames := by
  unfold payload at done
  cases around : s.frames with
  | nil =>
    rw [around] at done
    cases done
  | cons frame rest =>
    rw [around] at done
    dsimp only at done
    split at done
    · cases done
      rw [around]
      exact (Fills.refl _).asks
    · cases done
      exact .own _ (.refl rest) fun _ => rfl

theorem item_fills {name : String} (done : s.item = .ok (name, t)) : Fills s.frames t.frames := by
  obtain ⟨frame, found, done⟩ := bind_eq_ok.mp done
  split at done
  · cases done
    exact .refl _
  · rename_i unasked
    obtain ⟨-, rfl⟩ := Prod.mk.inj (Except.ok.inj done)
    change Fills s.frames (setLoopCaptures _ (s.tmp "elem").2.frames)
    rw [(s.tmp_same "elem").frames]
    refine setLoopCaptures_fills (loopFrame_ok found) ⟨rfl, fun name known => ?_, .inl ⟨rfl, rfl⟩⟩
    rw [unasked] at known
    cases known

theorem base_fills {name : String} (done : s.base = .ok (name, t)) : Fills s.frames t.frames := by
  obtain ⟨frame, found, done⟩ := bind_eq_ok.mp done
  split at done
  · cases done
    exact .refl _
  · rename_i unknown
    obtain ⟨-, rfl⟩ := Prod.mk.inj (Except.ok.inj done)
    change Fills s.frames (setLoopCaptures _ ((s.tmp "base").2.tmp "index").2.frames)
    rw [((s.tmp_same "base").trans (tmp_same _ "index")).frames]
    exact setLoopCaptures_fills (loopFrame_ok found) ⟨rfl, fun _ => id, .inr ⟨unknown, rfl, rfl⟩⟩

theorem emit_asks (plain : isBracket inst = false) (done : emit setting inst s = .ok s') :
    Asks s.frames s'.frames := by
  by_cases content : isAsking inst = false
  · rw [frames_eq_of_ok plain content done]
    exact (Fills.refl _).asks
  · have pushed : ∀ {named : Except Fault (String × Emission)},
        (named >>= fun p => pure (p.2.push (.name p.1))) = .ok s' →
        ∃ name t, named = .ok (name, t) ∧ s'.frames = t.frames := fun done => by
      obtain ⟨⟨name, t⟩, named, last⟩ := bind_eq_ok.mp done
      cases last
      exact ⟨name, t, named, rfl⟩
    cases inst with
    | iterElem =>
      obtain ⟨name, t, named, same⟩ := pushed done
      rw [same]
      exact (item_fills named).asks
    | iterBasePointer =>
      obtain ⟨name, t, named, same⟩ := pushed done
      rw [same]
      exact (base_fills named).asks
    | variantPayload =>
      obtain ⟨name, t, named, same⟩ := pushed done
      rw [same]
      exact payload_asks named
    | _ => exact absurd rfl content

theorem emitAll_cons (setting : Setting) (inst : Instruction) (rest : List Instruction) (s : Emission) :
    emitAll setting (inst :: rest) s = emit setting inst s >>= emitAll setting rest :=
  List.foldlM_cons

theorem beginBlock_pushAll (below : Emission) (moved : List Expr) (loop : Bool) :
    (below.pushAll moved).beginBlock moved.length loop = .ok (below.opened moved loop) := by
  have popped : (below.pushAll moved).popN moved.length = .ok (moved, below) := popN_eq_ok.mpr ⟨rfl, rfl⟩
  rw [beginBlock, popped]
  rfl

theorem endBlock_length {u v : Emission} (done : u.endBlock results = .ok v) : u.operands.length = results := by
  unfold endBlock at done
  split at done
  · cases done
  · by_contra other
    rw [if_pos other] at done
    cases done

/-- What becomes of a block whose body leaves the frames around it as they are. -/
theorem block_ok (asks : ∀ u v, emitAll setting code u = .ok v → Asks u.frames v.frames)
    (done : emitAll setting (blockBegin inputs loop :: (code ++ blockEnd results :: rest)) s = .ok s') :
    ∃ moved below inner captures frames, moved.length = inputs ∧ s = pushAll below moved ∧
      emitAll setting code (below.opened moved loop) = .ok inner ∧ inner.operands.length = results ∧
      inner.frames = ⟨below.operands, below.body, loop, captures⟩ :: frames ∧
      Fills below.frames frames ∧ (loop = true → frames = below.frames) ∧
      inner.endBlock results = .ok (below.closed inner frames
        ⟨inner.body, inner.operands.reverse, loop, captures⟩) ∧
      emitAll setting rest (below.closed inner frames
        ⟨inner.body, inner.operands.reverse, loop, captures⟩) = .ok s' := by
  rw [emitAll_cons] at done
  obtain ⟨opening, began, done⟩ := bind_eq_ok.mp done
  obtain ⟨moved, below, length, rfl, rfl⟩ := beginBlock_ok began
  obtain ⟨inner, inside, done⟩ := append_ok done
  rw [emitAll_cons] at done
  obtain ⟨closing, ended, done⟩ := bind_eq_ok.mp done
  obtain ⟨captures, frames, around, behind, own⟩ := (asks _ _ inside).of_cons
  obtain rfl := endBlock_ok around ended
  exact ⟨moved, below, inner, captures, frames, length, rfl, inside, endBlock_length ended, around, behind, own,
    ended, done⟩

theorem emitAll_asks (balanced : Balanced code) (done : emitAll setting code s = .ok s') :
    Asks s.frames s'.frames := by
  induction balanced generalizing s s' with
  | nil =>
    cases done
    exact (Fills.refl _).asks
  | plain plain _ ih =>
    rw [emitAll_cons] at done
    obtain ⟨next, first, done⟩ := bind_eq_ok.mp done
    exact (emit_asks plain first).trans (ih done)
  | block _ _ inner ih =>
    obtain ⟨moved, below, e, captures, frames, _, rfl, _, _, _, behind, _, _, done⟩ :=
      block_ok (fun _ _ => inner) done
    exact behind.asks.trans (ih done)

/-! ### Side by side -/

variable {before : List Stmt} {first second : List (List Expr × List Stmt)}

/-- Two states right behind a block: each has found its own operands and statements again, and the
blocks that are closed are the same. -/
structure Apart (left right : List Expr × List Stmt) (first second : List (List Expr × List Stmt))
    (s t : Emission) : Prop where
  ours : (s.operands, s.body) = left
  theirs : (t.operands, t.body) = right
  left : s.frames.map Frame.outer = first
  right : t.frames.map Frame.outer = second
  inner : t.frames.map Frame.inner = s.frames.map Frame.inner
  same : t = { s with operands := t.operands, body := t.body, frames := t.frames }

theorem Beside.endBlock {left right : List Expr × List Stmt}
    (beside : Beside [] (left :: first) (right :: second) s t) (results : Nat) :
    Agree (Apart left right first second) (s.endBlock results) (t.endBlock results) := by
  obtain ⟨outer, other, inner, same⟩ := beside
  obtain ⟨around, rfl⟩ : ∃ around, t = s.amid [] around := ⟨_, same⟩
  change around.map Frame.outer = _ at other
  change around.map Frame.inner = _ at inner
  unfold Emission.endBlock
  cases inside : s.frames with
  | nil =>
    rw [inside] at outer
    cases outer
  | cons frame rest =>
    cases around with
    | nil => cases other
    | cons another around =>
      rw [inside] at outer inner
      obtain ⟨mine, others⟩ := List.cons.inj outer
      obtain ⟨yours, behind⟩ := List.cons.inj other
      obtain ⟨head, tail⟩ := List.cons.inj inner
      have loop : another.loop = frame.loop := congrArg Prod.fst head
      have captures : another.captures = frame.captures := congrArg Prod.snd head
      change Agree _ (if s.operands.length ≠ results then _ else _) (if s.operands.length ≠ results then _ else _)
      split
      · exact .throw _ _
      · refine .pure ⟨mine, yours, others, behind, tail, ?_⟩
        simp only [amid, loop, captures, List.nil_append]

theorem Apart.beside {below : List Expr} {body : List Stmt}
    (apart : Apart (below, body) (below, before ++ body) first second s t) : Beside before first second s t := by
  obtain ⟨operands, written⟩ := Prod.mk.inj apart.ours
  obtain ⟨operands', written'⟩ := Prod.mk.inj apart.theirs
  have same := apart.same
  rw [operands', ← operands, written', ← written] at same
  exact ⟨apart.left, apart.right, apart.inner, same⟩

theorem Beside.beginBlock (beside : Beside before first second s t) (inputs : Nat) (loop : Bool) :
    Agree (fun u v => ∃ below, Beside [] ((below, s.body) :: first) ((below, before ++ s.body) :: second) u v)
      (s.beginBlock inputs loop) (t.beginBlock inputs loop) := by
  obtain ⟨outer, other, inner, same⟩ := beside
  obtain ⟨around, rfl⟩ : ∃ around, t = s.amid before around := ⟨_, same⟩
  change around.map Frame.outer = _ at other
  change around.map Frame.inner = _ at inner
  rw [Emission.beginBlock, Emission.beginBlock, Emission.popN, Emission.popN]
  by_cases few : s.operands.length < inputs
  · rw [if_pos few, if_pos (by exact few)]
    exact .error
  · rw [if_neg few, if_neg (by exact few)]
    refine .ok ⟨s.operands.drop inputs, ?_, ?_, ?_, rfl⟩
    · rw [← outer]
      rfl
    · rw [← other]
      rfl
    · exact congrArg (List.cons (loop, {})) inner

/-- Balanced code ends in the same way on both sides. -/
theorem Beside.emitAll (balanced : Balanced code) (beside : Beside before first second s t) :
    Agree (Beside before first second) (emitAll setting code s) (emitAll setting code t) := by
  induction balanced generalizing before first second s t with
  | nil => exact .pure beside
  | plain plain _ ih =>
    rw [emitAll_cons, emitAll_cons]
    exact (beside.emit plain).bind fun _ _ next => ih next
  | @block inputs loop results body rest _ _ inner ih =>
    rw [emitAll_cons, emitAll_cons]
    refine (beside.beginBlock inputs loop).bind fun u v ⟨below, opened⟩ => ?_
    rw [emitAll_append, emitAll_append]
    refine (inner opened).bind fun u v filled => ?_
    rw [emitAll_cons, emitAll_cons]
    exact (filled.endBlock results).bind fun u v closed => ih closed.beside

/-! ### Pages -/

/-- The emission of code as it is printed: the page of the innermost open block, and the pages that its
outer blocks have put aside. -/
structure Printing where
  state : Emission
  page : Page
  outer : List Page

namespace Printing

/-- A block is printed on a page of its own, from no indentation on. -/
def step (setting : Setting) (width : Int) (x : Printing) (inst : Instruction) : Except Fault Printing := do
  let next ← emit setting inst x.state
  match inst, x.outer with
  | .blockBegin _ _, outer => pure ⟨next, {}, x.page :: outer⟩
  | .blockEnd _, page :: outer => pure ⟨next, page, outer⟩
  | .blockEnd _, [] => throw (.stack .blockNotOpen)
  | _, outer => pure ⟨next, x.page.printAll width (next.body.drop x.state.body.length), outer⟩

def run (setting : Setting) (width : Int) (code : List Instruction) (x : Printing) : Except Fault Printing :=
  code.foldlM (step setting width) x

end Printing

theorem emit_writes (plain : isBracket inst = false) (done : emit setting inst s = .ok s') :
    ∃ written, s'.body = s.body ++ written := by
  obtain ⟨s'', _, beside⟩ := ((Beside.blank s).emit plain).symm.of_ok done
  refine ⟨s''.body, ?_⟩
  rw [beside.same]
  rfl

namespace Printing

variable {width : Int} {text : List Char} {page : Page} {outer : List Page}

theorem step_plain (plain : isBracket inst = false) (done : emit setting inst s = .ok s') :
    step setting width ⟨s, page, outer⟩ inst =
      .ok ⟨s', page.printAll width (s'.body.drop s.body.length), outer⟩ := by
  rw [step, done]
  cases inst with
  | blockBegin => cases plain
  | blockEnd => cases plain
  | _ => rfl

theorem step_begin (done : emit setting (.blockBegin inputs loop) s = .ok s') :
    step setting width ⟨s, page, outer⟩ (.blockBegin inputs loop) = .ok ⟨s', {}, page :: outer⟩ := by
  rw [step, done]
  rfl

theorem step_end {inside : Page} (done : emit setting (.blockEnd results) s = .ok s') :
    step setting width ⟨s, inside, page :: outer⟩ (.blockEnd results) = .ok ⟨s', page, outer⟩ := by
  rw [step, done]
  rfl

theorem run_cons (x : Printing) :
    run setting width (inst :: rest) x = step setting width x inst >>= run setting width rest :=
  List.foldlM_cons

theorem run_append (first second : List Instruction) (x : Printing) :
    run setting width (first ++ second) x = run setting width first x >>= run setting width second :=
  List.foldlM_append

/-- A block is printed on its own page, and behind it the page is the one that it was opened on. -/
theorem run_block {below inner after : Emission} {moved : List Expr} {inside : Page}
    (body : run setting width code ⟨below.opened moved loop, {}, page :: outer⟩ =
      .ok ⟨inner, inside, page :: outer⟩)
    (ended : inner.endBlock results = .ok after) :
    run setting width (blockBegin moved.length loop :: (code ++ blockEnd results :: rest))
      ⟨below.pushAll moved, page, outer⟩ = run setting width rest ⟨after, page, outer⟩ := by
  rw [run_cons, step_begin (beginBlock_pushAll below moved loop), ok_bind, run_append, body, ok_bind, run_cons,
    step_end ended, ok_bind]

theorem run_eq (balanced : Balanced code) (done : emitAll setting code s = .ok s') (width : Int)
    (text : List Char) (outer : List Page) :
    ∃ written, s'.body = s.body ++ written ∧ run setting width code ⟨s, ⟨text, 0⟩, outer⟩ =
      .ok ⟨s', ⟨text ++ Stmt.renderAll width written, 0⟩, outer⟩ := by
  induction balanced generalizing s s' text outer with
  | nil =>
    cases done
    refine ⟨[], (List.append_nil _).symm, ?_⟩
    rw [Stmt.renderAll, List.append_nil]
    rfl
  | plain plain _ ih =>
    rw [emitAll_cons] at done
    obtain ⟨next, first, done⟩ := bind_eq_ok.mp done
    obtain ⟨one, begun⟩ := emit_writes plain first
    obtain ⟨others, ended, printed⟩ := ih done (text ++ Stmt.renderAll width one) outer
    refine ⟨one ++ others, by rw [ended, begun, List.append_assoc], ?_⟩
    rw [run_cons, step_plain plain first, begun, List.drop_left, Page.printAll_eq, ok_bind, printed,
      Stmt.renderAll_append, List.append_assoc]
  | @block inputs loop results body rest balanced _ inner ih =>
    obtain ⟨moved, below, e, captures, frames, rfl, rfl, inside, _, _, _, _, ended, done⟩ :=
      block_ok (fun _ _ => emitAll_asks balanced) done
    obtain ⟨_, _, printed⟩ := inner inside [] (⟨text, 0⟩ :: outer)
    rw [run_block printed ended]
    exact ih done text outer

end Printing

/-- A block takes its operands from the top of the stack. Whatever balanced code it holds, behind it the
operands below, the text with its indentation and the open blocks are as they were, but for names that
the innermost loop has been asked for; and the block holds what its code writes from no indentation on
and what it leaves of the operands it began with. None of it would be different above other operands,
behind another text or inside other blocks that know the same names. -/
theorem block_isolated (balanced : Balanced code) (width : Int) (x : Printing)
    (done : emitAll setting (blockBegin inputs loop :: (code ++ [blockEnd results])) x.state = .ok s') :
    ∃ moved below inner captures, moved.length = inputs ∧ x.state = pushAll below moved ∧
      emitAll setting code (below.opened moved loop) = .ok inner ∧ inner.operands.length = results ∧
      Printing.run setting width code ⟨below.opened moved loop, {}, x.page :: x.outer⟩ =
        .ok ⟨inner, ⟨bodyText inner width, 0⟩, x.page :: x.outer⟩ ∧
      Printing.run setting width (blockBegin inputs loop :: (code ++ [blockEnd results])) x =
        .ok ⟨s', x.page, x.outer⟩ ∧
      s'.operands = below.operands ∧ s'.body = below.body ∧ Fills below.frames s'.frames ∧
      s'.blocks = ⟨inner.body, inner.operands.reverse, loop, captures⟩ :: inner.blocks ∧
      ∀ operands body around, around.map Frame.inner = below.frames.map Frame.inner →
        ∃ around', around'.map Frame.outer = around.map Frame.outer ∧
          around'.map Frame.inner = s'.frames.map Frame.inner ∧
          emitAll setting (blockBegin inputs loop :: (code ++ [blockEnd results]))
            (pushAll { below with operands, body, frames := around } moved) =
              .ok { s' with operands, body, frames := around' } := by
  obtain ⟨state, page, outer⟩ := x
  obtain ⟨moved, below, inner, captures, frames, rfl, rfl, inside, left, around, behind, _, ended, done⟩ :=
    block_ok (fun _ _ => emitAll_asks balanced) done
  cases done
  obtain ⟨written, body, printed⟩ := Printing.run_eq balanced inside width [] (page :: outer)
  have whole : inner.body = written := body
  rw [← whole] at printed
  refine ⟨moved, below, inner, captures, rfl, rfl, inside, left, printed, ?_, rfl, rfl, behind, rfl, ?_⟩
  · exact Printing.run_block printed ended
  · intro operands body others same
    have opened : Beside [] ((below.operands, below.body) :: below.frames.map Frame.outer)
        ((operands, body) :: others.map Frame.outer) (below.opened moved loop)
        (opened { below with operands, body, frames := others } moved loop) :=
      ⟨rfl, rfl, congrArg (List.cons (loop, ({} : Captures))) same, rfl⟩
    obtain ⟨inner', inside', filled⟩ := (opened.emitAll balanced).of_ok inside
    obtain ⟨after, ended', apart⟩ := (filled.endBlock results).of_ok ended
    obtain ⟨own, text⟩ := Prod.mk.inj apart.theirs
    refine ⟨after.frames, apart.right, apart.inner, ?_⟩
    rw [emitAll_cons, emit, beginBlock_pushAll, ok_bind, emitAll_append, inside', ok_bind, emitAll_single, emit,
      ended', apart.same, own, text]

def looping : Printing where
  state := { operands := [.name "top", .name "below"], frames := [⟨[.name "far"], [.run (.name "first")], true, {}⟩] }
  page := ⟨['x'], 8⟩
  outer := [⟨[], 4⟩]

/-- The payload and the loop's element are asked for, and another block is nested. -/
def nested : List Instruction := [variantPayload, iterElem, blockBegin 2 false, .tupleLower 0 2, blockEnd 3]

theorem nested_balanced : Balanced nested :=
  have body : Balanced [.tupleLower 0 2] := .plain rfl .nil
  have inner : Balanced [blockBegin 2 false, .tupleLower 0 2, blockEnd 3] := .block body .nil
  .plain rfl (.plain rfl inner)

theorem block_isolated_in_loop : ∃ s', emitAll default (blockBegin 1 false :: (nested ++ [blockEnd 1])) looping.state =
    .ok s' ∧ s'.operands = [.name "below"] ∧
      Printing.run default 4 (blockBegin 1 false :: (nested ++ [blockEnd 1])) looping =
        .ok ⟨s', looping.page, looping.outer⟩ := by
  have done : ∃ s', emitAll default (blockBegin 1 false :: (nested ++ [blockEnd 1])) looping.state = .ok s' :=
    ⟨_, rfl⟩
  obtain ⟨s', done⟩ := done
  obtain ⟨moved, below, inner, captures, length, state, -, -, -, printed, operands, -⟩ :=
    block_isolated nested_balanced 4 looping done
  have popped : looping.state.popN 1 = .ok (moved, below) := popN_eq_ok.mpr ⟨length, state⟩
  have rest : below.operands = [.name "below"] := by
    cases popped
    rfl
  exact ⟨s', done, operands.trans rest, printed⟩

end Emission

end ZigBindings
