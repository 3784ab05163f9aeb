import ZigBindings.Emission.Emit
import ZigBindings.Proofs.Agreement
import ZigBindings.Proofs.Emission.Fresh
import ZigBindings.Proofs.Machine.Run

/-! Emission inside other surroundings. An instruction never looks at the statements before it, nor at
the operands and statements that the open blocks have put aside; of those blocks it knows which are
loops and which names they have been asked for. -/

namespace ZigBindings

/-- What a block has put aside. -/
def Frame.outer (frame : Frame) : List Zig.Expr × List Zig.Stmt := (frame.outerOperands, frame.outerBody)

/-- What the code in a block knows of it. -/
def Frame.inner (frame : Frame) : Bool × Captures := (frame.loop, frame.captures)

namespace Emission
open Zig Zig.Expr

/-- The same state below other statements and inside other blocks. -/
def amid (s : Emission) (before : List Stmt) (around : List Frame) : Emission :=
  { s with body := before ++ s.body, frames := around }

section
variable (s : Emission) (before : List Stmt) (around : List Frame)

@[simp] theorem write_amid (stmt : Stmt) : (s.amid before around).write stmt = (s.write stmt).amid before around := by
  simp [amid, write]

@[simp] theorem push_amid (value : Expr) : (s.amid before around).push value = (s.push value).amid before around := rfl

@[simp] theorem pushAll_amid (values : List Expr) :
    (s.amid before around).pushAll values = (s.pushAll values).amid before around := rfl

@[simp] theorem use_amid (name : String) : (s.amid before around).use name = (s.use name).amid before around := by
  have used : (s.amid before around).used = s.used := rfl
  unfold use
  rw [used]
  split <;> rfl

@[simp] theorem reserve_amid (names : List String) :
    (s.amid before around).reserve names = (s.reserve names).amid before around := by
  unfold reserve
  induction names generalizing s with
  | nil => rfl
  | cons name rest ih => rw [List.foldl_cons, List.foldl_cons, use_amid, ih]

@[simp] theorem tmp_amid (stem : String) :
    (s.amid before around).tmp stem = ((s.tmp stem).1, (s.tmp stem).2.amid before around) := by
  have counted : ∀ counters, ({ s.amid before around with counters } : Emission) =
      ({ s with counters } : Emission).amid before around := fun _ => rfl
  rw [tmp, tmp]
  dsimp only
  rw [counted, use_amid]
  rfl

@[simp] theorem fresh_amid (name : String) :
    (s.amid before around).fresh name = ((s.fresh name).1, (s.fresh name).2.amid before around) := by
  have used : (s.amid before around).used = s.used := rfl
  unfold fresh
  rw [used]
  split
  · exact s.tmp_amid before around name
  · rw [use_amid]

@[simp] theorem materialize_amid (value : Expr) (stem : String) :
    (s.amid before around).materialize value stem =
      ((s.materialize value stem).1, (s.materialize value stem).2.amid before around) := by
  unfold materialize
  split
  · rfl
  · simp

@[simp] theorem pop_amid :
    (s.amid before around).pop = (fun p => (p.1, p.2.amid before around)) <$> s.pop := by
  cases operands : s.operands with
  | nil => simp [pop, amid, operands, throw_eq_error]
  | cons value rest => simp [pop, amid, operands, pure_eq_ok]

@[simp] theorem popN_amid (n : Nat) :
    (s.amid before around).popN n = (fun p => (p.1, p.2.amid before around)) <$> (s.popN n) := by
  by_cases few : s.operands.length < n
  · simp [popN, amid, few, throw_eq_error]
  · simp [popN, amid, few, pure_eq_ok]

@[simp] theorem popBlock_amid :
    (s.amid before around).popBlock = (fun p => (p.1, p.2.amid before around)) <$> s.popBlock := by
  cases blocks : s.blocks with
  | nil => simp [popBlock, amid, blocks, throw_eq_error]
  | cons block rest => simp [popBlock, amid, blocks, pure_eq_ok]

@[simp] theorem roll_amid (depth : Nat) : (s.amid before around).roll depth = (·.amid before around) <$> s.roll depth := by
  have operands : (s.amid before around).operands = s.operands := rfl
  unfold roll
  rw [operands]
  split <;> rfl

theorem getArg_amid (nth : Nat) : (s.amid before around).getArg nth = (·.amid before around) <$> s.getArg nth := by
  have params : (s.amid before around).params = s.params := rfl
  unfold getArg
  rw [params]
  split <;> rfl

theorem numericWiden_amid (src : Primitive) (dst : Slot) :
    (s.amid before around).numericWiden src dst = (·.amid before around) <$> s.numericWiden src dst := by
  simp only [numericWiden, pop_amid, map_bind, bind_map_left]
  rfl

theorem numericNarrow_amid (src : Slot) (dst : Primitive) :
    (s.amid before around).numericNarrow src dst = (·.amid before around) <$> s.numericNarrow src dst := by
  simp only [numericNarrow, pop_amid, map_bind, bind_map_left]
  rfl

theorem bitcasts_amid (casts : List (Slot × Slot)) :
    (s.amid before around).bitcasts casts = (·.amid before around) <$> s.bitcasts casts := by
  simp [bitcasts]

theorem lowerSlice_amid :
    (s.amid before around).lowerSlice = (·.amid before around) <$> s.lowerSlice := by
  simp [lowerSlice]

theorem liftSlice_amid (element stem : String) :
    (s.amid before around).liftSlice element stem = (·.amid before around) <$> s.liftSlice element stem := by
  simp [liftSlice]

theorem listCanonLift_amid (a : Arena) (element : Ty) :
    (s.amid before around).listCanonLift a element = (·.amid before around) <$> s.listCanonLift a element := by
  simp only [listCanonLift, liftSlice_amid, map_bind]

theorem tupleLower_amid (arity : Nat) :
    (s.amid before around).tupleLower arity = (·.amid before around) <$> s.tupleLower arity := by
  by_cases empty : arity = 0
  · simp [tupleLower, empty]
  · simp [tupleLower, empty]

theorem tupleLift_amid (arity : Nat) :
    (s.amid before around).tupleLift arity = (·.amid before around) <$> s.tupleLift arity := by
  simp [tupleLift]

theorem load_amid (access : Access) (offset : Nat) :
    (s.amid before around).load access offset = (·.amid before around) <$> s.load access offset := by
  simp [load]

theorem store_amid (access : Access) (offset : Nat) :
    (s.amid before around).store access offset = (·.amid before around) <$> s.store access offset := by
  simp [store]

@[simp] theorem slotVars_amid (slots : List (String × Slot)) :
    slots.foldl (fun s x => s.write (.slotVar x.1 x.2.name)) (s.amid before around) =
      (slots.foldl (fun s x => s.write (.slotVar x.1 x.2.name)) s).amid before around := by
  induction slots generalizing s with
  | nil => rfl
  | cons slot rest ih => rw [List.foldl_cons, List.foldl_cons, write_amid, ih]

theorem optionLower_amid (results : List Slot) :
    (s.amid before around).optionLower results = (·.amid before around) <$> s.optionLower results := by
  simp [optionLower]

theorem optionLift_amid (a : Arena) (payload : Ty) :
    (s.amid before around).optionLift a payload = (·.amid before around) <$> s.optionLift a payload := by
  simp [optionLift]

theorem listLower_amid (setting : Setting) (size align : Nat) :
    (s.amid before around).listLower setting size align =
      (·.amid before around) <$> s.listLower setting size align := by
  by_cases outward : setting.direction = .outward <;> by_cases never : align = 0
  · simp [listLower, outward, never, throw_eq_error]
  · simp [listLower, outward, never]
  · simp [listLower, outward, never, throw_eq_error]
  · simp [listLower, outward, never]

theorem listLift_amid (a : Arena) (element : Ty) (size : Nat) :
    (s.amid before around).listLift a element size = (·.amid before around) <$> s.listLift a element size := by
  simp [listLift]

theorem callWasm_amid (setting : Setting) (name : String) (sig : Signature) :
    (s.amid before around).callWasm setting name sig = (·.amid before around) <$> s.callWasm setting name sig := by
  by_cases outward : setting.direction = .outward
  · by_cases several : 1 < sig.results.length
    · simp [callWasm, outward, several, throw_eq_error]
    · by_cases empty : sig.results = []
      · simp [callWasm, outward, empty]
      · simp [callWasm, outward, several, empty]
  · simp [callWasm, outward, throw_eq_error]

theorem callInterface_amid (setting : Setting) (f : Function) :
    (s.amid before around).callInterface setting f = (·.amid before around) <$> s.callInterface setting f := by
  by_cases outward : setting.direction = .outward
  · simp [callInterface, outward, throw_eq_error]
  · by_cases empty : f.results.types = []
    · simp [callInterface, outward, empty]
    · by_cases named : f.results.isNamed = true
      · simp [callInterface, outward, empty, named]
      · simp [callInterface, outward, empty, named]

theorem ret_amid (setting : Setting) (amount : Nat) :
    (s.amid before around).ret setting amount = (·.amid before around) <$> s.ret setting amount := by
  simp only [ret, popN_amid, map_bind, bind_map_left]
  refine bind_congr fun found => ?_
  obtain ⟨values, t⟩ := found
  by_cases named : (decide (setting.direction = .outward) && setting.function.results.isNamed) = true
  · by_cases length : values.length = setting.function.results.named.length
    · simp [named, length]
    · simp [named, length, throw_eq_error]
  · rw [if_neg named, if_neg named]
    rcases values with _ | ⟨value, _ | _⟩
    · rfl
    · simp
    · rfl

theorem useReturnArea_amid (size align : Nat) :
    (s.amid before around).useReturnArea size align =
      ((s.useReturnArea size align).1, (s.useReturnArea size align).2.amid before around) := by
  have area : (s.amid before around).returnArea = s.returnArea := rfl
  unfold useReturnArea
  rw [area]
  split
  · rfl
  · rw [fresh_amid]
    rfl

theorem useParamArea_amid (size align : Nat) :
    (s.amid before around).useParamArea size align =
      ((s.useParamArea size align).1, (s.useParamArea size align).2.amid before around) := by
  have area : (s.amid before around).paramArea = s.paramArea := rfl
  unfold useParamArea
  rw [area]
  split
  · rfl
  · rw [fresh_amid]
    rfl

def isAsking : Instruction → Bool
  | .iterElem | .iterBasePointer | .variantPayload => true
  | _ => false

/-- Brackets aside, only an instruction that asks for a name looks at the open blocks. -/
theorem emit_amid (setting : Setting) {inst : Instruction} (plain : Machine.isBracket inst = false)
    (content : isAsking inst = false) :
    emit setting inst (s.amid before around) = (·.amid before around) <$> emit setting inst s := by
  cases inst with
  | getArg nth => exact s.getArg_amid before around nth
  | i32Const | constZero => rfl
  | roll depth => exact s.roll_amid before around depth
  | numericWiden src dst => exact s.numericWiden_amid before around src dst
  | numericNarrow src dst => exact s.numericNarrow_amid before around src dst
  | bitcasts casts => exact s.bitcasts_amid before around casts
  | stringLower | listCanonLower => exact s.lowerSlice_amid before around
  | stringLift => exact s.liftSlice_amid before around _ _
  | listCanonLift element => exact s.listCanonLift_amid before around _ element
  | listLower _ size align => exact s.listLower_amid before around setting size align
  | listLift element size => exact s.listLift_amid before around _ element size
  | tupleLower _ arity => exact s.tupleLower_amid before around arity
  | tupleLift _ arity => exact s.tupleLift_amid before around arity
  | recordLower | recordLift | enumLower | enumLift => rfl
  | optionLower _ results => exact s.optionLower_amid before around results
  | optionLift payload => exact s.optionLift_amid before around _ payload
  | load access offset => exact s.load_amid before around access offset
  | store access offset => exact s.store_amid before around access offset
  | returnPointer size align =>
    simp only [emit, useReturnArea_amid]
    rfl
  | paramPointer size align =>
    simp only [emit, useParamArea_amid]
    rfl
  | callWasm name sig => exact s.callWasm_amid before around setting name sig
  | callInterface f => exact s.callInterface_amid before around setting f
  | ret amount => exact s.ret_amid before around setting amount
  | iterElem | iterBasePointer | variantPayload => cases content
  | blockBegin | blockEnd => cases plain

end

/-- Two states side by side: what the blocks have put aside may differ, and so may the statements in
front. -/
structure Beside (before : List Stmt) (first second : List (List Expr × List Stmt)) (s t : Emission) :
    Prop where
  left : s.frames.map Frame.outer = first
  right : t.frames.map Frame.outer = second
  inner : t.frames.map Frame.inner = s.frames.map Frame.inner
  same : t = s.amid before t.frames

variable {setting : Setting} {before : List Stmt} {first second : List (List Expr × List Stmt)}
  {s s' t : Emission} {inst : Instruction}

theorem Beside.blank (s : Emission) :
    Beside s.body (s.frames.map Frame.outer) (s.frames.map Frame.outer) { s with body := [] } s :=
  ⟨rfl, rfl, rfl, by simp [amid]⟩

theorem frames_eq_of_ok (plain : Machine.isBracket inst = false) (content : isAsking inst = false)
    (done : emit setting inst s = .ok s') : s'.frames = s.frames := by
  have alone := s.emit_amid [] s.frames setting plain content
  have same : s.amid [] s.frames = s := rfl
  rw [same, done] at alone
  have result : s' = s'.amid [] s.frames := Except.ok.inj alone
  rw [result]
  rfl

theorem setLoopCaptures_inner {around frames : List Frame} (captures : Captures)
    (inner : around.map Frame.inner = frames.map Frame.inner) :
    (setLoopCaptures captures around).map Frame.inner = (setLoopCaptures captures frames).map Frame.inner := by
  induction frames generalizing around with
  | nil =>
    rw [List.map_eq_nil_iff.mp inner]
  | cons frame frames ih =>
    cases around with
    | nil => cases inner
    | cons other around =>
      obtain ⟨head, tail⟩ := List.cons.inj inner
      have loop : other.loop = frame.loop := congrArg Prod.fst head
      rw [setLoopCaptures, setLoopCaptures, loop]
      split
      · simp only [List.map_cons, tail, Frame.inner]
      · simp only [List.map_cons, ih tail, head]

theorem setLoopCaptures_outer (captures : Captures) (frames : List Frame) :
    (setLoopCaptures captures frames).map Frame.outer = frames.map Frame.outer := by
  induction frames with
  | nil => rfl
  | cons frame rest ih =>
    rw [setLoopCaptures]
    split
    · rfl
    · rw [List.map_cons, List.map_cons, ih]

namespace Beside

variable (beside : Beside before first second s t)
include beside

theorem of_amid {f : Emission → Except Fault Emission}
    (carries : ∀ s before around, f (s.amid before around) = (·.amid before around) <$> f s) :
    Agree (Beside before first second) (f s) (f t) := by
  have alone : f s = (·.amid [] s.frames) <$> f s := carries s [] s.frames
  have also : f t = (·.amid before t.frames) <$> f s := by
    rw [← carries, ← beside.same]
  rw [also]
  cases done : f s with
  | error e => exact .error
  | ok s' =>
    rw [done] at alone
    have result : s' = s'.amid [] s.frames := Except.ok.inj alone
    rw [result]
    exact .ok ⟨beside.left, beside.right, beside.inner, rfl⟩

theorem payload : Agree (fun p q => p.1 = q.1 ∧ Beside before first second p.2 q.2) s.payload t.payload := by
  obtain ⟨left, right, inner, same⟩ := beside
  obtain ⟨around, rfl⟩ : ∃ around, t = s.amid before around := ⟨_, same⟩
  have outside : (s.amid before around).frames = around := rfl
  rw [outside] at right inner
  unfold Emission.payload
  rw [outside]
  cases inside : s.frames with
  | nil =>
    rw [inside] at inner
    rw [List.map_eq_nil_iff.mp inner]
    exact .throw _ _
  | cons frame rest =>
    cases around with
    | nil =>
      rw [inside] at inner
      cases inner
    | cons other around =>
      rw [inside] at left inner
      obtain ⟨head, tail⟩ := List.cons.inj inner
      have loop : other.loop = frame.loop := congrArg Prod.fst head
      have captures : other.captures = frame.captures := congrArg Prod.snd head
      dsimp only
      rw [captures]
      split
      · exact .pure ⟨rfl, by rw [inside]; exact left, right, by rw [inside]; exact inner, rfl⟩
      · rw [tmp_amid]
        refine .pure ⟨rfl, left, right, ?_, rfl⟩
        simp only [List.map_cons, tail, Frame.inner, loop]

theorem loopFrame : Agree (fun f g => f.captures = g.captures) s.loopFrame t.loopFrame := by
  have found := congrArg (List.find? Prod.fst) beside.inner
  rw [List.find?_map, List.find?_map] at found
  change Option.map _ (t.frames.find? (·.loop)) = Option.map _ (s.frames.find? (·.loop)) at found
  unfold Emission.loopFrame
  cases ours : s.frames.find? (·.loop) with
  | none =>
    rw [ours, Option.map_none, Option.map_eq_none_iff] at found
    rw [found]
    exact .throw _ _
  | some frame =>
    rw [ours, Option.map_some, Option.map_eq_some_iff] at found
    obtain ⟨other, theirs, same⟩ := found
    rw [theirs]
    exact .pure (congrArg Prod.snd same).symm

theorem capture {u v : Emission} (captures : Captures) (kept : u.frames = s.frames)
    (also : v = u.amid before t.frames) :
    Beside before first second { u with frames := setLoopCaptures captures u.frames }
      { v with frames := setLoopCaptures captures v.frames } := by
  have theirs : v.frames = t.frames := by rw [also]; rfl
  refine ⟨?_, ?_, ?_, ?_⟩
  · change (setLoopCaptures captures u.frames).map Frame.outer = first
    rw [setLoopCaptures_outer, kept]
    exact beside.left
  · change (setLoopCaptures captures v.frames).map Frame.outer = second
    rw [setLoopCaptures_outer, theirs]
    exact beside.right
  · rw [kept, theirs]
    exact setLoopCaptures_inner captures beside.inner
  · rw [also]
    rfl

theorem item : Agree (fun p q => p.1 = q.1 ∧ Beside before first second p.2 q.2) s.item t.item := by
  refine beside.loopFrame.bind fun frame other captures => ?_
  rw [captures]
  split
  · exact .pure ⟨rfl, beside⟩
  · have next : t.tmp "elem" = ((s.tmp "elem").1, (s.tmp "elem").2.amid before t.frames) :=
      (congrArg (·.tmp "elem") beside.same).trans (s.tmp_amid before t.frames "elem")
    rw [next]
    exact .pure ⟨rfl, beside.capture _ (s.tmp_same "elem").frames rfl⟩

theorem base : Agree (fun p q => p.1 = q.1 ∧ Beside before first second p.2 q.2) s.base t.base := by
  refine beside.loopFrame.bind fun frame other captures => ?_
  rw [captures]
  split
  · exact .pure ⟨rfl, beside⟩
  · have next : t.tmp "base" = ((s.tmp "base").1, (s.tmp "base").2.amid before t.frames) :=
      (congrArg (·.tmp "base") beside.same).trans (s.tmp_amid before t.frames "base")
    rw [next]
    dsimp only
    rw [tmp_amid]
    have same := (s.tmp_same "base").trans (tmp_same _ "index")
    exact .pure ⟨rfl, beside.capture _ same.frames rfl⟩

theorem push (value : Expr) : Beside before first second (s.push value) (t.push value) :=
  ⟨beside.left, beside.right, beside.inner, congrArg (·.push value) beside.same⟩

theorem emit (plain : Machine.isBracket inst = false) :
    Agree (Beside before first second) (emit setting inst s) (emit setting inst t) := by
  have pushed : ∀ {f : Emission → Except Fault (String × Emission)},
      Agree (fun p q => p.1 = q.1 ∧ Beside before first second p.2 q.2) (f s) (f t) →
      Agree (Beside before first second) (f s >>= fun p => Pure.pure (p.2.push (.name p.1)))
        (f t >>= fun p => Pure.pure (p.2.push (.name p.1))) := fun agree => by
    refine agree.bind fun p q same => .pure ?_
    rw [same.1]
    exact same.2.push _
  by_cases content : isAsking inst = false
  · exact beside.of_amid fun s before around => s.emit_amid before around setting plain content
  · cases inst with
    | iterElem => exact pushed beside.item
    | iterBasePointer => exact pushed beside.base
    | variantPayload => exact pushed beside.payload
    | _ => exact absurd rfl content

end Beside

end Emission

end ZigBindings
