import ZigBindings.Proofs.Emission.Enclosing

/-! Names flow through woven code. A block is followed from its opening to the statement that contains
it; the induction is on how the code is woven. -/

namespace ZigBindings

/-- A loop that knows where its elements begin counts them. -/
def Captures.Paired (captures : Captures) : Prop := captures.base.isSome = captures.index.isSome

theorem Captures.Paired.uncounted {captures : Captures} (paired : captures.Paired)
    (unknown : captures.base = none) : captures.index = none := by
  rw [Paired, unknown] at paired
  exact Option.isNone_iff_eq_none.mp (Option.isSome_eq_false_iff.mp paired.symm)

namespace Emission
open Zig Zig.Expr Zig.Stmt Instruction

def Flows (setting : Setting) (firm options : Prop) (code : List Instruction) : Prop :=
  ∀ s s', emitAll setting code s = .ok s' → ∃ written, Flow firm options s s' written

section
variable {setting : Setting} {firm options : Prop} {s s' s₁ s₂ t e : Emission} {moved : List Expr}
  {written : List Stmt} {code lead part : List Instruction} {inputs results : Nat}

theorem append_ok {first second : List Instruction}
    (done : emitAll setting (first ++ second) s = .ok s') :
    ∃ m, emitAll setting first s = .ok m ∧ emitAll setting second m = .ok s' := by
  rwa [emitAll_append, bind_eq_ok] at done

theorem enclosed_ok {loop : Bool}
    (done : emitAll setting ([blockBegin inputs loop] ++ code ++ [blockEnd results]) s = .ok s') :
    ∃ (moved : List Expr) (t e : Emission), s = t.pushAll moved ∧
      emitAll setting code (t.opened moved loop) = .ok e ∧ e.endBlock results = .ok s' := by
  obtain ⟨e, started, stopped⟩ := append_ok done
  obtain ⟨b, began, inside⟩ := append_ok started
  rw [emitAll_single] at began stopped
  obtain ⟨moved, t, _, rfl, rfl⟩ := beginBlock_ok began
  exact ⟨moved, t, e, rfl, inside, stopped⟩

theorem Flow.encloses_flat (flow : Flow firm options (t.opened moved false) e written)
    (done : e.endBlock results = .ok s') :
    ∃ block, Encloses firm options (t.pushAll moved) s' block ∧ block.captures = {} := by
  obtain ⟨rest, frames, behind⟩ := flow.frames.of_flat rfl
  rw [endBlock_ok frames done]
  exact ⟨_, ⟨flow.close frames behind (by simp) (fun _ => rfl) rfl, congrArg _ flow.blocks, behind⟩, rfl⟩

theorem Flow.encloses_loop (flow : Flow firm options (t.opened moved true) e written)
    (done : e.endBlock results = .ok s') :
    ∃ block, Encloses firm options (t.pushAll moved) s' block ∧ block.captures.payload = none ∧
      block.captures.item = none ∧ block.captures.Paired ∧
      loopBase e.frames = block.captures.base.toList := by
  obtain ⟨captures, frames, payload, item, shape⟩ := flow.frames.of_loop rfl
  rw [endBlock_ok frames done]
  have none_payload : captures.payload = none := payload
  have none_item : captures.item = none := item
  refine ⟨_, ⟨flow.close frames (.refl _) (fun _ => rfl) (by simp) (by simp [none_payload, none_item]),
    congrArg _ flow.blocks, .refl _⟩, payload, item, ?_, ?_⟩
  · rcases shape with rfl | ⟨base, index⟩
    · rfl
    · exact base.trans index.symm
  · rw [frames, loopBase_loop rfl]

theorem encloses_present (before : Flows setting firm options lead) (after : Flows setting firm options part)
    (inside : emitAll setting (lead ++ [variantPayload] ++ part) (t.opened moved false) = .ok e)
    (done : e.endBlock results = .ok s') :
    ∃ block name, Encloses firm options (t.pushAll moved) s' block ∧
      block.captures = { payload := some name } := by
  obtain ⟨m, started, stopped⟩ := append_ok inside
  obtain ⟨n, led, asked⟩ := append_ok started
  obtain ⟨first, one⟩ := before _ _ led
  obtain ⟨rest, frames, behind⟩ := one.frames.of_flat rfl
  rw [emitAll_single, emit, payload, frames] at asked
  cases asked
  obtain ⟨second, two⟩ := after _ _ stopped
  obtain ⟨rest', frames', behind'⟩ := two.frames.of_flat rfl
  rw [endBlock_ok frames' done]
  have asks : Course firm options n _ _ [] [] := ask_course "payload" (by decide)
    { payload := some (n.tmp "payload").1 } frames rfl (fun x => by simp [Captures.names]) rfl
  exact ⟨_, _, ⟨((one.toCourse.trans asks).trans two.toCourse).close frames' (behind.trans behind')
    (by simp) (fun _ => rfl) rfl, congrArg _ (two.blocks.trans ((n.tmp_same _).blocks.trans one.blocks)),
    behind.trans behind'⟩, rfl⟩

theorem item_eq {frame : Frame} {outer : List Frame} (frames : s.frames = frame :: outer)
    (loop : frame.loop = true) (unasked : frame.captures.item = none) :
    s.item = .ok ((s.tmp "elem").1, { (s.tmp "elem").2 with
      frames := { frame with captures.item := some (s.tmp "elem").1 } :: outer }) := by
  have found : s.loopFrame = .ok frame := by
    rw [loopFrame, frames, List.find?_cons_of_pos (by exact loop)]
    rfl
  rw [item, found, ok_bind, unasked]
  simp only [(s.tmp_same "elem").frames, frames, setLoopCaptures, loop, if_true]
  rfl

theorem encloses_element (after : Flows setting firm options code)
    (inside : emitAll setting ([iterElem] ++ code) (t.opened moved true) = .ok e)
    (done : e.endBlock results = .ok s') :
    ∃ block, Encloses firm options (t.pushAll moved) s' block ∧ block.captures.payload = none ∧
      block.captures.Paired := by
  obtain ⟨m, asked, stopped⟩ := append_ok inside
  have unasked : (t.opened moved true).frames =
      { outerOperands := t.operands, outerBody := t.body, loop := true } :: t.frames := rfl
  rw [emitAll_single, emit, item_eq unasked rfl rfl] at asked
  cases asked
  obtain ⟨second, two⟩ := after _ _ stopped
  obtain ⟨captures, frames, payload, item, shape⟩ := two.frames.of_loop rfl
  rw [endBlock_ok frames done]
  have asks : Course firm options (t.opened moved true) _ _ [] [] := ask_course "elem" (by decide)
    { item := some ((t.opened moved true).tmp "elem").1 } unasked rfl
    (fun x => by simp [Captures.names]) rfl
  have none_payload : captures.payload = none := payload
  have some_item : captures.item = some ((t.opened moved true).tmp "elem").1 := item
  refine ⟨_, ⟨(asks.trans two.toCourse).close frames (.refl _) (fun _ => rfl) (by simp)
    (by simp [none_payload, some_item]), congrArg _ (two.blocks.trans (tmp_same _ _).blocks), .refl _⟩,
    payload, ?_⟩
  rcases shape with rfl | ⟨base, index⟩
  · rfl
  · exact base.trans index.symm

theorem setLoopCaptures_base {frames : List Frame} {frame : Frame} (base index : String)
    (found : frames.find? (·.loop) = some frame) (unknown : frame.captures.base = none) :
    let frames' := setLoopCaptures { frame.captures with base := some base, index := some index } frames
    Deepens frames frames' ∧ loopBase frames' = [base] ∧
      ∀ x, (frames'.flatMap (·.captures.names)).count x ≤
        (frames.flatMap (·.captures.names) ++ [base, index]).count x := by
  induction frames with
  | nil => cases found
  | cons top rest ih =>
    cases loop : top.loop with
    | true =>
      rw [List.find?_cons_of_pos (by exact loop)] at found
      obtain rfl := Option.some.inj found
      simp only [setLoopCaptures, loop, if_true]
      refine ⟨?_, ?_, fun x => ?_⟩
      · have deeper := Deepens.based rest base index loop unknown
        rwa [loop] at deeper
      · rw [loopBase_loop rfl]
        rfl
      · simp only [Captures.names, unknown, List.flatMap_cons, Option.toList_some, Option.toList_none,
          List.count_append, List.count_cons, List.count_nil]
        omega
    | false =>
      rw [List.find?_cons_of_neg (by simp [loop])] at found
      obtain ⟨deepens, known, fewer⟩ := ih found
      simp only [setLoopCaptures, loop, Bool.false_eq_true, if_false]
      refine ⟨.past loop deepens, ?_, fun x => ?_⟩
      · rw [loopBase_flat loop, known]
      · have := fewer x
        simp only [List.flatMap_cons, List.count_append] at this ⊢
        omega

theorem elements_flow {name : String} {names : List String}
    (same : t.body = s.body ∧ t.params = s.params ∧ t.operands = s.operands ∧ t.blocks = s.blocks ∧
      t.areas = s.areas) (deepens : Deepens s.frames t.frames) (hands : Hands options s t names)
    (known : loopBase t.frames = [name])
    (fewer : ∀ x, (t.frames.flatMap (·.captures.names)).count x ≤
      (s.frames.flatMap (·.captures.names) ++ names).count x) :
    Flow firm options s (t.push (.name name)) [] := by
  obtain ⟨body, params, operands, blocks, areas⟩ := same
  have held : (t.push (.name name)).held = s.areas ++ t.frames.flatMap (·.captures.names) := by
    rw [← areas]
    rfl
  have base : loopBase (t.push (.name name)).frames = [name] := known
  refine ⟨⟨by simp [push, body], params, areas.symm ▸ fun _ => id, deepens.loopBase_subset,
    ⟨_, hands.congr rfl rfl, fun x => ?_⟩, fun around _ _ elements _ start => ?_,
    fun _ => ⟨?_, ?_, ?_, List.nil_subset _, spentAll_nil, by simp⟩⟩, blocks, deepens⟩
  · have less := fewer x
    rw [held, Emission.held]
    simp only [List.flatMap_nil, localsAll_nil, List.nil_append, List.count_append] at less ⊢
    omega
  · refine ⟨scopedAll_nil, ?_, by simp⟩
    rw [push, namesAll_cons, names_name, operands, declaredAll_nil, List.append_nil]
    exact List.append_subset.mpr ⟨base ▸ elements, start⟩
  · simp [pending, push, operands]
  · exact fun x member => List.mem_append_left _ (areas ▸ member)
  · rw [base]
    simp [pending, push]

/-- The place where the elements of a loop begin is known from the first question for it on. -/
theorem base_flow {name : String} (done : s.base = .ok (name, t)) :
    Flow firm options s (t.push (.name name)) [] ∧ loopBase t.frames = [name] := by
  rw [Emission.base, loopFrame] at done
  cases found : s.frames.find? (·.loop) with
  | none =>
    rw [found] at done
    cases done
  | some frame =>
    rw [found] at done
    cases base : frame.captures.base with
    | some old =>
      simp only [pure_eq_ok, ok_bind, base] at done
      cases done
      have known : loopBase s.frames = [name] := by simp [loopBase, found, base]
      exact ⟨elements_flow ⟨rfl, rfl, rfl, rfl, rfl⟩ (.refl _) (.refl s) known (fun x => by simp), known⟩
    | none =>
      simp only [pure_eq_ok, ok_bind, base] at done
      cases done
      obtain ⟨deepens, known, fewer⟩ := setLoopCaptures_base (s.tmp "base").1
        ((s.tmp "base").2.tmp "index").1 found base
      have hands : Hands options s _ _ := (s.tmp_hands "base" (by decide)).trans
        ((s.tmp "base").2.tmp_hands "index" (by decide))
      have same := (s.tmp_same "base").trans (tmp_same _ "index")
      rw [same.frames]
      exact ⟨elements_flow ⟨same.body, same.params, same.operands, same.blocks, same.areas⟩ deepens
        (hands.congr rfl rfl) known fewer, known⟩

def slotVars (slots : List (String × Slot)) : List Stmt := slots.map fun slot => .slotVar slot.1 slot.2.name

theorem foldl_slotVars {declare : Emission → String × Slot → Emission}
    (each : ∀ s slot, declare s slot = s.write (.slotVar slot.1 slot.2.name))
    (slots : List (String × Slot)) (s : Emission) :
    slots.foldl declare s = { s with body := s.body ++ slotVars slots } := by
  induction slots generalizing s with
  | nil => simp [slotVars]
  | cons slot rest ih => simp [ih, each, slotVars, write]

theorem slotVars_names (slots : List (String × Slot)) :
    localsAll (slotVars slots) = slots.map (·.1) ∧ declaredAll (slotVars slots) = slots.map (·.1) ∧
      mentionsAll (slotVars slots) = [] := by
  induction slots with
  | nil => simp [slotVars]
  | cons slot rest ih =>
    simp only [slotVars] at ih
    simp [slotVars, locals, declared, mentions, ih]

theorem slotVars_scoped (slots : List (String × Slot)) (around : List String) :
    ScopedAll around (slotVars slots) := by
  induction slots generalizing around with
  | nil => simp [slotVars]
  | cons slot rest ih =>
    simp only [slotVars] at ih
    simp [slotVars, Scoped, ih]

theorem slotVars_spent {slots : List (String × Slot)} {after : List String}
    (mentioned : slots.map (·.1) ⊆ after) : SpentAll after (slotVars slots) := by
  induction slots with
  | nil => simp [slotVars]
  | cons slot rest ih =>
    have tail : slotVars (slot :: rest) = .slotVar slot.1 slot.2.name :: slotVars rest := rfl
    rw [tail, spentAll_cons]
    refine ⟨fun x member => List.mem_append_right _ (mentioned ?_), by simp [Spent], ih fun x member =>
      mentioned (by simp only [List.map_cons, List.mem_cons]; exact .inr member)⟩
    rw [declared, List.mem_singleton] at member
    rw [member, List.map_cons]
    exact List.mem_cons_self

theorem requireResults_ok {block : Block} {count : Nat} {consumer : String} {done : Unit}
    (required : requireResults block count consumer = .ok done) : block.results.length = count := by
  rw [requireResults] at required
  split at required
  case isTrue same => exact same
  case isFalse => cases required

section
variable {around slots : List String} {value : Expr} {absent present : Block} {name : String}

theorem ifSome_scoped (none : absent.captures = {}) (some : present.captures = { payload := some name })
    (inside : value.names ++ slots ⊆ around) (absent_fits : absent.Fits around)
    (present_fits : present.Fits around) :
    Scoped around (.ifSome value present.captures.payload slots present.body present.results absent.body
      absent.results) := by
  obtain ⟨absent_body, absent_results⟩ := absent_fits around (fun _ => id) (by simp [none, Captures.names])
  obtain ⟨present_body, present_results⟩ := present_fits (around ++ [name]) (by simp)
    (by simp [some, Captures.names])
  simp only [Scoped, some, Option.toList_some]
  exact ⟨inside, present_body, present_results, absent_body, absent_results⟩

theorem ifSome_spent (some : present.captures = { payload := some name }) (absent_spent : absent.Spent)
    (present_spent : present.Spent) :
    Spent (.ifSome value present.captures.payload slots present.body present.results absent.body
      absent.results) := by
  have captures := present_spent.captures
  simp only [some, Option.toList_some, Option.toList_none, List.append_nil] at captures
  simp only [Spent, some, Option.toList_some]
  exact ⟨captures, present_spent.body, absent_spent.body⟩

end

theorem optionLower_flow {slots : List Slot} {absent present : Block} {name : String}
    (allowed : options) (first : Encloses firm options s s₁ absent)
    (second : Encloses firm options s₁ s₂ present) (none : absent.captures = {})
    (some : present.captures = { payload := some name }) (done : s₂.optionLower slots = .ok s') :
    ∃ written, Flow firm options s s' written := by
  simp only [optionLower, popBlock, first.blocks, second.blocks, pure_eq_ok, ok_bind, bind_eq_ok,
    Prod.exists, pop_eq_ok, Except.ok.injEq] at done
  obtain ⟨_, _, _, _, value, t, same, rfl⟩ := done
  have holds := first.holds_both second
  rw [same] at holds
  let names := (List.range slots.length).map (slotName (t.tmp "option").1)
  have pairs : (names.zip slots).map (·.1) = names := List.map_fst_zip (by simp [names])
  obtain ⟨vars_locals, vars_declared, vars_mentions⟩ := slotVars_names (names.zip slots)
  rw [pairs] at vars_locals vars_declared
  let choice : Stmt := .ifSome value present.captures.payload names present.body present.results
    absent.body absent.results
  rw [foldl_slotVars fun _ _ => rfl]
  have alike := (t.tmp_same "option").trans (reserve_same _ names)
  change ∃ written, Flow firm options s ((({ (t.tmp "option").2.reserve names with
    body := ((t.tmp "option").2.reserve names).body ++ slotVars (names.zip slots) } : Emission).write
      choice).pushAll (names.map .name)) written
  have written := ((alike.takes [value]).writes (slotVars (names.zip slots))).writes [choice]
  refine ⟨_, holds.consume [value] (names.map .name) (slotVars (names.zip slots) ++ [choice])
    (written.gives (names.map .name)) ((slots_hands allowed t slots.length).congr rfl rfl)
    (fun x => ?_) (fun around fits inside => ?_) (fun _ x => ?_) fun _ spent => ?_⟩
  · have handed : ((t.tmp "option").1 :: List.map (slotName (t.tmp "option").1)
      (List.range slots.length)).count x = ((t.tmp "option").1 :: names).count x := rfl
    simp only [handed, localsAll_append, vars_locals, localsAll_cons, localsAll_nil, choice, locals,
      none, some, Block.locals, Captures.names, List.flatMap_cons, List.flatMap_nil,
      Option.toList_some, Option.toList_none, List.append_nil, List.count_append, List.count_cons,
      List.count_nil]
    omega
  · rw [namesAll_cons, namesAll_nil, List.append_nil] at inside
    have wide : around ⊆ around ++ names := List.subset_append_left _ _
    refine ⟨scopedAll_append.mpr ⟨slotVars_scoped _ _, ?_⟩, ?_⟩
    · rw [vars_declared, scopedAll_cons]
      refine ⟨ifSome_scoped none some (List.append_subset.mpr ⟨fun x member => wide (inside member), ?_⟩)
        ((fits absent (by simp)).mono wide) ((fits present (by simp)).mono wide), scopedAll_nil⟩
      exact List.subset_append_right _ _
    · rw [namesAll_names, declaredAll_append, vars_declared]
      exact fun x member => by simp [member]
  · simp only [Block.said, choice, mentions, mentionsAll_append, mentionsAll_cons, mentionsAll_nil,
      vars_mentions, namesAll_cons, namesAll_nil, List.flatMap_cons, List.flatMap_nil, List.append_nil,
      List.nil_append, List.mem_append]
    tauto
  · refine SpentAll.append (slotVars_spent fun x member => ?_) (spentAll_cons.mpr ⟨List.nil_subset _,
      ifSome_spent some (spent absent (by simp)) (spent present (by simp)), spentAll_nil⟩)
    rw [pairs] at member
    simp [choice, mentions, member]

theorem switchOption_flow {payload : Ty} {absent present : Block}
    (first : Encloses firm options s s₁ absent) (second : Encloses firm options s₁ s₂ present)
    (none : absent.captures = {}) (plain : present.captures = {})
    (done : s₂.optionLift setting.arena payload = .ok s') :
    ∃ written, Flow firm options s s' written := by
  simp only [optionLift, popBlock, first.blocks, second.blocks, pure_eq_ok, ok_bind, bind_eq_ok,
    Prod.exists, pop_eq_ok, Except.ok.injEq] at done
  obtain ⟨_, present_results, _, absent_results, discriminant, t, same, type, _, rfl⟩ := done
  have holds := first.holds_both second
  rw [same] at holds
  obtain ⟨value, result⟩ := List.length_eq_one_iff.mp (requireResults_ok present_results)
  have empty := List.length_eq_zero_iff.mp (requireResults_ok absent_results)
  rw [result]
  refine ⟨_, holds.consume [discriminant] [.name (t.tmp "option").1]
    [.switchOption (t.tmp "option").1 type discriminant absent.body present.body value]
    ((((t.tmp_same "option").takes [discriminant]).writes _).gives [.name (t.tmp "option").1])
    ((t.tmp_hands "option" (by decide)).congr rfl rfl) (fun x => ?_) (fun around fits inside => ?_)
    (fun _ x => ?_) fun _ spent => ?_⟩
  · simp only [localsAll_cons, localsAll_nil, locals, none, plain, Block.locals, Captures.names,
      List.flatMap_cons, List.flatMap_nil, Option.toList_none, List.append_nil, List.count_append,
      List.count_cons, List.count_nil]
    omega
  · obtain ⟨absent_body, _⟩ := fits absent (by simp) around (fun _ => id) (by simp [none, Captures.names])
    obtain ⟨present_body, present_result⟩ := fits present (by simp) around (fun _ => id)
      (by simp [plain, Captures.names])
    rw [result] at present_result
    simp only [namesAll_cons, namesAll_nil, List.append_nil] at inside present_result
    simp [Scoped, declared, inside, absent_body, present_body, present_result]
  · simp only [Block.said, result, empty, mentions, mentionsAll_cons, mentionsAll_nil, namesAll_cons,
      namesAll_nil, List.flatMap_cons, List.flatMap_nil, List.append_nil, List.mem_append]
    tauto
  · have absent_spent := (spent absent (by simp)).body
    have present_spent := (spent present (by simp)).body
    rw [empty, namesAll_nil] at absent_spent
    rw [result, namesAll_cons, namesAll_nil, List.append_nil] at present_spent
    simp [declared, Spent, absent_spent, present_spent]

section
variable {around : List String} {captures : Captures} {start items : Expr} {size : Nat} {block : Block}
  {byPointer : Bool} {element : Option String} {last : Option (Expr × Expr)}

theorem elementBase_name : ((elementBase captures start size).map (·.1)).toList = captures.base.toList := by
  rw [elementBase]
  cases captures.base <;> rfl

theorem headValue_elementBase (paired : captures.Paired) :
    headValue (elementBase captures start size) =
      if captures.base.isSome then start.names ++ captures.index.toList else [] := by
  rw [Captures.Paired] at paired
  rw [elementBase]
  cases base : captures.base with
  | none => rfl
  | some name =>
    rw [base] at paired
    obtain ⟨index, found⟩ := Option.isSome_iff_exists.mp paired.symm
    simp [headValue, found, capture]

theorem forEach_scoped (bare : block.captures.payload = none) (paired : block.captures.Paired)
    (known : block.captures.item.toList ⊆ element.toList)
    (inside : items.names ++ start.names ⊆ around) (fits : block.Fits around)
    (ends : lastValues last ⊆ element.toList ++ namesAll block.results) :
    Scoped around (.forEach items byPointer element block.captures.index
      (elementBase block.captures start size) block.body last) := by
  let wider := around ++ (element.toList ++ block.captures.index.toList) ++ block.captures.base.toList
  have wide : around ⊆ wider := fun x member => by simp [wider, member]
  obtain ⟨body, results⟩ := fits wider wide fun x member => by
    simp only [Captures.names, bare, Option.toList_none, List.nil_append, List.mem_append] at member
    simp only [wider, List.mem_append]
    have := @known x
    tauto
  obtain ⟨listed, started⟩ := List.append_subset.mp inside
  rw [Scoped, elementBase_name, headValue_elementBase paired]
  refine ⟨listed, fun x member => ?_, body, fun x member => ?_⟩
  · split at member
    · have := @started x
      simp only [List.mem_append] at member ⊢
      tauto
    · cases member
  · rcases List.mem_append.mp (ends member) with item | result
    · simp [item]
    · exact results result

theorem forEach_spent (paired : block.captures.Paired) (spent : block.Spent)
    (known : element.toList ⊆ block.captures.item.toList ++ lastValues last)
    (ends : namesAll block.results ⊆ lastValues last) :
    Spent (.forEach items byPointer element block.captures.index
      (elementBase block.captures start size) block.body last) := by
  have said : block.said ⊆ mentionsAll block.body ++ lastValues last := fun x member =>
    (List.mem_append.mp member).elim (List.mem_append_left _) fun result =>
      List.mem_append_right _ (ends result)
  have captures := List.Subset.trans spent.captures said
  rw [Spent, elementBase_name, headValue_elementBase paired]
  refine ⟨List.append_subset.mpr ⟨fun x member => ?_, fun x member => ?_⟩,
    fun x member => captures (List.mem_append_right _ member), spent.body.mono ends⟩
  · rcases List.mem_append.mp (known member) with item | final
    · exact List.mem_append_right _
        (captures (List.mem_append_left _ (List.mem_append_right _ item)))
    · simp [final]
  · cases base : block.captures.base with
    | none => simp [paired.uncounted base] at member
    | some name => simp [member]

end

theorem write_if (s : Emission) (condition : Prop) [Decidable condition] (stmt : Stmt) :
    (if condition then s.write stmt else s) =
      { s with body := s.body ++ if condition then [stmt] else [] } := by
  split <;> simp [write]

theorem exits_plain (condition : Prop) [Decidable condition] (value : Expr) (around after : List String)
    (inside : value.names ⊆ around) :
    let exits := if condition then [Stmt.onExit value] else []
    localsAll exits = [] ∧ declaredAll exits = [] ∧ ScopedAll around exits ∧ SpentAll after exits := by
  split <;> simp [locals, declared, Scoped, Spent, inside]

/-- Memory is taken for a list, a loop fills it, and its place and length come for the list. -/
theorem filling_flow {w : Emission} {vec memory start place count : Expr} {exits before : List Stmt}
    {size : Nat} {block : Block} (holds : Holds firm options s (w.push vec) [block] before)
    (bare : block.captures.payload = none) (paired : block.captures.Paired) (empty : block.results = [])
    (memory_names : memory.names = vec.names) (start_names : start.names = [(w.tmp "result").1])
    (place_names : place.names = [(w.tmp "result").1]) (count_names : count.names = vec.names)
    (exits_plain : ∀ around after, [(w.tmp "result").1] ⊆ around →
      localsAll exits = [] ∧ declaredAll exits = [] ∧ ScopedAll around exits ∧ SpentAll after exits) :
    ∃ written, Flow firm options s ((({ (w.tmp "result").2.write (.const (w.tmp "result").1 none memory) with
      body := ((w.tmp "result").2.write (.const (w.tmp "result").1 none memory)).body ++ exits }
        : Emission).write (.forEach vec false block.captures.item block.captures.index
          (elementBase block.captures start size) block.body none)).pushAll [place, count]) written := by
  generalize loop_eq : Stmt.forEach vec false block.captures.item block.captures.index
    (elementBase block.captures start size) block.body none = loop
  have taken := ((w.tmp_same "result").takes [vec]).writes [.const (w.tmp "result").1 none memory]
  refine ⟨_, holds.consume [vec] [place, count]
    (.const (w.tmp "result").1 none memory :: (exits ++ [loop]))
    (((taken.writes exits).writes [loop]).gives [place, count])
    ((w.tmp_hands "result" (by decide)).congr rfl rfl) (fun x => ?_) (fun around fits inside => ?_)
    (fun _ x => ?_) fun _ spent => ?_⟩
  · obtain ⟨no_locals, -⟩ := exits_plain _ [] (List.Subset.refl _)
    simp only [← loop_eq, localsAll_cons, localsAll_append, localsAll_nil, locals, no_locals, bare,
      elementBase_name, Block.locals, Captures.names, List.flatMap_cons, List.flatMap_nil,
      Option.toList_none, List.append_nil, List.nil_append, List.count_append]
    omega
  · rw [namesAll_cons, namesAll_nil, List.append_nil] at inside
    have wide : around ⊆ around ++ [(w.tmp "result").1] := List.subset_append_left _ _
    obtain ⟨-, no_declared, leave, -⟩ := exits_plain (around ++ [(w.tmp "result").1]) []
      (List.subset_append_right _ _)
    refine ⟨?_, ?_⟩
    · rw [scopedAll_cons, declared, scopedAll_append, no_declared, List.append_nil, scopedAll_cons]
      refine ⟨by simpa [Scoped, memory_names] using inside, leave, ?_, scopedAll_nil⟩
      rw [← loop_eq]
      refine forEach_scoped bare paired (List.Subset.refl _) (List.append_subset.mpr
        ⟨fun x member => wide (inside member), ?_⟩) ((fits block (by simp)).mono wide) (by simp [lastValues])
      rw [start_names]
      exact List.subset_append_right _ _
    · rw [declaredAll_cons, declared, namesAll_cons, namesAll_cons, namesAll_nil, place_names, count_names]
      intro x member
      have := @inside x
      simp only [List.mem_append, List.append_nil] at member ⊢
      tauto
  · simp only [← loop_eq, Block.said, empty, mentions, mentionsAll_cons, mentionsAll_append,
      mentionsAll_nil, memory_names, namesAll_cons, namesAll_nil, List.flatMap_cons, List.flatMap_nil,
      List.append_nil, List.mem_append]
    tauto
  · obtain ⟨-, no_declared, -, leave⟩ := exits_plain [(w.tmp "result").1]
      (mentionsAll [loop] ++ namesAll [place, count]) (List.Subset.refl _)
    have block_spent := spent block (by simp)
    refine spentAll_cons.mpr ⟨?_, by simp [Spent], leave.append (spentAll_cons.mpr ⟨?_, ?_, spentAll_nil⟩)⟩
    · rw [declared, namesAll_cons, place_names]
      simp
    · rw [← loop_eq]
      exact List.nil_subset _
    · rw [← loop_eq]
      exact forEach_spent paired block_spent (List.subset_append_left _ _) (by simp [empty])

theorem listLower_flow {size align : Nat} {block : Block} (encloses : Encloses firm options s s₁ block)
    (bare : block.captures.payload = none) (paired : block.captures.Paired)
    (done : s₁.listLower setting size align = .ok s') : ∃ written, Flow firm options s s' written := by
  simp only [listLower, popBlock, encloses.blocks, pure_eq_ok, ok_bind, bind_eq_ok, Prod.exists,
    pop_eq_ok] at done
  obtain ⟨_, required, value, t, same, done⟩ := done
  have empty := List.length_eq_zero_iff.mp (requireResults_ok required)
  have popped := encloses.holds
  rw [same] at popped
  split at done
  case isTrue => cases done
  case isFalse =>
    obtain rfl := Except.ok.inj done
    obtain ⟨before, named⟩ := t.materialize_flow value "vec" (by decide)
    rw [write_if]
    exact filling_flow (popped.flow named) bare paired empty (by simp [allocate]) (by simp) (by simp)
      (by simp) fun around after inside => exits_plain _ _ around after (by simpa using inside)

theorem listLift_flow {element : Ty} {size : Nat} {block : Block} (encloses : Encloses firm options s s₁ block)
    (bare : block.captures.payload = none) (whole : block.captures.item = none)
    (paired : block.captures.Paired) (based : firm → block.captures.base.isSome)
    (done : s₁.listLift setting.arena element size = .ok s') :
    ∃ written, Flow firm options s s' written := by
  simp only [listLift, popBlock, encloses.blocks, pure_eq_ok, ok_bind, bind_eq_ok, Prod.exists,
    pop_eq_ok] at done
  obtain ⟨_, required, length, u, same, pointer, t, rfl, type, _, done⟩ := done
  obtain ⟨value, result⟩ := List.length_eq_one_iff.mp (requireResults_ok required)
  have holds := encloses.holds
  rw [same] at holds
  obtain rfl := Except.ok.inj done
  rw [result, List.headD_cons]
  generalize list_eq : (t.tmp "result").1 = list
  generalize middle_eq : (t.tmp "result").2.write (.const list none (allocate type (usizeOf length))) = m
  have hands : Hands options t (m.tmp "item").2 [list, (m.tmp "item").1] := by
    have first : Hands options t _ _ := t.tmp_hands "result" (by decide)
    have second : Hands options m _ _ := m.tmp_hands "item" (by decide)
    rw [← list_eq]
    exact first.trans (second.congr (by rw [← middle_eq]; rfl) rfl)
  generalize loop_eq : Stmt.forEach (.name list) true (some (m.tmp "item").1) block.captures.index
    (elementBase block.captures (usizeOf pointer) size) block.body
    (some (deref (.name (m.tmp "item").1), value)) = loop
  have exchange : Exchange (t.pushAll [pointer, length]) m [pointer, length] []
      [.const list none (allocate type (usizeOf length))] := by
    rw [← middle_eq]
    exact ((t.tmp_same "result").takes _).writes _
  refine ⟨_, holds.consume [pointer, length] [.name list]
    [.const list none (allocate type (usizeOf length)), loop]
    (((exchange.renames (m.tmp_same "item")).writes [loop]).gives [.name list])
    (hands.congr rfl rfl) (fun x => ?_) (fun around fits inside => ?_) (fun strict x => ?_)
    fun _ spent => ?_⟩
  · simp only [← loop_eq, localsAll_cons, localsAll_nil, locals, bare, whole, elementBase_name, Block.locals,
      Captures.names, List.flatMap_cons, List.flatMap_nil, Option.toList_some, Option.toList_none,
      List.append_nil, List.nil_append, List.count_append, List.count_cons, List.count_nil]
    omega
  · simp only [namesAll_cons, namesAll_nil, List.append_nil] at inside
    obtain ⟨start, count⟩ := List.append_subset.mp inside
    have wide : around ⊆ around ++ [list] := List.subset_append_left _ _
    refine ⟨?_, by simp [declared]⟩
    rw [scopedAll_cons, scopedAll_cons, declared, ← loop_eq]
    refine ⟨by simpa [Scoped, allocate] using count, forEach_scoped bare paired (by simp [whole])
      ?_ ((fits block (by simp)).mono wide) (by simp [lastValues, result]), scopedAll_nil⟩
    rw [names_name, names_usizeOf]
    exact List.append_subset.mpr ⟨List.subset_append_right _ _, fun x member => wide (start member)⟩
  · have known : block.captures.base.isSome = true := based strict
    simp only [← loop_eq, Block.said, result, mentions, headValue_elementBase paired, known, if_true,
      lastValues, allocate, mentionsAll_cons, mentionsAll_nil, names_orPanic, names_call, names_fixed,
      names_usizeOf, names_deref, names_name, namesAll_cons, namesAll_nil, List.flatMap_cons,
      List.flatMap_nil, List.append_nil, List.nil_append, List.mem_append]
    tauto
  · refine spentAll_cons.mpr ⟨by simp [declared], by simp [Spent], spentAll_cons.mpr ⟨?_, ?_, spentAll_nil⟩⟩
    · rw [← loop_eq]
      exact List.nil_subset _
    · rw [← loop_eq]
      exact forEach_spent paired (spent block (by simp)) (by simp [lastValues]) (by simp [lastValues, result])

theorem Flows.append {first second : List Instruction} (before : Flows setting firm options first)
    (after : Flows setting firm options second) : Flows setting firm options (first ++ second) := by
  intro s s' done
  obtain ⟨m, led, followed⟩ := append_ok done
  obtain ⟨one, first_flow⟩ := before _ _ led
  obtain ⟨two, second_flow⟩ := after _ _ followed
  exact ⟨_, first_flow.trans second_flow⟩

theorem iterBasePointer_flow (done : emitAll setting [iterBasePointer] s = .ok s') :
    Flow firm options s s' [] ∧ ∃ name, loopBase s'.frames = [name] := by
  rw [emitAll_single, emit] at done
  simp only [bind_eq_ok, Prod.exists, pure_eq_ok, Except.ok.injEq] at done
  obtain ⟨name, t, asked, rfl⟩ := done
  obtain ⟨flow, known⟩ : Flow firm options s _ [] ∧ _ := base_flow asked
  exact ⟨flow, name, known⟩

theorem optionLower_flows {absent : List Instruction} {left right : Nat} {payload : Ty} {slots : List Slot}
    (allowed : options) (none : Flows setting firm options absent) (before : Flows setting firm options lead)
    (after : Flows setting firm options part) :
    Flows setting firm options ([blockBegin 0 false] ++ absent ++ [blockEnd left] ++
      ([blockBegin 0 false] ++ (lead ++ [variantPayload] ++ part) ++ [blockEnd right]) ++
        [.optionLower payload slots]) := by
  intro s s' done
  obtain ⟨s₂, blocks, last⟩ := append_ok done
  obtain ⟨s₁, first, second⟩ := append_ok blocks
  obtain ⟨moved, t, e, rfl, inside, closed⟩ := enclosed_ok first
  obtain ⟨written, flow⟩ := none _ _ inside
  obtain ⟨absent, absent_encloses, bare⟩ := flow.encloses_flat closed
  obtain ⟨moved', t', e', rfl, inside', closed'⟩ := enclosed_ok second
  obtain ⟨present, name, present_encloses, asked⟩ := encloses_present before after inside' closed'
  rw [emitAll_single, emit] at last
  exact optionLower_flow allowed absent_encloses present_encloses bare asked last

theorem optionLift_flows {payload : Ty} (some : Flows setting firm options part) :
    Flows setting firm options ([blockBegin 0 false] ++ [] ++ [blockEnd 0] ++
      ([blockBegin inputs false] ++ part ++ [blockEnd 1]) ++ [.optionLift payload]) := by
  intro s s' done
  obtain ⟨s₂, blocks, last⟩ := append_ok done
  obtain ⟨s₁, first, second⟩ := append_ok blocks
  obtain ⟨moved, t, e, rfl, inside, closed⟩ := enclosed_ok first
  cases inside
  obtain ⟨absent, absent_encloses, none⟩ := (Flow.refl _).encloses_flat closed
  obtain ⟨moved', t', e', rfl, inside', closed'⟩ := enclosed_ok second
  obtain ⟨written, flow⟩ := some _ _ inside'
  obtain ⟨present, present_encloses, plain⟩ := flow.encloses_flat closed'
  rw [emitAll_single, emit] at last
  exact switchOption_flow absent_encloses present_encloses none plain last

theorem listLower_flows {element : Ty} {size align : Nat} (each : Flows setting firm options code) :
    Flows setting firm options ([blockBegin 0 true] ++ ([iterElem] ++ code) ++ [blockEnd 0] ++
      [.listLower element size align]) := by
  intro s s' done
  obtain ⟨s₁, block, last⟩ := append_ok done
  obtain ⟨moved, t, e, rfl, inside, closed⟩ := enclosed_ok block
  obtain ⟨block, encloses, bare, paired⟩ := encloses_element each inside closed
  rw [emitAll_single, emit] at last
  exact listLower_flow encloses bare paired last

theorem listLift_flows {element : Ty} {size : Nat} (loose : ¬ firm) (each : Flows setting firm options code) :
    Flows setting firm options ([blockBegin 0 true] ++ code ++ [blockEnd 1] ++ [.listLift element size]) := by
  intro s s' done
  obtain ⟨s₁, block, last⟩ := append_ok done
  obtain ⟨moved, t, e, rfl, inside, closed⟩ := enclosed_ok block
  obtain ⟨written, flow⟩ := each _ _ inside
  obtain ⟨block, encloses, bare, whole, paired, -⟩ := flow.encloses_loop closed
  rw [emitAll_single, emit] at last
  exact listLift_flow encloses bare whole paired (fun strict => absurd strict loose) last

theorem listLiftBase_flows {element : Ty} {size : Nat} (before : Flows setting firm options lead)
    (after : Flows setting firm options part) :
    Flows setting firm options ([blockBegin 0 true] ++ (lead ++ [iterBasePointer] ++ part) ++
      [blockEnd 1] ++ [.listLift element size]) := by
  intro s s' done
  obtain ⟨s₁, block, last⟩ := append_ok done
  obtain ⟨moved, t, e, rfl, inside, closed⟩ := enclosed_ok block
  obtain ⟨m, started, followed⟩ := append_ok inside
  obtain ⟨n, led, asked⟩ := append_ok started
  obtain ⟨first, one⟩ := before _ _ led
  obtain ⟨two, name, known⟩ : Flow firm options n m [] ∧ _ := iterBasePointer_flow asked
  obtain ⟨second, three⟩ := after _ _ followed
  obtain ⟨block, encloses, bare, whole, paired, last_base⟩ :=
    ((one.trans two).trans three).encloses_loop closed
  rw [emitAll_single, emit] at last
  refine listLift_flow encloses bare whole paired (fun _ => ?_) last
  have present : name ∈ loopBase e.frames := three.base (known ▸ List.mem_singleton_self name)
  rw [last_base, Option.mem_toList] at present
  exact Option.isSome_iff_exists.mpr ⟨name, present⟩

/-- Names flow through woven code. -/
theorem woven_flows (woven : Woven firm options code) : Flows setting firm options code := by
  induction woven with
  | nil =>
    intro s s' done
    cases done
    exact ⟨[], .refl s⟩
  | plain apart =>
    intro s s' done
    rw [emitAll_single] at done
    exact plain_flow apart done
  | base =>
    intro s s' done
    exact ⟨[], (iterBasePointer_flow done).1⟩
  | append _ _ before after => exact before.append after
  | optionLower _ _ _ _ allowed _ _ _ none before after => exact optionLower_flows allowed none before after
  | optionLift _ _ _ some => exact optionLift_flows some
  | listLower _ _ _ _ each => exact listLower_flows each
  | listLift _ _ loose _ each => exact listLift_flows loose each
  | listLiftBase _ _ _ _ before after => exact listLiftBase_flows before after

end

end Emission

end ZigBindings
