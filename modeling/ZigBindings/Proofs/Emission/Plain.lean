import ZigBindings.Proofs.Crossing.Weave
import ZigBindings.Proofs.Emission.Flow
import ZigBindings.Proofs.Emission.Sequence

/-! Instructions that have nothing to do with blocks. Each mentions the operands that it takes in what
it writes or gives. -/

namespace ZigBindings.Emission
open Zig Zig.Expr Zig.Stmt

theorem pop_eq_ok {s t : Emission} {value : Expr} : s.pop = .ok (value, t) ↔ s = t.push value := by
  unfold pop push
  cases s with
  | mk body params operands =>
    cases operands with
    | nil => cases t; simp [throw_eq_error]
    | cons top rest => cases t; simp [pure_eq_ok]; grind

theorem popN_eq_ok {s t : Emission} {n : Nat} {values : List Expr} :
    s.popN n = .ok (values, t) ↔ values.length = n ∧ s = t.pushAll values := by
  unfold popN
  split
  case isTrue few =>
    refine ⟨fun never => absurd never (by simp [throw_eq_error]), ?_⟩
    rintro ⟨rfl, rfl⟩
    simp [pushAll] at few
  case isFalse enough =>
    rw [pure_eq_ok, Except.ok.injEq]
    constructor
    · intro same
      cases same
      refine ⟨by simp; omega, ?_⟩
      simp [pushAll]
    · rintro ⟨rfl, rfl⟩
      simp [pushAll]

section
variable {firm options : Prop} {s s' t : Emission}

theorem swap_flow (t : Emission) (taken given : List Expr)
    (known : namesAll given ⊆ t.params ++ namesAll taken) (kept : namesAll taken ⊆ namesAll given) :
    Flow firm options (t.pushAll taken) (t.pushAll given) [] := by
  have exchange : Exchange (t.pushAll taken) (t.pushAll given) taken given [] :=
    ⟨⟨t.operands, rfl, rfl⟩, (List.append_nil _).symm, rfl, rfl, rfl, rfl⟩
  refine exchange.flow ((Hands.refl t).congr rfl rfl) (fun around params inside => ?_)
    (by simpa using kept) spentAll_nil
  refine ⟨scopedAll_nil, fun x member => List.mem_append_left _ ?_⟩
  rcases List.mem_append.mp (known member) with param | old
  · exact params param
  · exact inside old

theorem replace_flow (t : Emission) {value given : Expr} (same : given.names = value.names) :
    Flow firm options (t.push value) (t.push given) [] :=
  swap_flow t [value] [given] (by simp [same]) (by simp [same])

theorem statement_flow (t : Emission) (taken : List Expr) {stmt : Stmt}
    (undeclared : stmt.locals = [] ∧ stmt.declared = []) (spent : Spent stmt)
    (visible : ∀ around, namesAll taken ⊆ around → Scoped around stmt)
    (kept : namesAll taken ⊆ stmt.mentions) :
    Flow firm options (t.pushAll taken) (t.write stmt) [stmt] := by
  have exchange : Exchange (t.pushAll taken) (t.write stmt) taken [] [stmt] :=
    ((SameCode.refl t).takes taken).writes [stmt]
  refine exchange.flow ?_ (fun around _ inside => ?_) ?_ ?_
  · rw [localsAll_cons, localsAll_nil, undeclared.1]
    exact (Hands.refl t).congr rfl rfl
  · simp [visible around inside]
  · simpa using kept
  · simp [undeclared.2, spent]

theorem const_flow {t t' : Emission} (taken : List Expr) {name : String} {type : Option String}
    {value : Expr} (same : SameCode t t') (hands : Hands options t t' [name])
    (names : value.names ⊆ namesAll taken) (kept : namesAll taken ⊆ value.names) :
    Flow firm options (t.pushAll taken) ((t'.write (.const name type value)).push (.name name))
      [.const name type value] := by
  have moved : Exchange (t.pushAll taken) ((t'.write (.const name type value)).push (.name name))
      taken [.name name] [.const name type value] :=
    ((same.takes taken).writes [.const name type value]).gives [.name name]
  refine moved.flow ?_ (fun around _ inside => ?_) ?_ ?_
  · simpa [locals] using hands.congr (t := t.pushAll taken)
      (u := (t'.write (.const name type value)).push (.name name)) rfl rfl
  · simp only [scopedAll_cons, scopedAll_nil, and_true, Scoped]
    exact ⟨fun x member => inside (names member), by simp [declared]⟩
  · intro x member
    simp [mentions, kept member]
  · simp [declared, Spent]

theorem materialize_flow (t : Emission) (value : Expr) (stem : String) (clear : Stem stem) :
    ∃ written, Flow firm options (t.push value)
      ((t.materialize value stem).2.push (t.materialize value stem).1) written := by
  unfold materialize
  split
  · exact ⟨[], replace_flow t rfl⟩
  · exact ⟨_, const_flow [value] (t.tmp_same stem) (t.tmp_hands stem clear) (by simp) (by simp)⟩

theorem roll_flow {depth : Nat} (done : s.roll depth = .ok s') : Flow firm options s s' [] := by
  rw [roll.eq_def] at done
  split at done
  case h_1 => cases done
  case h_2 value found =>
    cases done
    obtain ⟨inside, rfl⟩ := List.getElem?_eq_some_iff.mp found
    let t : Emission := { s with operands := s.operands.drop (depth + 1) }
    have before : s = t.pushAll (s.operands[depth] :: (s.operands.take depth).reverse) := by
      simp [t, pushAll]
    have after : { s with operands := s.operands[depth] :: s.operands.eraseIdx depth } =
        t.pushAll ((s.operands.take depth).reverse ++ [s.operands[depth]]) := by
      simp [t, pushAll, List.eraseIdx_eq_take_drop_succ]
    have swapped : Flow firm options (t.pushAll _) (t.pushAll _) [] :=
      swap_flow t (s.operands[depth] :: (s.operands.take depth).reverse)
        ((s.operands.take depth).reverse ++ [s.operands[depth]])
        (fun x member => List.mem_append_right _ (by simpa [or_comm] using member))
        (fun x member => by simpa [or_comm] using member)
    rw [after]
    rwa [← before] at swapped

theorem numericWiden_flow {src : Primitive} {dst : Slot} (done : s.numericWiden src dst = .ok s') :
    Flow firm options s s' [] := by
  simp only [numericWiden, bind_eq_ok, Prod.exists, pop_eq_ok, pure_eq_ok, Except.ok.injEq] at done
  obtain ⟨_, _, value, t, rfl, slot, widens, rfl⟩ := done
  rw [widened.eq_def] at widens
  split at widens
  case h_1 slot' found =>
    cases widens
    exact replace_flow t (names_widen found)
  case h_2 => cases widens

theorem numericNarrow_flow {src : Slot} {dst : Primitive} (done : s.numericNarrow src dst = .ok s') :
    Flow firm options s s' [] := by
  simp only [numericNarrow, bind_eq_ok, Prod.exists, pop_eq_ok, pure_eq_ok, Except.ok.injEq] at done
  obtain ⟨_, _, slot, t, rfl, value, narrows, rfl⟩ := done
  rw [narrowed.eq_def] at narrows
  split at narrows
  case h_1 value' found =>
    cases narrows
    exact replace_flow t (names_narrow found)
  case h_2 => cases narrows

theorem namesAll_converted {values : List Expr} {casts : List (Slot × Slot)}
    (length : values.length = casts.length) :
    namesAll (List.zipWith
      (fun value cast => convert value (.ofSlot cast.1) (.ofSlot cast.2)) values casts) =
        namesAll values := by
  induction values generalizing casts with
  | nil => simp
  | cons value rest ih =>
    cases casts with
    | nil => cases length
    | cons cast casts =>
      rw [List.zipWith_cons_cons, namesAll_cons, namesAll_cons, names_convert,
        ih (Nat.succ.inj length)]

theorem bitcasts_flow {casts : List (Slot × Slot)} (done : s.bitcasts casts = .ok s') :
    Flow firm options s s' [] := by
  simp only [bitcasts, bind_eq_ok, Prod.exists, popN_eq_ok, pure_eq_ok, Except.ok.injEq] at done
  obtain ⟨values, t, ⟨length, rfl⟩, rfl⟩ := done
  have same := namesAll_converted length
  exact swap_flow t _ _ (fun x member => List.mem_append_right _ (same ▸ member))
    fun x member => same.symm ▸ member

theorem lowerSlice_flow (done : s.lowerSlice = .ok s') :
    ∃ written, Flow firm options s s' written := by
  simp only [lowerSlice, bind_eq_ok, Prod.exists, pop_eq_ok, pure_eq_ok, Except.ok.injEq] at done
  obtain ⟨value, t, rfl, rfl⟩ := done
  obtain ⟨written, flow⟩ := t.materialize_flow value "slice" (by decide)
  exact ⟨_, flow.trans (swap_flow _ [_] _ (by simp) (by simp))⟩

theorem liftSlice_flow {element stem : String} (clear : Stem stem)
    (done : s.liftSlice element stem = .ok s') : ∃ written, Flow firm options s s' written := by
  simp only [liftSlice, bind_eq_ok, Prod.exists, pop_eq_ok, pure_eq_ok, Except.ok.injEq] at done
  obtain ⟨length, t, rfl, pointer, t, rfl, rfl⟩ := done
  exact ⟨_, const_flow [pointer, length] (t.tmp_same stem) (t.tmp_hands stem clear)
    (by simp) (by simp)⟩

theorem namesAll_elements (value : Expr) {arity : Nat} (some : arity ≠ 0) :
    namesAll ((List.range arity).map (elementAt value)) ⊆ value.names ∧
      value.names ⊆ namesAll ((List.range arity).map (elementAt value)) := by
  constructor
  · intro x member
    obtain ⟨e, inside, named⟩ := mem_namesAll.mp member
    obtain ⟨i, _, rfl⟩ := List.mem_map.mp inside
    rwa [elementAt, names_field] at named
  · intro x named
    refine mem_namesAll.mpr ⟨elementAt value 0, List.mem_map_of_mem ?_, by rwa [elementAt, names_field]⟩
    exact List.mem_range.mpr (Nat.pos_of_ne_zero some)

theorem tupleLower_flow {arity : Nat} (done : s.tupleLower arity = .ok s') :
    ∃ written, Flow firm options s s' written := by
  simp only [tupleLower, bind_eq_ok, Prod.exists, pop_eq_ok] at done
  obtain ⟨value, t, rfl, done⟩ := done
  split at done
  case isTrue =>
    cases done
    exact ⟨_, statement_flow t [value] ⟨by simp [locals], rfl⟩ (by simp [Spent])
      (fun around inside => by simpa [Scoped] using inside) (by simp [mentions])⟩
  case isFalse some =>
    cases done
    obtain ⟨written, flow⟩ := t.materialize_flow value "tuple" (by decide)
    obtain ⟨known, kept⟩ := namesAll_elements (t.materialize value "tuple").1 some
    exact ⟨_, flow.trans (swap_flow _ [_] _
      (fun x member => by simpa using .inr (known member)) (by simpa using kept))⟩

theorem tupleLift_flow {arity : Nat} (done : s.tupleLift arity = .ok s') :
    Flow firm options s s' [] := by
  simp only [tupleLift, bind_eq_ok, Prod.exists, popN_eq_ok, pure_eq_ok, Except.ok.injEq] at done
  obtain ⟨items, t, ⟨_, rfl⟩, rfl⟩ := done
  exact swap_flow t _ [.tuple items] (by simp) (by simp)

@[simp] theorem names_place (pointer : String) (access : Access) (base : Expr) (offset : Nat) :
    (place pointer access base offset).names = base.names := by simp [place]

theorem load_flow {access : Access} {offset : Nat} (done : s.load access offset = .ok s') :
    ∃ written, Flow firm options s s' written := by
  simp only [Emission.load, bind_eq_ok, Prod.exists, pop_eq_ok, pure_eq_ok, Except.ok.injEq] at done
  obtain ⟨base, t, rfl, rfl⟩ := done
  exact ⟨_, const_flow [base] (t.tmp_same "load") (t.tmp_hands "load" (by decide))
    (by simp) (by simp)⟩

theorem store_flow {access : Access} {offset : Nat} (done : s.store access offset = .ok s') :
    ∃ written, Flow firm options s s' written := by
  simp only [Emission.store, bind_eq_ok, Prod.exists, pop_eq_ok, pure_eq_ok, Except.ok.injEq] at done
  obtain ⟨base, t, rfl, value, t, rfl, rfl⟩ := done
  refine ⟨_, statement_flow t [value, base] ⟨by simp [locals], rfl⟩ (by simp [Spent])
    (fun around inside x member => ?_) fun x member => ?_⟩
  · simp only [names_place, names_convert, List.mem_append] at member
    exact inside (by simpa [or_comm] using member)
  · simpa [mentions, or_comm] using member

theorem names_areaPointer (direction : Direction) (area : Area) :
    (areaPointer direction area).names = [area.name] := by
  cases direction <;> simp [areaPointer]

/-- An area's name is on the stack. The area was there before, or its name is handed out now. -/
theorem area_flow {area : Area} {pointer : Expr} {names : List String}
    (pushed : s' = t.push pointer) (mentioned : pointer.names = [area.name])
    (exchange : t.operands = s.operands ∧ t.body = s.body ∧ t.params = s.params ∧
      t.blocks = s.blocks ∧ t.frames = s.frames)
    (hands : Hands options s t names) (member : area.name ∈ t.areas) (old : s.areas ⊆ t.areas)
    (new : ∀ x, t.areas.count x ≤ (s.areas ++ names).count x)
    (only : t.areas ⊆ s.areas ++ [area.name]) : Flow firm options s s' [] := by
  obtain ⟨operands, body, params, blocks, frames⟩ := exchange
  subst pushed
  have all : (t.push pointer).operands = pointer :: s.operands := by rw [push, operands]
  refine ⟨⟨body.trans (List.append_nil _).symm, params, old, ?_, ⟨names, hands.congr rfl rfl, fun x => ?_⟩,
    ?_, fun _ => ⟨?_, ?_, ?_, List.nil_subset _, spentAll_nil, by simp⟩⟩, blocks, ?_⟩
  · have same : (t.push pointer).frames = s.frames := frames
    rw [same]
    exact fun _ => id
  · have fewer := new x
    have held : (t.push pointer).held = t.areas ++ s.frames.flatMap (·.captures.names) :=
      congrArg (t.areas ++ List.flatMap _ ·) frames
    rw [held, Emission.held]
    simp only [localsAll_nil, List.flatMap_nil, List.nil_append, List.count_append] at fewer ⊢
    omega
  · intro around _ areas _ _ inside
    refine ⟨scopedAll_nil, ?_, by simp⟩
    rw [all, namesAll_cons, mentioned, declaredAll_nil, List.append_nil]
    exact List.append_subset.mpr ⟨by simpa using areas member, inside⟩
  · simp [pending, all]
  · rw [pending, all, namesAll_cons, mentioned]
    intro x inside
    have known := only inside
    simp only [mentionsAll_nil, List.flatMap_nil, List.nil_append, List.mem_append] at known ⊢
    exact known.imp_right .inl
  · have same : (t.push pointer).frames = s.frames := frames
    rw [same]
    exact List.subset_append_left _ _
  · have same : (t.push pointer).frames = s.frames := frames
    exact same.symm ▸ .refl _

theorem knownArea_flow {area : Area} {pointer : Expr} (mentioned : pointer.names = [area.name])
    (member : area.name ∈ s.areas) : Flow firm options s (s.push pointer) [] :=
  area_flow rfl mentioned ⟨rfl, rfl, rfl, rfl, rfl⟩ (.refl s) member (fun _ => id)
    (fun x => by simp) (List.subset_append_left _ _)

theorem returnArea_flow {direction : Direction} {size align : Nat} :
    Flow firm options s ((s.useReturnArea size align).2.push
      (areaPointer direction (s.useReturnArea size align).1)) [] := by
  unfold useReturnArea
  cases known : s.returnArea with
  | some area => exact knownArea_flow (names_areaPointer _ _) (by simp [areas, known])
  | none =>
    have same := s.fresh_same "ret_area"
    refine area_flow rfl (names_areaPointer _ _)
      ⟨same.operands, same.body, same.params, same.blocks, same.frames⟩
      ((s.fresh_hands _ (by decide)).congr (u := { (s.fresh "ret_area").2 with returnArea := _ }) rfl rfl)
      ?_ ?_ (fun x => ?_) ?_ <;> simp [areas, known, same.paramArea]

theorem paramArea_flow {direction : Direction} {size align : Nat} :
    Flow firm options s ((s.useParamArea size align).2.push
      (areaPointer direction (s.useParamArea size align).1)) [] := by
  unfold useParamArea
  cases known : s.paramArea with
  | some area => exact knownArea_flow (names_areaPointer _ _) (by simp [areas, known])
  | none =>
    have same := s.fresh_same "param_area"
    refine area_flow rfl (names_areaPointer _ _)
      ⟨same.operands, same.body, same.params, same.blocks, same.frames⟩
      ((s.fresh_hands _ (by decide)).congr (u := { (s.fresh "param_area").2 with paramArea := _ }) rfl rfl)
      ?_ ?_ (fun x => ?_) ?_ <;> simp [areas, known, same.returnArea, List.count_cons]

theorem fresh_pushAll (t : Emission) (values : List Expr) (name : String) :
    (t.pushAll values).fresh name = ((t.fresh name).1, (t.fresh name).2.pushAll values) := by
  have tmp : (t.pushAll values).tmp name = ((t.tmp name).1, (t.tmp name).2.pushAll values) := by
    unfold tmp use pushAll
    dsimp only
    split <;> rfl
  have use : (t.pushAll values).use name = (t.use name).pushAll values := by
    unfold use pushAll
    dsimp only
    split <;> rfl
  unfold fresh
  rw [tmp, use]
  have used : (t.pushAll values).used = t.used := rfl
  rw [used]
  split <;> rfl

theorem pushAll_write_push (t : Emission) (args : List Expr) (stmt : Stmt) (value : Expr) :
    ((t.pushAll args).write stmt).push value = (t.write stmt).pushAll (args ++ [value]) := by
  simp [pushAll, push, write]

theorem callWasm_flow {setting : Setting} {name : String} {sig : Signature}
    (done : s.callWasm setting name sig = .ok s') : ∃ written, Flow firm options s s' written := by
  by_cases inward : setting.direction ≠ .outward
  · simp [callWasm, inward, throw_eq_error] at done
  by_cases many : 1 < sig.results.length
  · simp [callWasm, inward, many, throw_eq_error] at done
  simp only [callWasm, inward, many, if_false, bind_eq_ok, Prod.exists, popN_eq_ok, pure_eq_ok] at done
  obtain ⟨args, t, ⟨_, rfl⟩, done⟩ := done
  -- The callee's name counts as an operand until the call mentions it.
  obtain ⟨written, named⟩ : ∃ written, Flow firm options (t.pushAll args)
      (((t.fresh "wasm_import").2.write (.const (t.fresh "wasm_import").1 none
        (externOf setting name))).pushAll (args ++ [.name (t.fresh "wasm_import").1])) written := by
    have declares : Flow firm options (t.pushAll args) ((((t.pushAll args).fresh "wasm_import").2.write
        (.const ((t.pushAll args).fresh "wasm_import").1 none (externOf setting name))).push
          (.name ((t.pushAll args).fresh "wasm_import").1))
          [.const ((t.pushAll args).fresh "wasm_import").1 none (externOf setting name)] :=
      const_flow (t := t.pushAll args) [] (fresh_same _ "wasm_import")
        (fresh_hands _ "wasm_import" (by decide)) (by simp [externOf]) (by simp)
    rw [fresh_pushAll, pushAll_write_push] at declares
    exact ⟨_, declares⟩
  split at done
  · cases done
    refine ⟨_, named.trans (statement_flow _ _ ⟨by simp [locals], rfl⟩ (by simp [Spent])
      (fun around inside => ?_) ?_)⟩
    · simpa [Scoped, and_comm] using inside
    · simp [mentions]
  · cases done
    exact ⟨_, named.trans (const_flow _ (fresh_same _ "ret") (fresh_hands _ _ (by decide))
      (by simp) (by simp))⟩

theorem implementation_names {setting : Setting} {f : Function} {target : Expr}
    (found : implementation setting f = .ok target) : target.names = [] := by
  rw [implementation.eq_def] at found
  split at found
  · cases found
    exact names_fixed _
  · cases found

theorem callInterface_flow {setting : Setting} {f : Function}
    (done : s.callInterface setting f = .ok s') : ∃ written, Flow firm options s s' written := by
  by_cases outward : setting.direction = .outward
  · simp [callInterface, outward, throw_eq_error] at done
  simp only [callInterface, outward, if_false, bind_eq_ok, Prod.exists, popN_eq_ok, pure_eq_ok] at done
  obtain ⟨args, t, ⟨_, rfl⟩, target, found, done⟩ := done
  have bare := implementation_names found
  have kept : Flow firm options (t.pushAll args) (((t.fresh "ret").2.write
      (.const (t.fresh "ret").1 none (call target args))).push (.name (t.fresh "ret").1)) _ :=
    const_flow _ (t.fresh_same "ret") (t.fresh_hands "ret" (by decide)) (by simp [bare]) (by simp [bare])
  rcases f.results.shape with ⟨types, plain⟩ | ⟨ty, types, plain⟩ | ⟨types, some, named⟩
  · simp only [types, List.isEmpty_nil, if_true, Except.ok.injEq] at done
    subst done
    exact ⟨_, statement_flow t _ ⟨by simp [locals], rfl⟩ (by simp [Spent])
      (fun around inside => by simpa [Scoped, bare] using inside) (by simp [mentions])⟩
  · simp only [types, plain, List.isEmpty_cons, Bool.false_eq_true, if_false, Except.ok.injEq] at done
    subst done
    exact ⟨_, kept⟩
  · simp only [types, named, List.isEmpty_iff, List.map_eq_nil_iff, some, if_false, if_true,
      Except.ok.injEq] at done
    subst done
    refine ⟨_, kept.trans (swap_flow _ [_] _ (fun x member => ?_) fun x member => ?_)⟩
    · obtain ⟨e, inside, mention⟩ := mem_namesAll.mp member
      obtain ⟨r, _, rfl⟩ := List.mem_map.mp inside
      exact List.mem_append_right _ (by simpa using mention)
    · obtain ⟨r, rest, same⟩ := List.exists_cons_of_ne_nil some
      rw [same]
      exact mem_namesAll.mpr ⟨_, List.mem_cons_self, by simpa using member⟩

theorem ret_flow {setting : Setting} {amount : Nat} (done : s.ret setting amount = .ok s') :
    ∃ written, Flow firm options s s' written := by
  simp only [Emission.ret, bind_eq_ok, Prod.exists, popN_eq_ok] at done
  obtain ⟨values, t, ⟨_, rfl⟩, done⟩ := done
  have back : ∀ value : Expr, value.names = namesAll values →
      Flow firm options (t.pushAll values) (t.write (.ret value)) [.ret value] := fun value same =>
    statement_flow t _ ⟨by simp [locals], rfl⟩ (by simp [Spent])
      (fun around inside => by simpa [Scoped, same] using inside) (by simp [mentions, same])
  split at done
  case isTrue =>
    split at done
    · cases done
    · cases done
      exact ⟨_, back _ (names_struct _ _)⟩
  case isFalse =>
    split at done
    · cases done
      exact ⟨_, .refl _⟩
    · cases done
      exact ⟨_, back _ (by simp)⟩
    · cases done

theorem namesAll_zeros (types : List Slot) : namesAll (types.map zeroOf) = [] := by
  induction types with
  | nil => simp
  | cons slot rest ih => simp [zeroOf, ih]

/-- Whatever has nothing to do with blocks lets names flow on. -/
theorem plain_flow {setting : Setting} {inst : Instruction} (apart : inst.Plain)
    (done : emit setting inst s = .ok s') : ∃ written, Flow firm options s s' written := by
  cases inst with
  | getArg nth =>
    simp only [emit, getArg] at done
    split at done
    case h_1 => cases done
    case h_2 name found =>
      cases done
      have param : name ∈ s.params := List.mem_of_getElem? found
      exact ⟨_, swap_flow s [] [.name name] (by simpa using param) (by simp)⟩
  | i32Const value =>
    cases done
    exact ⟨_, swap_flow s [] [_] (by simp) (by simp)⟩
  | constZero types =>
    cases done
    exact ⟨_, swap_flow s [] _ (by simp [namesAll_zeros]) (by simp)⟩
  | roll depth => exact ⟨_, roll_flow done⟩
  | numericWiden src dst => exact ⟨_, numericWiden_flow done⟩
  | numericNarrow src dst => exact ⟨_, numericNarrow_flow done⟩
  | bitcasts casts => exact ⟨_, bitcasts_flow done⟩
  | stringLower => exact lowerSlice_flow done
  | listCanonLower element => exact lowerSlice_flow done
  | stringLift => exact liftSlice_flow (by decide) done
  | listCanonLift element =>
    simp only [emit, listCanonLift, bind_eq_ok] at done
    obtain ⟨text, _, done⟩ := done
    exact liftSlice_flow (by decide) done
  | tupleLower id arity => exact tupleLower_flow done
  | tupleLift id arity => exact ⟨_, tupleLift_flow done⟩
  | load access offset => exact load_flow done
  | store access offset => exact store_flow done
  | returnPointer size align =>
    cases done
    exact ⟨_, returnArea_flow⟩
  | paramPointer size align =>
    cases done
    exact ⟨_, paramArea_flow⟩
  | callWasm name sig => exact callWasm_flow done
  | callInterface f => exact callInterface_flow done
  | ret amount => exact ret_flow done
  | recordLower | recordLift | enumLower | enumLift => cases done
  | blockBegin | blockEnd | optionLower | optionLift | listLower | listLift | iterElem
  | iterBasePointer | variantPayload => exact apart.elim

end

end ZigBindings.Emission
