import ZigBindings.Emission.Emit
import ZigBindings.Proofs.Crossing.Twins

/-! Emission from states that have the same names in use, in whatever order they came to be used. All
that is written is the same, also for instructions that differ in the numbers of definitions. -/

namespace ZigBindings

namespace Emission
open Zig

/-- The same state, up to the order of the names in use. -/
def Like (s t : Emission) : Prop :=
  ∃ used, s.used.Perm used ∧ t = { s with used }

def Yields {α : Type} (p q : α × Emission) : Prop := p.1 = q.1 ∧ p.2.Like q.2

variable {s t : Emission}

theorem Like.refl (s : Emission) : s.Like s := ⟨s.used, .refl _, rfl⟩

theorem Like.trans {u : Emission} (first : s.Like t) (second : t.Like u) : s.Like u := by
  obtain ⟨used, perm, rfl⟩ := first
  obtain ⟨others, also, rfl⟩ := second
  exact ⟨others, perm.trans also, rfl⟩

theorem freeNumber_perm {used others : List String} (perm : used.Perm others) (stem : String) (n tries : Nat) :
    freeNumber used stem n tries = freeNumber others stem n tries := by
  induction tries generalizing n with
  | zero => rfl
  | succ tries ih => rw [freeNumber, freeNumber, perm.contains_eq, ih]

section
variable (like : s.Like t)
include like

theorem Like.write (stmt : Stmt) : (s.write stmt).Like (t.write stmt) := by
  obtain ⟨used, perm, rfl⟩ := like
  exact ⟨used, perm, rfl⟩

theorem Like.push (value : Expr) : (s.push value).Like (t.push value) := by
  obtain ⟨used, perm, rfl⟩ := like
  exact ⟨used, perm, rfl⟩

theorem Like.pushAll (values : List Expr) : (s.pushAll values).Like (t.pushAll values) := by
  obtain ⟨used, perm, rfl⟩ := like
  exact ⟨used, perm, rfl⟩

theorem Like.use (name : String) : (s.use name).Like (t.use name) := by
  obtain ⟨used, perm, rfl⟩ := like
  simp only [Emission.use, perm.contains_eq]
  split
  · exact ⟨used, perm, rfl⟩
  · exact ⟨used ++ [name], perm.append_right _, rfl⟩

theorem Like.reserve (names : List String) : (s.reserve names).Like (t.reserve names) := by
  unfold Emission.reserve
  induction names generalizing s t with
  | nil => exact like
  | cons name rest ih => exact ih (like.use name)

omit like in
theorem use_comm (s : Emission) (x y : String) : ((s.use x).use y).Like ((s.use y).use x) := by
  by_cases same : x = y
  · rw [same]
    exact .refl _
  · by_cases left : x ∈ s.used <;> by_cases right : y ∈ s.used
    · simp [Emission.use, left, right, Like.refl]
    · simp [Emission.use, left, right, Like.refl]
    · simp [Emission.use, left, right, Like.refl]
    · refine ⟨s.used ++ [y] ++ [x], ?_, ?_⟩
      · simpa [Emission.use, left, right, Ne.symm same] using (List.Perm.swap y x []).append_left s.used
      · simp [Emission.use, left, right, same, Ne.symm same]

theorem Like.reserve_perm {names others : List String} (perm : names.Perm others) :
    (s.reserve names).Like (t.reserve others) := by
  refine (like.reserve names).trans ?_
  clear like
  unfold Emission.reserve
  induction perm generalizing t with
  | nil => exact .refl _
  | cons name _ ih => exact ih
  | swap x y rest => exact (use_comm t y x).reserve rest
  | trans _ _ first second => exact first.trans second

theorem Like.tmp (stem : String) : Yields (s.tmp stem) (t.tmp stem) := by
  obtain ⟨used, perm, rfl⟩ := like
  have number := freeNumber_perm perm stem ((s.counters.lookup stem).getD 0) s.used.length
  rw [Emission.tmp, Emission.tmp]
  dsimp only
  rw [← perm.length_eq, ← number]
  refine ⟨rfl, Like.use ?_ _⟩
  exact ⟨used, perm, rfl⟩

theorem Like.contains (name : String) : s.used.contains name = t.used.contains name := by
  obtain ⟨used, perm, rfl⟩ := like
  exact perm.contains_eq

theorem Like.fresh (name : String) : Yields (s.fresh name) (t.fresh name) := by
  rw [Emission.fresh, Emission.fresh, like.contains]
  split
  · exact like.tmp name
  · exact ⟨rfl, like.use name⟩

theorem Like.freshAll (names : List String) : Yields (s.freshAll names) (t.freshAll names) := by
  induction names generalizing s t with
  | nil => exact ⟨rfl, like⟩
  | cons name rest ih =>
    obtain ⟨first, next⟩ := like.fresh name
    obtain ⟨others, last⟩ := ih next
    exact ⟨congrArg₂ _ first others, last⟩

theorem Like.tmpAll (stem : String) (n : Nat) : Yields (s.tmpAll stem n) (t.tmpAll stem n) := by
  induction n generalizing s t with
  | zero => exact ⟨rfl, like⟩
  | succ n ih =>
    obtain ⟨first, next⟩ := like.tmp stem
    obtain ⟨others, last⟩ := ih next
    exact ⟨congrArg₂ _ first others, last⟩

theorem Like.params (names : List String) :
    ({ s with params := names } : Emission).Like { t with params := names } := by
  obtain ⟨used, perm, rfl⟩ := like
  exact ⟨used, perm, rfl⟩

theorem Like.bindParams (names : List String) : (s.bindParams names).Like (t.bindParams names) := by
  obtain ⟨same, next⟩ := like.freshAll names
  rw [Emission.bindParams, Emission.bindParams]
  dsimp only
  rw [same]
  exact next.params _

theorem Like.materialize (value : Expr) (stem : String) :
    Yields (s.materialize value stem) (t.materialize value stem) := by
  rw [Emission.materialize, Emission.materialize]
  split
  · exact ⟨rfl, like⟩
  · obtain ⟨same, next⟩ := like.tmp stem
    dsimp only
    rw [same]
    exact ⟨rfl, next.write _⟩

theorem Like.pop : Agree Yields s.pop t.pop := by
  obtain ⟨used, perm, rfl⟩ := like
  unfold Emission.pop
  dsimp only
  split
  · exact .throw _ _
  · exact .pure ⟨rfl, used, perm, rfl⟩

theorem Like.popN (n : Nat) : Agree Yields (s.popN n) (t.popN n) := by
  obtain ⟨used, perm, rfl⟩ := like
  unfold Emission.popN
  dsimp only
  split
  · exact .throw _ _
  · exact .pure ⟨rfl, used, perm, rfl⟩

theorem Like.roll (depth : Nat) : Agree Like (s.roll depth) (t.roll depth) := by
  obtain ⟨used, perm, rfl⟩ := like
  unfold Emission.roll
  dsimp only
  split
  · exact .throw _ _
  · exact .pure ⟨used, perm, rfl⟩

theorem Like.beginBlock (inputs : Nat) (loop : Bool) :
    Agree Like (s.beginBlock inputs loop) (t.beginBlock inputs loop) := by
  refine (like.popN inputs).bind fun (moved, s) (others, t) ⟨same, next⟩ => .pure ?_
  obtain ⟨used, perm, rfl⟩ := next
  cases same
  exact ⟨used, perm, rfl⟩

theorem Like.endBlock (results : Nat) : Agree Like (s.endBlock results) (t.endBlock results) := by
  obtain ⟨used, perm, rfl⟩ := like
  unfold Emission.endBlock
  dsimp only
  split
  · exact .throw _ _
  · split
    · exact .throw _ _
    · exact .pure ⟨used, perm, rfl⟩

theorem Like.popBlock : Agree Yields s.popBlock t.popBlock := by
  obtain ⟨used, perm, rfl⟩ := like
  unfold Emission.popBlock
  dsimp only
  split
  · exact .throw _ _
  · exact .pure ⟨rfl, used, perm, rfl⟩

theorem Like.frames (frames : List Frame) : ({ s with frames } : Emission).Like { t with frames } := by
  obtain ⟨used, perm, rfl⟩ := like
  exact ⟨used, perm, rfl⟩

theorem Like.frames_eq : s.frames = t.frames := by
  obtain ⟨used, perm, rfl⟩ := like
  rfl

theorem Like.payload : Agree Yields s.payload t.payload := by
  unfold Emission.payload
  rw [like.frames_eq]
  split
  · exact .throw _ _
  · split
    · exact .pure ⟨rfl, like⟩
    · obtain ⟨same, next⟩ := like.tmp "payload"
      dsimp only
      rw [same]
      exact .pure ⟨rfl, next.frames _⟩

theorem Like.loopFrame : Agree Eq s.loopFrame t.loopFrame := by
  unfold Emission.loopFrame
  rw [like.frames_eq]
  exact .rfl

theorem Like.item : Agree Yields s.item t.item := by
  refine like.loopFrame.bind_eq fun frame => ?_
  split
  · exact .pure ⟨rfl, like⟩
  · obtain ⟨same, next⟩ := like.tmp "elem"
    dsimp only
    rw [same, next.frames_eq]
    exact .pure ⟨rfl, next.frames _⟩

theorem Like.base : Agree Yields s.base t.base := by
  refine like.loopFrame.bind_eq fun frame => ?_
  split
  · exact .pure ⟨rfl, like⟩
  · obtain ⟨same, next⟩ := like.tmp "base"
    obtain ⟨also, last⟩ := next.tmp "index"
    dsimp only
    rw [same, also, last.frames_eq]
    exact .pure ⟨rfl, last.frames _⟩

theorem Like.useReturnArea (size align : Nat) : Yields (s.useReturnArea size align) (t.useReturnArea size align) := by
  have same : s.returnArea = t.returnArea := by
    obtain ⟨used, perm, rfl⟩ := like
    rfl
  unfold Emission.useReturnArea
  rw [same]
  split
  · exact ⟨rfl, like⟩
  · obtain ⟨same, used, perm, next⟩ := like.fresh "ret_area"
    dsimp only
    rw [same, next]
    exact ⟨rfl, used, perm, rfl⟩

theorem Like.useParamArea (size align : Nat) : Yields (s.useParamArea size align) (t.useParamArea size align) := by
  have same : s.paramArea = t.paramArea := by
    obtain ⟨used, perm, rfl⟩ := like
    rfl
  unfold Emission.useParamArea
  rw [same]
  split
  · exact ⟨rfl, like⟩
  · obtain ⟨same, used, perm, next⟩ := like.fresh "param_area"
    dsimp only
    rw [same, next]
    exact ⟨rfl, used, perm, rfl⟩

theorem Like.checkFinished : Agree Eq s.checkFinished t.checkFinished := by
  obtain ⟨used, perm, rfl⟩ := like
  exact .rfl

/-! ### Instructions on single values -/

omit like in
theorem takeName_agree {f : Emission → Except Fault (String × Emission)} (taken : Agree Yields (f s) (f t)) :
    Agree Like (f s >>= fun p => pure (p.2.push (.name p.1))) (f t >>= fun p => pure (p.2.push (.name p.1))) :=
  taken.bind fun (name, s) (_, t) ⟨same, next⟩ => by
    cases same
    exact .pure (next.push _)

theorem Like.getArg (nth : Nat) : Agree Like (s.getArg nth) (t.getArg nth) := by
  have same : s.params = t.params := by
    obtain ⟨used, perm, rfl⟩ := like
    rfl
  unfold Emission.getArg
  rw [same]
  split
  · exact .throw _ _
  · exact .pure (like.push _)

theorem Like.numericWiden (src : Primitive) (dst : Slot) :
    Agree Like (s.numericWiden src dst) (t.numericWiden src dst) := by
  refine Agree.rfl.bind_eq fun _ => ?_
  refine like.pop.bind fun (value, s) (other, t) ⟨same, next⟩ => ?_
  cases same
  exact Agree.rfl.bind_eq fun slot => .pure (next.push slot)

theorem Like.numericNarrow (src : Slot) (dst : Primitive) :
    Agree Like (s.numericNarrow src dst) (t.numericNarrow src dst) := by
  refine Agree.rfl.bind_eq fun _ => ?_
  refine like.pop.bind fun (value, s) (other, t) ⟨same, next⟩ => ?_
  cases same
  exact Agree.rfl.bind_eq fun slot => .pure (next.push slot)

theorem Like.bitcasts (casts : List (Slot × Slot)) : Agree Like (s.bitcasts casts) (t.bitcasts casts) := by
  refine (like.popN _).bind fun (values, s) (others, t) ⟨same, next⟩ => ?_
  cases same
  exact .pure (next.pushAll _)

theorem Like.lowerSlice : Agree Like s.lowerSlice t.lowerSlice := by
  refine like.pop.bind fun (value, s) (other, t) ⟨same, next⟩ => ?_
  cases same
  obtain ⟨same, last⟩ := next.materialize value "slice"
  dsimp only
  rw [same]
  exact .pure (last.pushAll _)

theorem Like.liftSlice (element stem : String) : Agree Like (s.liftSlice element stem) (t.liftSlice element stem) := by
  refine like.pop.bind fun (length, s) (_, t) ⟨same, next⟩ => ?_
  cases same
  refine next.pop.bind fun (pointer, s) (_, t) ⟨same, next⟩ => ?_
  cases same
  obtain ⟨same, last⟩ := next.tmp stem
  dsimp only
  rw [same]
  exact .pure ((last.write _).push _)

theorem Like.tupleLower (arity : Nat) : Agree Like (s.tupleLower arity) (t.tupleLower arity) := by
  refine like.pop.bind fun (value, s) (_, t) ⟨same, next⟩ => ?_
  cases same
  dsimp only
  split
  · exact .pure (next.write _)
  · obtain ⟨same, last⟩ := next.materialize value "tuple"
    rw [same]
    exact .pure (last.pushAll _)

theorem Like.tupleLift (arity : Nat) : Agree Like (s.tupleLift arity) (t.tupleLift arity) := by
  refine (like.popN arity).bind fun (items, s) (_, t) ⟨same, next⟩ => ?_
  cases same
  exact .pure (next.push _)

theorem Like.load (access : Access) (offset : Nat) : Agree Like (s.load access offset) (t.load access offset) := by
  refine like.pop.bind fun (base, s) (_, t) ⟨same, next⟩ => ?_
  cases same
  obtain ⟨same, last⟩ := next.tmp "load"
  dsimp only
  rw [same]
  exact .pure ((last.write _).push _)

theorem Like.store (access : Access) (offset : Nat) : Agree Like (s.store access offset) (t.store access offset) := by
  refine like.pop.bind fun (base, s) (_, t) ⟨same, next⟩ => ?_
  cases same
  refine next.pop.bind fun (value, s) (_, t) ⟨same, next⟩ => ?_
  cases same
  exact .pure (next.write _)

/-! ### Instructions that consume blocks -/

theorem Like.reserveSlots (slots : List String) (results : List Slot) :
    ((slots.zip results).foldl (fun s (slot, ty) => s.write (.slotVar slot ty.name)) (s.reserve slots)).Like
      ((slots.zip results).foldl (fun s (slot, ty) => s.write (.slotVar slot ty.name)) (t.reserve slots)) := by
  have declared : ∀ (rows : List (String × Slot)) {s t : Emission}, s.Like t →
      (rows.foldl (fun s (slot, ty) => s.write (.slotVar slot ty.name)) s).Like
        (rows.foldl (fun s (slot, ty) => s.write (.slotVar slot ty.name)) t) := by
    intro rows
    induction rows with
    | nil => exact id
    | cons row rest ih => exact fun like => ih (like.write _)
  exact declared _ (like.reserve slots)

theorem Like.optionLower (results : List Slot) : Agree Like (s.optionLower results) (t.optionLower results) := by
  refine like.popBlock.bind fun (present, s) (_, t) ⟨same, next⟩ => ?_
  cases same
  refine next.popBlock.bind fun (absent, s) (_, t) ⟨same, next⟩ => ?_
  cases same
  refine Agree.rfl.bind_eq fun _ => Agree.rfl.bind_eq fun _ => ?_
  refine next.pop.bind fun (value, s) (_, t) ⟨same, next⟩ => ?_
  cases same
  obtain ⟨same, last⟩ := next.tmp "option"
  dsimp only
  rw [same]
  exact .pure (((last.reserveSlots _ results).write _).pushAll _)

end

variable {R : Nat → Nat → Prop} {a b : Arena} {payload other : Ty}

section
variable (like : s.Like t) (twins : Twins R a b) (alike : payload.Alike R other)
include like twins alike

theorem Like.listCanonLift : Agree Like (s.listCanonLift a payload) (t.listCanonLift b other) :=
  (twins.spell alike).bind_eq fun _ => like.liftSlice _ _

theorem Like.optionLift : Agree Like (s.optionLift a payload) (t.optionLift b other) := by
  refine like.popBlock.bind fun (present, s) (_, t) ⟨same, next⟩ => ?_
  cases same
  refine next.popBlock.bind fun (absent, s) (_, t) ⟨same, next⟩ => ?_
  cases same
  refine Agree.rfl.bind_eq fun _ => Agree.rfl.bind_eq fun _ => ?_
  refine next.pop.bind fun (discriminant, s) (_, t) ⟨same, next⟩ => ?_
  cases same
  obtain ⟨same, last⟩ := next.tmp "option"
  dsimp only at same last ⊢
  rw [same]
  refine (twins.spell alike).bind_eq fun type => ?_
  exact .pure ((last.write _).push _)

theorem Like.listLift (size : Nat) : Agree Like (s.listLift a payload size) (t.listLift b other size) := by
  refine like.popBlock.bind fun (block, s) (_, t) ⟨same, next⟩ => ?_
  cases same
  refine Agree.rfl.bind_eq fun _ => ?_
  refine next.pop.bind fun (length, s) (_, t) ⟨same, next⟩ => ?_
  cases same
  refine next.pop.bind fun (pointer, s) (_, t) ⟨same, next⟩ => ?_
  cases same
  refine (twins.spell alike).bind_eq fun type => ?_
  obtain ⟨same, next⟩ := next.tmp "result"
  dsimp only
  rw [same]
  obtain ⟨same, last⟩ := (next.write (.const (t.tmp "result").1 none (allocate type (Expr.usizeOf length)))).tmp "item"
  rw [same]
  exact .pure ((last.write _).push _)

end

end Emission

/-- Settings for functions that belong together. -/
structure Setting.Alike (R : Nat → Nat → Prop) (x y : Setting) : Prop where
  twins : Twins R x.arena y.arena
  function : x.function.Alike R y.function
  direction : x.direction = y.direction
  signature : x.signature = y.signature
  path : x.path = y.path
  linkName : x.linkName = y.linkName
  implParam : x.implParam = y.implParam

namespace Emission
open Zig

variable {R : Nat → Nat → Prop} {x y : Setting} {s t : Emission} (settings : x.Alike R y) (like : s.Like t)
include settings like

theorem Like.listLower (size align : Nat) : Agree Like (s.listLower x size align) (t.listLower y size align) := by
  refine like.popBlock.bind fun (block, s) (_, t) ⟨same, next⟩ => ?_
  cases same
  refine Agree.rfl.bind_eq fun _ => ?_
  refine next.pop.bind fun (value, s) (_, t) ⟨same, next⟩ => ?_
  cases same
  obtain ⟨same, next⟩ := next.materialize value "vec"
  dsimp only at same next ⊢
  rw [same]
  obtain ⟨same, next⟩ := next.tmp "result"
  rw [same]
  split
  · exact .throw _ _
  · rw [settings.direction]
    split
    · exact .pure ((((next.write _).write _).write _).pushAll _)
    · exact .pure (((next.write _).write _).pushAll _)

theorem Like.callWasm (name : String) (sig : Signature) :
    Agree Like (s.callWasm x name sig) (t.callWasm y name sig) := by
  have same : externOf x name = externOf y name := by
    rw [externOf, externOf, settings.signature, settings.linkName]
  unfold Emission.callWasm
  dsimp only
  rw [same, settings.direction]
  split
  · exact .throw _ _
  · split
    · exact .throw _ _
    · refine (like.popN _).bind fun (args, s) (_, t) ⟨same, next⟩ => ?_
      cases same
      obtain ⟨same, next⟩ := next.fresh "wasm_import"
      dsimp only at same next ⊢
      rw [same]
      split
      · exact .pure ((next.write _).write _)
      · obtain ⟨same, last⟩ := (next.write (.const (t.fresh "wasm_import").1 none (externOf y name))).fresh "ret"
        rw [same]
        exact .pure ((last.write _).push _)

theorem Like.callInterface {f g : Function} (alike : f.Alike R g) :
    Agree Like (s.callInterface x f) (t.callInterface y g) := by
  have same : implementation x f = implementation y g := by
    rw [implementation, implementation, settings.implParam, settings.path, alike.name]
  have fields : ∀ result : String, (f.results.named.map fun r => Expr.field (.name result) (Name.identifier r.1)) =
      g.results.named.map fun r => Expr.field (.name result) (Name.identifier r.1) :=
    fun result => names_eq alike.named fun name => Expr.field (.name result) (Name.identifier name)
  have empty : f.results.types.isEmpty = g.results.types.isEmpty := by
    rw [Bool.eq_iff_iff, List.isEmpty_iff_length_eq_zero, List.isEmpty_iff_length_eq_zero,
      alike.types.length_eq]
  unfold Emission.callInterface
  dsimp only
  rw [same, settings.direction, alike.params.length_eq, alike.isNamed, empty]
  split
  · exact .throw _ _
  · refine (like.popN _).bind fun (args, s) (_, t) ⟨same, next⟩ => ?_
    cases same
    refine Agree.rfl.bind_eq fun target => ?_
    dsimp only
    split
    · exact .pure (next.write _)
    · obtain ⟨same, last⟩ := next.fresh "ret"
      dsimp only at same last ⊢
      rw [same, fields]
      split
      · exact .pure ((last.write _).pushAll _)
      · exact .pure ((last.write _).push _)

theorem Like.ret (amount : Nat) : Agree Like (s.ret x amount) (t.ret y amount) := by
  refine (like.popN amount).bind fun (values, s) (_, t) ⟨same, next⟩ => ?_
  cases same
  have fields := names_eq settings.function.named Name.identifier
  dsimp only
  rw [settings.direction, settings.function.isNamed, settings.function.named.length_eq, fields]
  split
  · split
    · exact .throw _ _
    · exact .pure (next.write _)
  · split
    · exact .pure next
    · exact .pure (next.write _)
    · exact .throw _ _

/-! ### Whole sequences -/

theorem emit_agree {i j : Instruction} (alike : i.Alike R j) : Agree Like (emit x i s) (emit y j t) := by
  cases alike with
  | listCanonLower => exact like.lowerSlice
  | listCanonLift same => exact like.listCanonLift settings.twins same
  | listLower size align => exact like.listLower settings size align
  | listLift size same => exact like.listLift settings.twins same size
  | tupleLower arity => exact like.tupleLower arity
  | tupleLift arity => exact like.tupleLift arity
  | recordLower | recordLift | enumLower | enumLift => exact .throw _ _
  | optionLower results => exact like.optionLower results
  | optionLift same => exact like.optionLift settings.twins same
  | callInterface same => exact like.callInterface settings same
  | plain plain =>
    cases i with
    | getArg nth => exact like.getArg nth
    | i32Const => exact .pure (like.push _)
    | constZero => exact .pure (like.pushAll _)
    | roll depth => exact like.roll depth
    | numericWiden src dst => exact like.numericWiden src dst
    | numericNarrow src dst => exact like.numericNarrow src dst
    | bitcasts casts => exact like.bitcasts casts
    | stringLower => exact like.lowerSlice
    | stringLift => exact like.liftSlice _ _
    | iterElem => exact takeName_agree like.item
    | iterBasePointer => exact takeName_agree like.base
    | variantPayload => exact takeName_agree like.payload
    | blockBegin inputs loop => exact like.beginBlock inputs loop
    | blockEnd results => exact like.endBlock results
    | load access offset => exact like.load access offset
    | store access offset => exact like.store access offset
    | returnPointer size align =>
      obtain ⟨same, next⟩ := like.useReturnArea size align
      dsimp only [emit]
      rw [same, settings.direction]
      exact .pure (next.push _)
    | paramPointer size align =>
      obtain ⟨same, next⟩ := like.useParamArea size align
      dsimp only [emit]
      rw [same, settings.direction]
      exact .pure (next.push _)
    | callWasm name sig => exact like.callWasm settings name sig
    | ret amount => exact like.ret settings amount
    | _ => cases plain

theorem emitAll_agree {code others : List Instruction} (alike : CodeAlike R code others) :
    Agree Like (emitAll x code s) (emitAll y others t) :=
  Agree.foldlM alike (fun _ _ _ _ like same => emit_agree settings like same) like

end Emission

end ZigBindings
