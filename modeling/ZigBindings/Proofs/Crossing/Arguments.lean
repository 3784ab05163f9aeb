import ZigBindings.Proofs.Crossing.Calls
import ZigBindings.Proofs.Crossing.Typing

/-! Arguments survive a crossing: what a wrapper hands to its call is what the signature says, and
an entry point that is given it calls the implementation with the same values. -/

namespace ZigBindings
open Machine Instruction Crossing

namespace Group

section
variable {a : Arena} {types : List Ty} (g : Group a types)

/-- Operands stand for values of the group, in slots of their own or in the group's area. -/
def Stands (indirect : Bool) (m : Memory) (slots : List Operand) (values : List Value) : Prop :=
  if indirect then ∃ base, slots = [.slot .i32 base] ∧ base + g.extent.size ≤ 2 ^ 32 ∧
    Tree.EncodedAll m g.fields g.offsets base values
  else Tree.FlatAll m g.fields slots values

theorem Stands.slot_types {indirect : Bool} {m : Memory} {slots : List Operand} {values : List Value}
    {g : Group a types} (stands : g.Stands indirect m slots values) :
    slots.map Operand.type? = (g.row indirect).map some := by
  unfold Stands at stands
  unfold row
  cases indirect with
  | true =>
    obtain ⟨base, rfl, -⟩ := stands
    rfl
  | false => exact Tree.flatAll_types stands

theorem Stands.length {indirect : Bool} {m : Memory} {slots : List Operand} {values : List Value}
    {g : Group a types} (stands : g.Stands indirect m slots values) :
    slots.length = (g.row indirect).length := by
  have types := congrArg List.length stands.slot_types
  simpa using types

def HasArea (area : Option Nat) (st : Store) : Prop :=
  ∃ base, area = some base ∧ base + g.extent.size ≤ 2 ^ 32 ∧
    ∀ x, Within base (base + g.extent.size) x → Covered st.taken x

end

variable (scope : Outlook) {types : List Ty} (g : Group scope.arena types)

theorem pass_reaches (s : State) {values : List Value} (admits : Tree.AdmitsAll g.fields values)
    (args : scope.args = values.map .value)
    (area : g.spills = true → g.HasArea scope.paramArea s.store) :
    Reaches scope.allocator (Tree.AsksAll g.fields values) (run g.pass scope s) fun s' => ∃ slots st,
      s' = (s.withStore st).pushAll slots ∧ (∀ x, Covered s.store.taken x → Covered st.taken x) ∧
      Kept (Covered st.taken) st.memory fun m => g.Stands g.spills m slots values := by
  have fetched : scope.args.drop 0 = values.map .value := args
  unfold pass Stands
  cases spills : g.spills with
  | true =>
    obtain ⟨base, known, bound, inside⟩ := area spills
    have points : Points scope g.paramArea base := .ofParamArea known
    rw [if_pos rfl, run_append (Tree.storeAll_piece points.1 _ _ _).balanced
      (area_piece points.1).balanced]
    refine (Tree.run_storeAll g.unfolds points g.placed bound s admits fetched inside).bind
      fun s' holds => ?_
    obtain ⟨st, result, stored⟩ := holds
    subst result
    rw [run_single points.1.1, points.step]
    refine ⟨[.slot .i32 base], st, rfl, stored.changes.grows, (stored.kept.mono fun x member => ?_).imp
      fun m encoded => ?_⟩
    · rcases member with touches | newly
      · have small := g.small
        exact stored.changes.grows x (inside x (touches.within g.unfolds g.placed (by omega)))
      · exact newly.1
    · rw [if_pos rfl]
      exact ⟨base, rfl, bound, encoded⟩
  | false =>
    rw [if_neg (by simp)]
    refine (Tree.run_passAll g.unfolds s admits fetched).mono fun s' holds => ?_
    obtain ⟨slots, st, result, carried⟩ := holds
    refine ⟨slots, st, result, carried.changes.grows, (carried.kept.mono fun x newly => newly.1).imp
      fun m flats => ?_⟩
    rw [if_neg (by simp)]
    exact flats

theorem run_receive (s : State) {values : List Value}
    (stands : g.Stands g.spills s.store.memory scope.args values) :
    run g.receive scope s = .ok (s.pushAll (values.map .value)) := by
  unfold receive
  unfold Stands at stands
  cases spills : g.spills with
  | true =>
    rw [spills, if_pos rfl] at stands
    obtain ⟨base, args, bound, encoded⟩ := stands
    have points : Points scope (getArg 0) base := .ofArg (by rw [args]; rfl)
    rw [if_pos rfl]
    exact Tree.run_readAll (fun field _ => field.reads) g.unfolds points g.placed bound encoded
  | false =>
    rw [spills, if_neg (by simp)] at stands
    rw [if_neg (by simp)]
    exact Tree.run_receiveAll g.unfolds s stands rfl

end Group

/-- A wrapper on its way to its call may ask for an area of its parameters or of its results, and for
what its arguments need. -/
def Function.Asks (f : Function) (a : Arena) (values : List Value) (size align : Nat) : Prop :=
  a.AreaFor (f.params.map (·.2)) size align ∨ a.AreaFor f.results.types size align ∨
    a.BufferAmong values (f.params.map (·.2)) size align

namespace Call

variable {a : Arena} {f : Function} (c : Call a f)

theorem area_asked {types : List Ty} {g : Group a types} {used : Bool} {size align : Nat}
    (asked : g.area used = some (size, align)) : a.AreaFor types size align := by
  unfold Group.area at asked
  split at asked
  · cases asked
    exact g.recordLayout_eq
  · cases asked

theorem area_of_taken {types : List Ty} {g : Group a types} {used : Bool} {found : Option Nat}
    {before after : Store} (taken : AreaTaken (g.area used) found before after)
    (isUsed : used = true) : g.HasArea found after := by
  subst isUsed
  obtain ⟨base, known, bound, newly⟩ := taken.region _ _ rfl
  exact ⟨base, known, bound, fun x within => (newly x within).1⟩

/-- A wrapper comes to its call with operands that stand for its arguments, and on top of them the
address of its return area if it has one. -/
theorem leaves (allocator : Allocator) {values : List Value}
    (admits : Tree.AdmitsAll c.params.fields values) (st : Store) :
    Reaches allocator (f.Asks a values) (start allocator a c.outward (values.map .value) st) fun stop =>
      stop.At (callWasm f.name (c.signature .outward)) ∧
      ∃ slots area, stop.operands = slots ++ area ∧
        area.map Operand.type? = (if c.results.returned then [some Slot.i32] else []) ∧
        Kept (Covered stop.state.store.taken) stop.state.store.memory
          fun m => c.params.Stands c.params.spills m slots values := by
  refine start_reaches c.outward_split c.leave_calls rfl
    (fun size align asked => .inl (area_asked (c.outward_paramArea.symm.trans asked)))
    (fun size align asked => .inr (.inl (area_asked (c.outward_returnArea.symm.trans asked))))
    fun paramArea returnArea middle last first second => ?_
  rw [c.outward_paramArea] at first
  rw [c.outward_returnArea] at second
  have area : c.params.spills = true → c.params.HasArea paramArea last := fun spills => by
    obtain ⟨base, known, bound, inside⟩ := area_of_taken first spills
    exact ⟨base, known, bound, fun x within => second.extended.1 x (inside x within)⟩
  have passed := (Group.pass_reaches
    { allocator, arena := a, args := values.map .value, paramArea, returnArea } c.params
    { store := last } admits rfl area).widen fun size align asks =>
      (.inr (.inr (c.params.bufferAmong asks)) : f.Asks a values size align)
  unfold leave
  cases returned : c.results.returned with
  | true =>
    obtain ⟨base, known, -, -⟩ := area_of_taken second returned
    subst known
    have points : Points ⟨allocator, a, values.map .value, paramArea, some base, none, none, none⟩
        c.results.returnArea base := .ofReturnArea rfl
    rw [if_pos rfl, run_append c.params.pass_piece.balanced (Group.area_piece points.1).balanced]
    refine passed.bind fun s' holds => ?_
    obtain ⟨slots, st, result, grows, kept⟩ := holds
    subst result
    rw [run_single points.1.1, points.step, ← State.pushAll_single, ← State.pushAll_append]
    refine ⟨_, _, State.popN_pushAll _ ?_, ⟨rfl, rfl, rfl⟩, slots, _, rfl, rfl, kept⟩
    have length := kept.here.length
    simp [arity, signature, returned, length]
  | false =>
    rw [if_neg (by simp), List.append_nil]
    refine passed.mono fun s' holds => ?_
    obtain ⟨slots, st, result, grows, kept⟩ := holds
    subst result
    refine ⟨_, _, State.popN_pushAll _ ?_, ⟨rfl, rfl, rfl⟩, slots, [], by simp, rfl, kept⟩
    have length := kept.here.length
    simp [arity, signature, returned, length]

/-- An entry point that is given operands for its parameters calls the implementation with the
values that they stand for. -/
theorem enters (allocator : Allocator) {slots : List Operand} {values : List Value} {st : Store}
    (stands : Kept (Covered st.taken) st.memory
      fun m => c.params.Stands c.params.spills m slots values)
    (count : values.length = f.params.length) :
    Reaches allocator (a.AreaFor f.results.types) (start allocator a c.inward slots st) fun stop =>
      stop.At (callInterface f) ∧ stop.operands = values.map .value := by
  refine start_reaches c.inward_split c.params.receive_piece.calls rfl
    (fun size align asked => nomatch c.inward_paramArea.symm.trans asked)
    (fun size align asked => area_asked (c.inward_returnArea.symm.trans asked))
    fun paramArea returnArea middle last first second => ?_
  have here := (stands.stays (first.extended.trans second.extended)).here
  have received := Group.run_receive { allocator, arena := a, args := slots, paramArea, returnArea }
    c.params { store := last } here
  rw [received]
  exact ⟨_, _, State.popN_pushAll _ (by simp [arity, count]), ⟨rfl, rfl, rfl⟩, rfl⟩

end Call

/-- What can be asked of a function whose values are to be carried across: all types are built from
what can be carried, and neither its parameters nor its results need an area of 2^32 bytes. -/
structure Function.Crosses (f : Function) (a : Arena) : Prop where
  params : ∀ ty ∈ f.params.map (·.2), Crossable a ty
  results : ∀ ty ∈ f.results.types, Crossable a ty
  paramsFit : a.FitsAll (f.params.map (·.2))
  resultsFit : a.FitsAll f.results.types

/-- In a well-founded arena this asks for nothing but that all ids are in range, and that all kinds
the function's types lead to are carried and have layouts below 2^32 bytes. -/
theorem Function.Crosses.of_wellFounded {f : Function} {a : Arena} (wf : a.WellFounded)
    (inRange : ∀ ty ∈ f.types, a.InRange ty) (carried : ∀ ty ∈ f.types, a.Carries ty)
    (paramsFit : a.FitsAll (f.params.map (·.2))) (resultsFit : a.FitsAll f.results.types) :
    f.Crosses a := by
  have crossable : ∀ ty ∈ f.types, Crossable a ty := fun ty member =>
    .of_wellFounded wf (inRange ty member) (carried ty member)
  exact ⟨fun ty member => crossable ty (Function.param_mem member),
    fun ty member => crossable ty (Function.result_mem member), paramsFit, resultsFit⟩

theorem Function.Crosses.exists_call {f : Function} {a : Arena} (crosses : f.Crosses a) :
    Nonempty (Call a f) := by
  obtain ⟨params⟩ := Group.exists_group crosses.params crosses.paramsFit
  obtain ⟨results⟩ := Group.exists_group crosses.results crosses.resultsFit
  exact ⟨⟨params, results⟩⟩

/-- Arguments survive a crossing. A wrapper that is called with values of its parameters' types
comes to its call with slots of the types that its signature lists, and an entry point that is
given these slots, without the return pointer, calls the implementation with the same values. The
wrapper may be refused an area or a buffer of these values, the entry point only the area of its
results. -/
theorem Function.Crosses.arguments_survive {f : Function} {a : Arena} (crosses : f.Crosses a)
    (caller callee : Allocator) {values : List Value}
    (typed : InhabitsAll a values (f.params.map (·.2))) (st : Store) :
    ∃ outward inward sig, sequence a .outward f = .ok outward ∧ sequence a .inward f = .ok inward ∧
      signature a .outward f = .ok sig ∧
      Reaches caller (f.Asks a values) (start caller a outward (values.map .value) st) fun stop =>
        stop.At (callWasm f.name sig) ∧
        stop.operands.map Operand.type? = sig.params.map some ∧
        ∀ later, stop.state.store.Extends later →
          Reaches callee (a.AreaFor f.results.types) (start callee a inward
            (if sig.returnPointer then stop.operands.dropLast else stop.operands) later) fun inner =>
            inner.At (callInterface f) ∧ inner.operands = values.map .value := by
  obtain ⟨c⟩ := crosses.exists_call
  refine ⟨_, _, _, c.outward_eq, c.inward_eq, c.signature_eq .outward, ?_⟩
  refine (c.leaves caller (c.params.admitsAll typed) st).mono
    fun stop holds => ?_
  obtain ⟨reached, slots, area, pushed, last, kept⟩ := holds
  have row := kept.here.slot_types
  refine ⟨reached, ?_, fun later extended => ?_⟩
  · rw [pushed, List.map_append, row, last]
    cases returned : c.results.returned <;> simp [Call.signature, returned]
  · have handed : (if (c.signature .outward).returnPointer then stop.operands.dropLast
        else stop.operands) = slots := by
      have pointer : (c.signature .outward).returnPointer = c.results.returned := rfl
      have length := congrArg List.length last
      rw [pushed, pointer]
      cases returned : c.results.returned with
      | true =>
        obtain ⟨top, rfl⟩ := List.length_eq_one_iff.mp (by simpa [returned] using length)
        simp
      | false =>
        have none : area = [] := by simpa [returned] using length
        simp [none]
    rw [handed]
    exact c.enters callee (kept.stays extended) (by simpa using typed.length_eq)

/-- In a well-founded arena the implementation is called with what the wrapper was called with, for every
function whose types are carried. -/
theorem arguments_arrive_of_wellFounded {f : Function} {a : Arena} (wf : a.WellFounded)
    (inRange : ∀ ty ∈ f.types, a.InRange ty) (carried : ∀ ty ∈ f.types, a.Carries ty)
    (paramsFit : a.FitsAll (f.params.map (·.2))) (resultsFit : a.FitsAll f.results.types)
    (caller callee : Allocator) {values : List Value}
    (typed : InhabitsAll a values (f.params.map (·.2))) (st : Store) :
    ∃ outward inward, sequence a .outward f = .ok outward ∧ sequence a .inward f = .ok inward ∧
      Reaches caller (f.Asks a values) (start caller a outward (values.map .value) st) fun stop =>
        ∃ handed, handed <+: stop.operands ∧
          Reaches callee (a.AreaFor f.results.types) (start callee a inward handed stop.state.store)
            fun inner => inner.At (callInterface f) ∧ inner.operands = values.map .value := by
  have crosses := Function.Crosses.of_wellFounded wf inRange carried paramsFit resultsFit
  obtain ⟨c⟩ := crosses.exists_call
  refine ⟨_, _, c.outward_eq, c.inward_eq, ?_⟩
  refine (c.leaves caller (c.params.admitsAll typed) st).mono fun stop holds => ?_
  obtain ⟨-, slots, area, pushed, -, kept⟩ := holds
  have count : values.length = f.params.length := by simpa using typed.length_eq
  exact ⟨slots, ⟨area, pushed.symm⟩, c.enters callee (kept.stays (.refl _)) count⟩

def labelled : Arena := #[⟨.record [("level", .prim .u8), ("label", .ref 1)], some "entry"⟩,
  ⟨.option (.prim .string), none⟩]

theorem labelled_wellFounded : labelled.WellFounded := .of_ranked (1 - ·) (by decide)

theorem labelled_carries (ty : Ty) : labelled.Carries ty := fun id kind _ found => by
  match id with
  | 0 =>
    cases found
    exact ⟨trivial, ⟨16, 4⟩, by decide +kernel, by decide⟩
  | 1 =>
    cases found
    exact ⟨trivial, ⟨12, 4⟩, by decide +kernel, by decide⟩
  | id + 2 => cases found

theorem labelled_crossable : Crossable labelled (.ref 0) :=
  .of_wellFounded labelled_wellFounded (inRange_of_isBefore (by decide)) (labelled_carries _)

def relabel : Function where
  name := "relabel"
  params := [("entry", .ref 0), ("count", .prim .u64)]
  results := { named := [("entry", .ref 0), ("old", .prim .u8)] }

theorem relabel_crosses : relabel.Crosses labelled := by
  have before : ∀ ty ∈ relabel.types, ty.isBefore labelled.size := by decide
  exact .of_wellFounded labelled_wellFounded (fun ty used => inRange_of_isBefore (before ty used))
    (fun ty _ => labelled_carries ty) ⟨⟨24, 8⟩, by decide +kernel, by decide⟩
    ⟨⟨20, 4⟩, by decide +kernel, by decide⟩

def hi : Value := .product .record [.scalar 7, .present (.text [104, 105])]

theorem hi_inhabits : Inhabits labelled hi (.ref 0) := by
  refine .product rfl rfl rfl fun i v ty first second => ?_
  match i with
  | 0 => cases first; cases second; exact .scalar (by decide) (by decide)
  | 1 => cases first; cases second; exact .present rfl (.text (by decide))
  | i + 2 => cases first

def Machine.Store.empty : Store := ⟨fun _ => 0, []⟩

theorem relabel_arguments : ∃ outward inward sig stop inner,
    sequence labelled .outward relabel = .ok outward ∧
    sequence labelled .inward relabel = .ok inward ∧
    signature labelled .outward relabel = .ok sig ∧
    start .bump labelled outward ([hi, .scalar 5].map .value) .empty = .ok stop ∧
    stop.At (callWasm "relabel" sig) ∧ stop.operands.map Operand.type? = sig.params.map some ∧
    start .bump labelled inward (if sig.returnPointer then stop.operands.dropLast else stop.operands)
      stop.state.store = .ok inner ∧
    inner.At (callInterface relabel) ∧ inner.operands = [hi, .scalar 5].map .value := by
  have typed : InhabitsAll labelled [hi, .scalar 5] (relabel.params.map (·.2)) :=
    .cons hi_inhabits (.cons (.scalar (by decide) (by decide)) .nil)
  obtain ⟨outward, inward, sig, out, inn, signed, survive⟩ :=
    relabel_crosses.arguments_survive .bump .bump typed .empty
  have ran : (do
      let outward ← sequence labelled .outward relabel
      let inward ← sequence labelled .inward relabel
      let sig ← signature labelled .outward relabel
      return (do
        let stop ← start .bump labelled outward ([hi, .scalar 5].map .value) .empty
        start .bump labelled inward
          (if sig.returnPointer then stop.operands.dropLast else stop.operands)
          stop.state.store).isOk) = .ok true := by
    decide +kernel
  simp only [out, inn, signed, ok_bind, pure_eq_ok, Except.ok.injEq, isOk_iff, bind_eq_ok] at ran
  obtain ⟨inner, stop, started, entered⟩ := ran
  rw [started, Reaches.ok] at survive
  obtain ⟨stands, types, enter⟩ := survive
  have entry := enter _ (.refl _)
  rw [entered, Reaches.ok] at entry
  exact ⟨outward, inward, sig, stop, inner, out, inn, signed, started, stands, types, entered, entry⟩

end ZigBindings
