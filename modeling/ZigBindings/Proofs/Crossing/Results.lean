import ZigBindings.Proofs.Crossing.Arguments
import ZigBindings.Proofs.Crossing.Copying
import ZigBindings.Proofs.Crossing.Discipline
import ZigBindings.Proofs.Crossing.Unrolled

/-! Results survive a crossing when they go through a return area, when there is at most one of
them, and when none of them has a slot and they read the same from both ends. In all other cases
the entry point or the wrapper gets stuck. -/

namespace ZigBindings
open Machine Instruction Crossing

/-- Whether results come through in order. Without a return area they are lowered and lifted one
after another, and nothing is rolled in between. -/
def Signature.InOrder (sig : Signature) (values : List Value) : Prop :=
  sig.returnPointer = true ∨ values.length ≤ 1 ∨ sig.results = [] ∧ values.reverse = values

/-- A wrapper goes on with what the entry point has handed back: with the slots, or with the
contents of the entry point's area copied to its own. -/
def Machine.Stop.comeBack (stop : Stop) (sig : Signature) (handed : List Operand) (size : Nat)
    (st : Store) : Except Trap Stop :=
  if sig.returnPointer then
    match stop.operands.getLast?, handed with
    | some (.slot .i32 target), [.slot .i32 source] =>
      stop.resume [] { st with memory := st.memory.copy source target size }
    | _, _ => .error .stuck
  else stop.resume handed st

namespace Group

/-- What is handed back stands for values: as slots of their own, or with the address of an area
that was not taken before. -/
def Given {a : Arena} {types : List Ty} (g : Group a types) (before after : Store)
    (handed : List Operand) (values : List Value) : Prop :=
  if g.returned then ∃ base, handed = [.slot .i32 base] ∧
    (∀ x, Within base (base + g.extent.size) x → ¬ Covered before.taken x) ∧
    Kept (Newly before after) after.memory fun m =>
      Tree.EncodedAll m g.fields g.offsets base values
  else Kept (Covered after.taken) after.memory fun m => Tree.FlatAll m g.fields handed values

variable {scope : Outlook} {types : List Ty} (g : Group scope.arena types)

theorem give_reaches (s : State) {values : List Value} (admits : Tree.AdmitsAll g.fields values)
    (area : g.returned = true → g.HasArea scope.returnArea s.store)
    (order : g.returned = false →
      g.fields.length ≤ 1 ∨ g.slots = [] ∧ values.reverse = values) :
    Reaches scope.allocator (Tree.AsksAll g.fields values)
      (run g.give scope (s.pushAll (values.map .value))) fun s' =>
      ∃ slots st, s' = (s.withStore st).pushAll slots ∧ slots.map Operand.type? =
        (g.row g.returned).map some ∧ (∀ x, Covered s.store.taken x → Covered st.taken x) ∧
      (if g.returned then ∃ base, scope.returnArea = some base ∧ slots = [.slot .i32 base] ∧
        Kept (fun x => Within base (base + g.extent.size) x ∨ Newly s.store st x) st.memory
          fun m => Tree.EncodedAll m g.fields g.offsets base values
      else Kept (Covered st.taken) st.memory fun m => Tree.FlatAll m g.fields slots values) := by
  unfold give row
  cases returned : g.returned with
  | true =>
    obtain ⟨base, known, bound, inside⟩ := area returned
    have points : Points scope g.returnArea base := .ofReturnArea known
    rw [if_pos rfl, run_append (Tree.writeAll_piece _ _ points.1 _).balanced
      (area_piece points.1).balanced]
    have room : ∀ x, Within (base + 0 + 0) (base + 0 + g.extent.size) x →
      Covered s.store.taken x := inside
    refine (Tree.run_writeAll (fun field _ => field.writes) g.unfolds points 0 g.placed bound admits
      room).bind fun s' holds => ?_
    obtain ⟨st, result, stored⟩ := holds
    subst result
    rw [run_single points.1.1, points.step]
    have small := g.small
    have whole := stored.mono fun x touches => touches.within g.unfolds g.placed (by omega)
    exact ⟨[.slot .i32 base], st, rfl, rfl, whole.changes.grows, base, known, rfl, whole.kept⟩
  | false =>
    rw [if_neg (by simp)]
    refine (Tree.run_lowers g.unfolds s admits (order returned)).mono
      fun s' holds => ?_
    obtain ⟨slots, st, result, carried⟩ := holds
    refine ⟨slots, st, result, Tree.flatAll_types carried.kept.here, carried.changes.grows,
      carried.kept.mono fun x newly => newly.1⟩

theorem run_take (s : State) {slots : List Operand} {values : List Value}
    (admits : Tree.AdmitsAll g.fields values)
    (stands : if g.returned then slots = [] ∧ ∃ base, scope.returnArea = some base ∧
        base + g.extent.size ≤ 2 ^ 32 ∧
        Tree.EncodedAll s.store.memory g.fields g.offsets base values
      else Tree.FlatAll s.store.memory g.fields slots values ∧
        (g.fields.length ≤ 1 ∨ g.slots = [])) :
    run g.take scope (s.pushAll slots) = .ok (s.pushAll (values.map .value)) := by
  unfold take
  cases returned : g.returned with
  | true =>
    rw [returned, if_pos rfl] at stands
    obtain ⟨rfl, base, known, bound, encoded⟩ := stands
    have points : Points scope g.returnArea base := .ofReturnArea known
    exact Tree.run_readAll (fun field _ => field.reads) g.unfolds points g.placed bound encoded
  | false =>
    rw [returned, if_neg (by simp)] at stands
    rw [if_neg (by simp)]
    exact Tree.run_lifts g.unfolds admits stands.1 stands.2

theorem encodedAll_copied {a : Arena} {types : List Ty} (g : Group a types) {first last later : Store}
    {source target : Nat} {values : List Value}
    (fresh : ∀ x, Within source (source + g.extent.size) x → ¬ Covered first.taken x)
    (inside : ∀ x, Within target (target + g.extent.size) x → Covered first.taken x)
    (kept : Kept (Newly first last) last.memory fun m =>
      Tree.EncodedAll m g.fields g.offsets source values) (extended : last.Extends later) :
    Tree.EncodedAll (later.memory.copy source target g.extent.size) g.fields g.offsets target values := by
  have apart : ∀ x, ¬ Covered first.taken x →
      later.memory.copy source target g.extent.size x = later.memory x := by
    intro x old
    exact if_neg fun within => old (inside x within)
  have same : ∀ x, Newly first last x →
      later.memory.copy source target g.extent.size x = last.memory x := fun x newly =>
    (apart x newly.2).trans (extended.2 x newly.1)
  have encoded := (kept.after same).here
  refine encoded.moved g.unfolds g.placed (by have := g.small; omega) fun i small => ?_
  have outside := apart (source + i) (fresh _ ⟨by omega, by omega⟩)
  have here : target ≤ target + i ∧ target + i < target + g.extent.size := by omega
  rw [outside, Memory.copy, if_pos here, Nat.add_sub_cancel_left]

end Group

theorem State.popN_getLast {s s' : State} {top : Operand} {rest operands : List Operand} {n : Nat}
    (stack : s.operands = top :: rest) (positive : 0 < n) (popped : s.popN n = .ok (operands, s')) :
    operands.getLast? = some top := by
  obtain ⟨n, rfl⟩ : ∃ m, n = m + 1 := ⟨n - 1, by omega⟩
  unfold State.popN at popped
  split at popped
  · cases popped
    simp [stack]
  · cases popped

namespace Call

variable {a : Arena} {f : Function} (c : Call a f)

theorem left {allocator : Allocator} {args : List Operand} {st : Store} {stop : Stop}
    (started : start allocator a c.outward args st = .ok stop) :
    ∃ paramArea returnArea operands s', stop = ⟨callWasm f.name (c.signature .outward), operands,
        c.results.take ++ [ret f.results.types.length],
        { allocator, arena := a, args, paramArea, returnArea }, s'⟩ ∧
      s'.operands = [] ∧ s'.blocks = [] ∧
      (c.results.returned = true → ∃ base, returnArea = some base ∧
        operands.getLast? = some (.slot .i32 base) ∧ base + c.results.extent.size ≤ 2 ^ 32 ∧
        ∀ x, Within base (base + c.results.extent.size) x → Covered s'.store.taken x) := by
  obtain ⟨paramArea, returnArea, middle, last, s, operands, s', -, second, ran, popped, rfl⟩ :=
    start_ok c.outward_split c.leave_calls rfl started
  rw [c.outward_returnArea] at second
  have moved := c.leave_shifts _ _ _ rfl ran
  have taken := popN_moved popped
  have grown := fun x (covered : Covered last.taken x) => taken.1.grows x (moved.grows x covered)
  have count := moved.count
  have left := taken.1.count
  simp only [arity, List.length_nil] at count left
  refine ⟨paramArea, returnArea, operands, s', rfl, List.eq_nil_of_length_eq_zero (by omega),
    taken.1.blocks.trans moved.blocks, fun returned => ?_⟩
  obtain ⟨base, known, bound, inside⟩ := area_of_taken second returned
  refine ⟨base, known, ?_, bound, fun x within => grown x (inside x within)⟩
  subst known
  have points : Points ⟨allocator, a, args, paramArea, some base, none, none, none⟩
      c.results.returnArea base := .ofReturnArea rfl
  rw [leave, returned, if_pos rfl, run_append c.params.pass_piece.balanced
    (Group.area_piece points.1).balanced] at ran
  obtain ⟨passed, -, ran⟩ := bind_eq_ok.mp ran
  rw [run_single points.1.1, points.step] at ran
  cases ran
  exact State.popN_getLast rfl (by simp [arity, signature, returned]) popped

theorem entered {allocator : Allocator} {args : List Operand} {st : Store} {stop : Stop}
    (started : start allocator a c.inward args st = .ok stop) :
    ∃ paramArea returnArea operands s', stop = ⟨callInterface f, operands,
        c.results.give ++ [ret (c.signature .inward).results.length],
        { allocator, arena := a, args, paramArea, returnArea }, s'⟩ ∧
      s'.operands = [] ∧ s'.blocks = [] ∧ (∀ x, Covered st.taken x → Covered s'.store.taken x) ∧
      (c.results.returned = true → ∃ base, returnArea = some base ∧
        base + c.results.extent.size ≤ 2 ^ 32 ∧
        ∀ x, Within base (base + c.results.extent.size) x → Newly st s'.store x) := by
  obtain ⟨paramArea, returnArea, middle, last, s, operands, s', first, second, ran, popped, rfl⟩ :=
    start_ok c.inward_split c.params.receive_piece.calls rfl started
  rw [c.inward_returnArea] at second
  have moved := c.params.receive_shifts _ _ _ rfl ran
  have taken := popN_moved popped
  have grown := fun x (covered : Covered last.taken x) => taken.1.grows x (moved.grows x covered)
  have count := moved.count
  have left := taken.1.count
  have params := c.params.length_fields
  simp only [arity, List.length_nil, List.length_map] at count left params
  refine ⟨paramArea, returnArea, operands, s', rfl, List.eq_nil_of_length_eq_zero (by omega),
    taken.1.blocks.trans moved.blocks,
    fun x covered => grown x (second.extended.1 x (first.extended.1 x covered)), fun returned => ?_⟩
  obtain ⟨base, known, bound, newly⟩ := second.region _ _ (by rw [Group.area, if_pos returned])
  refine ⟨base, known, bound, fun x within => ⟨grown x (newly x within).1, fun covered => ?_⟩⟩
  exact (newly x within).2 (first.extended.1 x covered)

section
variable {allocator : Allocator} {args : List Operand} {st : Store} {values : List Value}

/-- An entry point that has got values from the implementation hands back what stands for them. -/
theorem gives_back {callee : Stop} (started : start allocator a c.inward args st = .ok callee)
    (admits : Tree.AdmitsAll c.results.fields values) {second : Store}
    (extended : callee.state.store.Extends second)
    (order : c.results.returned = false → c.results.fields.length ≤ 1 ∨
      c.results.slots = [] ∧ values.reverse = values) :
    Reaches allocator (a.BufferAmong values f.results.types)
      (callee.resume (values.map .value) second) fun last =>
      last.At (ret (c.signature .inward).results.length) ∧
      last.operands.map Operand.type? = (c.signature .inward).results.map some ∧
      c.results.Given st last.state.store last.operands values := by
  obtain ⟨paramArea, returnArea, operands, s', rfl, empty, clear, grown, area⟩ := c.entered started
  rw [Stop.resume_eq ⟨rfl, empty, clear⟩ rfl c.results.give_piece.calls]
  have known : c.results.returned = true → c.results.HasArea returnArea second := fun returned => by
    obtain ⟨base, known, bound, newly⟩ := area returned
    exact ⟨base, known, bound, fun x within => extended.1 x (newly x within).1⟩
  have given := @Group.give_reaches ⟨allocator, a, args, paramArea, returnArea, none, none, none⟩ _
    c.results { store := second } _ admits known order
  refine (given.widen fun size align => c.results.bufferAmong).bind fun s holds => ?_
  obtain ⟨slots, after, result, types, grows, given⟩ := holds
  have count : (c.signature .inward).results.length = slots.length := by
    have lengths := congrArg List.length types
    simpa [signature] using lengths.symm
  rw [result, State.popN_pushAll _ count]
  refine ⟨⟨rfl, rfl, rfl⟩, types, ?_⟩
  unfold Group.Given
  cases returned : c.results.returned with
  | true =>
    obtain ⟨base, known, bound, newly⟩ := area returned
    rw [returned, if_pos rfl] at given
    obtain ⟨base', known', rfl, kept⟩ := given
    cases known.symm.trans known'
    refine ⟨base, rfl, fun x within => (newly x within).2, kept.mono fun x member => ?_⟩
    rcases member with within | fresh
    · exact ⟨grows x (extended.1 x (newly x within).1), (newly x within).2⟩
    · exact ⟨fresh.1, fun covered => fresh.2 (extended.1 x (grown x covered))⟩
  | false =>
    rw [returned, if_neg (by simp)] at given
    exact given

/-- A wrapper that is handed what stands for values comes to its return with these values. -/
theorem takes_back {caller : Stop} (started : start allocator a c.outward args st = .ok caller)
    (admits : Tree.AdmitsAll c.results.fields values) {first last later : Store}
    (grown : caller.state.store.Extends first) {handed : List Operand}
    (given : c.results.Given first last handed values) (extended : last.Extends later)
    (few : c.results.returned = false → c.results.fields.length ≤ 1 ∨ c.results.slots = []) :
    ∃ final, caller.comeBack (c.signature .outward) handed c.results.extent.size later = .ok final ∧
      final.At (ret f.results.types.length) ∧ final.operands = values.map .value := by
  obtain ⟨paramArea, returnArea, operands, s', rfl, empty, clear, area⟩ := c.left started
  have count : f.results.types.length = (values.map Operand.value).length := by
    rw [List.length_map, ← c.results.length_fields, Tree.admitsAll_length admits]
  have finished : ∀ (slots : List Operand) (copied : Store),
      (if c.results.returned then slots = [] ∧ ∃ base, returnArea = some base ∧
          base + c.results.extent.size ≤ 2 ^ 32 ∧
          Tree.EncodedAll copied.memory c.results.fields c.results.offsets base values
        else Tree.FlatAll copied.memory c.results.fields slots values ∧
          (c.results.fields.length ≤ 1 ∨ c.results.slots = [])) →
      ∃ final, Stop.resume ⟨callWasm f.name (c.signature .outward), operands,
          c.results.take ++ [ret f.results.types.length],
          { allocator, arena := a, args, paramArea, returnArea }, s'⟩ slots copied = .ok final ∧
        final.At (ret f.results.types.length) ∧ final.operands = values.map .value := by
    intro slots copied stands
    rw [Stop.resume_eq ⟨rfl, empty, clear⟩ rfl c.results.take_piece.calls]
    have taken := @Group.run_take ⟨allocator, a, args, paramArea, returnArea, none, none, none⟩ _
      c.results { store := copied } _ _ admits stands
    rw [taken, ok_bind, State.popN_pushAll _ count]
    exact ⟨_, rfl, ⟨rfl, rfl, rfl⟩, rfl⟩
  unfold Group.Given at given
  unfold Stop.comeBack
  have pointer : (c.signature .outward).returnPointer = c.results.returned := rfl
  rw [pointer]
  cases returned : c.results.returned with
  | true =>
    rw [returned, if_pos rfl] at given
    obtain ⟨source, rfl, fresh, kept⟩ := given
    obtain ⟨target, known, top, bound, inside⟩ := area returned
    rw [if_pos rfl]
    simp only [top]
    refine finished [] _ ?_
    rw [returned, if_pos rfl]
    exact ⟨rfl, target, known, bound, c.results.encodedAll_copied fresh
      (fun x within => grown.1 x (inside x within)) kept extended⟩
  | false =>
    rw [returned, if_neg (by simp)] at given
    rw [if_neg (by simp)]
    refine finished handed later ?_
    rw [returned, if_neg (by simp)]
    exact ⟨(given.stays extended).here, few returned⟩

/-- Several results that go without a return area, one of them in a slot or not the same from both
ends, do not come back. -/
theorem loses_order {caller callee : Stop} {args' : List Operand} {st' : Store}
    {other : Allocator} (started : start allocator a c.outward args st = .ok caller)
    (entered : start other a c.inward args' st' = .ok callee)
    (admits : Tree.AdmitsAll c.results.fields values) (direct : c.results.returned = false)
    (several : ¬ c.results.fields.length ≤ 1)
    (order : ¬ (c.results.slots = [] ∧ values.reverse = values)) {second : Store} {last : Stop}
    (left : callee.resume (values.map .value) second = .ok last) (later : Store) (final : Stop) :
    caller.comeBack (c.signature .outward) last.operands c.results.extent.size later ≠ .ok final := by
  obtain ⟨_, _, _, _, rfl, empty, clear, -⟩ := c.left started
  obtain ⟨_, _, _, _, rfl, empty', clear', -⟩ := c.entered entered
  have pointer : (c.signature .outward).returnPointer = false := direct
  rw [Stop.resume_eq ⟨rfl, empty', clear'⟩ rfl c.results.give_piece.calls, Group.give,
    if_neg (by simp [direct])] at left
  obtain ⟨s, lowered, -⟩ := bind_eq_ok.mp left
  unfold Stop.comeBack
  rw [pointer, if_neg (by simp), Stop.resume_eq ⟨rfl, empty, clear⟩ rfl c.results.take_piece.calls,
    Group.take, if_neg (by simp [direct])]
  intro back
  obtain ⟨s', lifted, -⟩ := bind_eq_ok.mp back
  have few : c.results.slots.length ≤ 1 := by
    have bound : ¬ maxFlatResults < c.results.slots.length := of_decide_eq_false direct
    unfold maxFlatResults at bound
    omega
  rcases Nat.eq_zero_or_pos c.results.slots.length with zero | positive
  · have none : c.results.slots = [] := List.eq_nil_of_length_eq_zero zero
    have hollow : ∀ v ∈ values.reverse, v.Hollow := fun v member => by
      obtain ⟨field, inside, admits⟩ := Tree.exists_field_of_admits admits (List.mem_reverse.mp member)
      exact Tree.hollow_of_admits (Tree.slotsAll_nil.mp none field inside) admits
    have reversed := Tree.lowers_units_ok c.results.unfolds hollow
      (by rw [List.length_reverse, Tree.admitsAll_length admits])
      (by rw [List.reverse_reverse]; exact lowered)
    exact order ⟨none, Tree.admitsAll_unique none reversed admits⟩
  · have one : (Tree.slotsAll c.results.fields).length = 1 := Nat.le_antisymm few positive
    have several : 1 < c.results.fields.length := by omega
    exact Tree.one_slot_stuck c.results.unfolds c.results.unfolds one several admits lowered _ _ lifted

end

end Call

/-- Results survive a crossing exactly if they come in order. Once the implementation has given
values of the result types, the entry point returns slots of the types that its signature lists, and
the wrapper that is handed these slots, or the contents of the area that they point to, comes to its
return with the same values. The entry point asks the allocator for nothing but the buffers of these
values. Where the order is lost, this never happens. -/
theorem Function.Crosses.results_survive_iff {f : Function} {a : Arena} (crosses : f.Crosses a)
    {values : List Value} (typed : InhabitsAll a values f.results.types) :
    ∃ outward inward sig given extent, sequence a .outward f = .ok outward ∧
      sequence a .inward f = .ok inward ∧ signature a .outward f = .ok sig ∧
      signature a .inward f = .ok given ∧ Layout.recordLayout a f.results.types = .ok extent ∧
      ∀ {allocator other : Allocator} {args slots : List Operand} {st first second : Store}
        {caller callee : Stop}, start allocator a outward args st = .ok caller →
        caller.state.store.Extends first → start other a inward slots first = .ok callee →
        callee.state.store.Extends second →
        caller.At (callWasm f.name sig) ∧ callee.At (callInterface f) ∧
        (sig.InOrder values →
          Reaches other (a.BufferAmong values f.results.types)
            (callee.resume (values.map .value) second) fun last =>
            last.At (ret given.results.length) ∧
            last.operands.map Operand.type? = given.results.map some ∧
            ∀ later, last.state.store.Extends later → ∃ final,
              caller.comeBack sig last.operands extent.size later = .ok final ∧
              final.At (ret values.length) ∧ final.operands = values.map .value) ∧
        (¬ sig.InOrder values → ∀ last, callee.resume (values.map .value) second = .ok last →
          ∀ later final, caller.comeBack sig last.operands extent.size later ≠ .ok final) := by
  obtain ⟨c⟩ := crosses.exists_call
  have admits := c.results.admitsAll typed
  have count : values.length = f.results.types.length := typed.length_eq
  have shape : ∀ direct : c.results.returned = false,
      (c.signature .outward).results = c.results.slots := fun direct => by simp [Call.signature, direct]
  have pointer : (c.signature .outward).returnPointer = c.results.returned := rfl
  refine ⟨_, _, _, _, _, c.outward_eq, c.inward_eq, c.signature_eq .outward, c.signature_eq .inward,
    c.results.recordLayout_eq, fun {_ _ _ _ _ _ _ _ _} started grown entered extended => ?_⟩
  refine ⟨?_, ?_, fun order => ?_, fun disorder last left later final => ?_⟩
  · obtain ⟨_, _, _, _, rfl, empty, clear, -⟩ := c.left started
    exact ⟨rfl, empty, clear⟩
  · obtain ⟨_, _, _, _, rfl, empty, clear, -⟩ := c.entered entered
    exact ⟨rfl, empty, clear⟩
  · have few : c.results.returned = false → c.results.fields.length ≤ 1 ∨
        c.results.slots = [] ∧ values.reverse = values := fun direct => by
      rw [Signature.InOrder, pointer, direct, shape direct] at order
      rw [c.results.length_fields, ← count]
      simpa using order
    refine (c.gives_back entered admits extended few).mono fun last holds => ?_
    obtain ⟨reached, types, given⟩ := holds
    refine ⟨reached, types, fun later after => ?_⟩
    rw [count]
    exact c.takes_back started admits grown given after fun direct => (few direct).imp_right And.left
  · rw [Signature.InOrder, pointer] at disorder
    have direct : c.results.returned = false := by
      cases returned : c.results.returned with
      | true => exact absurd (.inl returned) disorder
      | false => rfl
    rw [shape direct, count, ← c.results.length_fields] at disorder
    exact c.loses_order started entered admits direct (fun one => disorder (.inr (.inl one)))
      (fun unit => disorder (.inr (.inr unit))) left later final

theorem relabel_results : ∃ outward inward sig extent caller callee last final,
    sequence labelled .outward relabel = .ok outward ∧
    sequence labelled .inward relabel = .ok inward ∧
    signature labelled .outward relabel = .ok sig ∧
    start .bump labelled outward ([hi, .scalar 5].map .value) .empty = .ok caller ∧
    start .bump labelled inward caller.operands.dropLast caller.state.store = .ok callee ∧
    callee.resume ([hi, .scalar 9].map .value) callee.state.store = .ok last ∧
    caller.comeBack sig last.operands extent last.state.store = .ok final ∧
    final.At (ret 2) ∧ final.operands = [hi, .scalar 9].map .value := by
  have typed : InhabitsAll labelled [hi, .scalar 9] relabel.results.types :=
    .cons hi_inhabits (.cons (.scalar (by decide) (by decide)) .nil)
  obtain ⟨outward, inward, sig, given, extent, out, inn, signed, -, -, survive⟩ :=
    relabel_crosses.results_survive_iff typed
  have ran : (do
      let outward ← sequence labelled .outward relabel
      let inward ← sequence labelled .inward relabel
      return (do
        let caller ← start .bump labelled outward ([hi, .scalar 5].map .value) .empty
        let callee ← start .bump labelled inward caller.operands.dropLast caller.state.store
        callee.resume ([hi, .scalar 9].map .value) callee.state.store).isOk) = .ok true := by
    decide +kernel
  simp only [out, inn, ok_bind, pure_eq_ok, Except.ok.injEq, isOk_iff, bind_eq_ok] at ran
  obtain ⟨last, caller, started, callee, entered, left⟩ := ran
  obtain ⟨-, -, back, -⟩ := survive started (.refl _) entered (.refl _)
  have pointer : (signature labelled .outward relabel).map (·.returnPointer) = .ok true := by
    decide +kernel
  rw [signed] at pointer
  have reached := back (.inl (by simpa [Except.map] using pointer))
  rw [left, Reaches.ok] at reached
  obtain ⟨final, returned, stands, operands⟩ := reached.2.2 _ (.refl _)
  exact ⟨outward, inward, sig, extent.size, caller, callee, last, final, out, inn, signed, started,
    entered, left, returned, stands, operands⟩

def marked : Arena := #[⟨.tuple [], some "mark"⟩]

def stamp : Function where
  name := "stamp"
  results := { named := [("mark", .ref 0), ("level", .prim .u8)] }

theorem marked_kind : marked.kind 0 = .ok (.tuple []) := rfl

theorem stamp_crosses : stamp.Crosses marked where
  params ty member := by cases member
  results ty member := by
    rcases List.mem_cons.mp member with rfl | last
    · exact .ref marked_kind trivial ⟨⟨0, 1⟩, by decide +kernel, by decide⟩ fun ty member => by
        cases member
    · cases List.mem_singleton.mp last
      exact .prim .u8
  paramsFit := ⟨⟨0, 1⟩, by decide +kernel, by decide⟩
  resultsFit := ⟨⟨1, 1⟩, by decide +kernel, by decide⟩

theorem stamp_results_lost : stamp.Crosses marked ∧
    InhabitsAll marked [.product .tuple [], .scalar 7] stamp.results.types ∧
    ∃ inward callee, sequence marked .inward stamp = .ok inward ∧
      start .bump marked inward [] .empty = .ok callee ∧ callee.At (callInterface stamp) ∧
      callee.resume ([.product .tuple [], .scalar 7].map .value) callee.state.store =
        .error .stuck := by
  refine ⟨stamp_crosses, .cons ?_ (.cons (.scalar (by decide) (by decide)) .nil), _, _, rfl, rfl,
    ⟨rfl, rfl, rfl⟩, rfl⟩
  exact .product marked_kind rfl rfl fun i v ty first _ => by cases first

end ZigBindings
