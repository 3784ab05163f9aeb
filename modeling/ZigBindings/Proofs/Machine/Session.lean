import ZigBindings.Proofs.Machine.Steps

/-! A wrapper's run from call to call. It takes its areas first, stops where it calls out or
returns, and goes on with what the call has left. -/

namespace ZigBindings.Machine
open Instruction

def arity : Instruction → Nat
  | .callWasm _ signature => signature.params.length
  | .callInterface f => f.params.length
  | .ret amount => amount
  | _ => 0

/-- A run that stands at a call or a return, with the operands popped, deepest first. -/
structure Stop where
  call : Instruction
  operands : List Operand
  rest : List Instruction
  scope : Outlook
  state : State

/-- The run stands at this call with nothing below its operands and no block waiting. -/
structure Stop.At (stop : Stop) (call : Instruction) : Prop where
  call : stop.call = call
  operands : stop.state.operands = []
  blocks : stop.state.blocks = []

/-- Runs up to the first call or return. -/
def advance (code : List Instruction) (scope : Outlook) (s : State) : Except Trap Stop := do
  let s ← run (code.takeWhile fun inst => !isCall inst) scope s
  match code.dropWhile fun inst => !isCall inst with
  | [] => .error .stuck
  | call :: rest =>
    let (operands, s) ← s.popN (arity call)
    pure ⟨call, operands, rest, scope, s⟩

def paramArea? : Instruction → Option (Nat × Nat)
  | .paramPointer size align => some (size, align)
  | _ => none

def returnArea? : Instruction → Option (Nat × Nat)
  | .returnPointer size align => some (size, align)
  | _ => none

def takeArea (allocator : Allocator) (area : Option (Nat × Nat)) (st : Store) :
    Except Trap (Option Nat × Store) :=
  match area with
  | none => .ok (none, st)
  | some (size, align) => do
    let (start, st) ← st.allocate allocator size align
    pure (some start, st)

/-- Starts a wrapper. The first mention of an area decides its size and alignment. -/
def start (allocator : Allocator) (a : Arena) (code : List Instruction) (args : List Operand)
    (st : Store) : Except Trap Stop := do
  let (paramArea, st) ← takeArea allocator (code.findSome? paramArea?) st
  let (returnArea, st) ← takeArea allocator (code.findSome? returnArea?) st
  advance code { allocator, arena := a, args, paramArea, returnArea } { store := st }

/-- Goes on behind a call that has left operands and a store. -/
def Stop.resume (stop : Stop) (outcome : List Operand) (st : Store) : Except Trap Stop :=
  advance stop.rest stop.scope ((stop.state.withStore st).pushAll outcome)

/-- Memory in another's hands keeps the bytes that are taken, and may take more. -/
def Store.Extends (before after : Store) : Prop :=
  (∀ x, Covered before.taken x → Covered after.taken x) ∧
    ∀ x, Covered before.taken x → after.memory x = before.memory x

theorem Store.Extends.refl (st : Store) : st.Extends st := ⟨fun _ covered => covered, fun _ _ => rfl⟩

theorem Store.Extends.trans {first second third : Store} (left : first.Extends second)
    (right : second.Extends third) : first.Extends third :=
  ⟨fun x covered => right.1 x (left.1 x covered), fun x covered =>
    (right.2 x (left.1 x covered)).trans (left.2 x covered)⟩

theorem Kept.stays {before after : Store} {holds : Memory → Prop}
    (kept : Kept (Covered before.taken) before.memory holds) (extended : before.Extends after) :
    Kept (Covered after.taken) after.memory holds :=
  (kept.after extended.2).mono extended.1

structure AreaTaken (area : Option (Nat × Nat)) (found : Option Nat) (before after : Store) :
    Prop where
  extended : before.Extends after
  region : ∀ size align, area = some (size, align) → ∃ base, found = some base ∧
    base + size ≤ 2 ^ 32 ∧ ∀ x, Within base (base + size) x → Newly before after x

theorem takeArea_reaches (allocator : Allocator) {requests : Nat → Nat → Prop}
    {area : Option (Nat × Nat)} (asked : ∀ size align, area = some (size, align) → requests size align)
    (st : Store) :
    Reaches allocator requests (takeArea allocator area st) fun taken =>
      AreaTaken area taken.1 st taken.2 := by
  cases area with
  | none => exact ⟨.refl st, fun size align wanted => by cases wanted⟩
  | some area =>
    refine (Store.allocate_reaches allocator (asked area.1 area.2 rfl) st).bind ?_
    rintro _ ⟨start, rfl, -, inside, fresh⟩
    refine ⟨⟨fun x covered => covered_cons.mpr (.inr covered), fun _ _ => rfl⟩, ?_⟩
    rintro size align ⟨⟩
    exact ⟨start, rfl, inside, fun x within =>
      ⟨covered_cons.mpr (.inl ⟨within.1, within.2⟩), fresh x within⟩⟩

theorem takeArea_ok {allocator : Allocator} {area : Option (Nat × Nat)} {st : Store}
    {taken : Option Nat × Store} (done : takeArea allocator area st = .ok taken) :
    AreaTaken area taken.1 st taken.2 := by
  have reached := @takeArea_reaches allocator (fun _ _ => True) area (fun _ _ _ => trivial) st
  rwa [done, Reaches.ok] at reached

theorem advance_eq {before rest : List Instruction} {call : Instruction}
    (plain : ∀ inst ∈ before, isCall inst = false) (stops : isCall call = true) (scope : Outlook)
    (s : State) :
    advance (before ++ call :: rest) scope s = run before scope s >>= fun s =>
      s.popN (arity call) >>= fun popped => .ok ⟨call, popped.1, rest, scope, popped.2⟩ := by
  have taken : (before ++ call :: rest).takeWhile (fun inst => !isCall inst) = before := by
    rw [List.takeWhile_append_of_pos fun inst member => by simp [plain inst member]]
    simp [stops]
  have dropped : (before ++ call :: rest).dropWhile (fun inst => !isCall inst) = call :: rest := by
    rw [List.dropWhile_append_of_pos fun inst member => by simp [plain inst member]]
    simp [stops]
  simp only [advance, taken, dropped]
  rfl

/-- On its way from a call to a return, code finds nothing but what the call has left. -/
theorem Stop.resume_eq {stop : Stop} {call : Instruction} (stands : stop.At call)
    {before : List Instruction} {amount : Nat} (split : stop.rest = before ++ [ret amount])
    (plain : ∀ inst ∈ before, isCall inst = false) (outcome : List Operand) (st : Store) :
    stop.resume outcome st = run before stop.scope (State.pushAll { store := st } outcome) >>=
      fun s => s.popN amount >>= fun popped =>
        .ok ⟨ret amount, popped.1, [], stop.scope, popped.2⟩ := by
  have cleared : stop.state.withStore st = { store := st } := by
    rw [State.withStore, stands.operands, stands.blocks]
  rw [Stop.resume, split, advance_eq plain rfl, cleared]
  rfl

theorem start_reaches {allocator : Allocator} {a : Arena} {code before rest : List Instruction}
    {call : Instruction} (split : code = before ++ call :: rest)
    (plain : ∀ inst ∈ before, isCall inst = false) (stops : isCall call = true)
    {args : List Operand} {st : Store} {requests : Nat → Nat → Prop} {wanted : Stop → Prop}
    (params : ∀ size align, code.findSome? paramArea? = some (size, align) → requests size align)
    (results : ∀ size align, code.findSome? returnArea? = some (size, align) → requests size align)
    (reached : ∀ paramArea returnArea middle last,
      AreaTaken (code.findSome? paramArea?) paramArea st middle →
      AreaTaken (code.findSome? returnArea?) returnArea middle last →
      Reaches allocator requests
        (run before { allocator, arena := a, args, paramArea, returnArea } { store := last })
        fun s => ∃ operands s', s.popN (arity call) = .ok (operands, s') ∧
          wanted ⟨call, operands, rest, { allocator, arena := a, args, paramArea, returnArea }, s'⟩) :
    Reaches allocator requests (start allocator a code args st) wanted := by
  refine (takeArea_reaches allocator params st).bind fun found first => ?_
  obtain ⟨paramArea, middle⟩ := found
  refine (takeArea_reaches allocator results middle).bind fun found second => ?_
  obtain ⟨returnArea, last⟩ := found
  dsimp only
  rw [split, advance_eq plain stops]
  refine (reached paramArea returnArea middle last first second).bind
    fun s holds => ?_
  obtain ⟨operands, s', popped, holds⟩ := holds
  rw [popped]
  exact holds

theorem start_ok {allocator : Allocator} {a : Arena} {code before rest : List Instruction}
    {call : Instruction} (split : code = before ++ call :: rest)
    (plain : ∀ inst ∈ before, isCall inst = false) (stops : isCall call = true)
    {args : List Operand} {st : Store} {stop : Stop}
    (started : start allocator a code args st = .ok stop) :
    ∃ paramArea returnArea middle last s operands s',
      AreaTaken (code.findSome? paramArea?) paramArea st middle ∧
      AreaTaken (code.findSome? returnArea?) returnArea middle last ∧
      run before { allocator, arena := a, args, paramArea, returnArea } { store := last } = .ok s ∧
      s.popN (arity call) = .ok (operands, s') ∧
      stop = ⟨call, operands, rest, { allocator, arena := a, args, paramArea, returnArea }, s'⟩ := by
  obtain ⟨⟨paramArea, middle⟩, first, started⟩ := bind_eq_ok.mp started
  obtain ⟨⟨returnArea, last⟩, second, started⟩ := bind_eq_ok.mp started
  dsimp only at started
  rw [split, advance_eq plain stops] at started
  obtain ⟨s, ran, started⟩ := bind_eq_ok.mp started
  obtain ⟨⟨operands, s'⟩, popped, started⟩ := bind_eq_ok.mp started
  cases started
  exact ⟨paramArea, returnArea, middle, last, s, operands, s', takeArea_ok first, takeArea_ok second, ran,
    popped, rfl⟩

end ZigBindings.Machine
