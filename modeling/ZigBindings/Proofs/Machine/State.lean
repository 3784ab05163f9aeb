import ZigBindings.Crossing.Instruction
import ZigBindings.Layout.Arena
import ZigBindings.Proofs.Machine.Memory
import ZigBindings.Proofs.Types.Tree
import ZigBindings.Zig.Spelling

/-! The machine that instructions are for: declared values and slots on one operand stack, blocks
that wait for the instruction which consumes them, linear memory, and an allocator. -/

namespace ZigBindings.Machine

/-- Values of declared types. A scalar is the bit pattern of a primitive other than a string. -/
inductive Value where
  | scalar (bits : Nat)
  | text (bytes : List UInt8)
  | product (form : Form) (items : List Value)
  | choice (index : Nat)
  | absent
  | present (payload : Value)
  | list (items : List Value)
deriving Inhabited

/-- An operand is a declared value or a slot with its bits. -/
inductive Operand where
  | value (v : Value)
  | slot (type : Slot) (bits : Nat)
deriving Inhabited

def Operand.type? : Operand → Option Slot
  | value _ => none
  | slot type _ => some type

def Operand.value? : Operand → Option Value
  | value v => some v
  | slot _ _ => none

/-- A run ends early when the allocator refuses a request, or when an instruction does not fit the
operands that it finds. -/
inductive Trap where
  | refused (taken : List Region) (size align : Nat)
  | stuck
deriving DecidableEq, Inhabited

/-- Linear memory, and what of it has been handed out. -/
structure Store where
  memory : Memory
  taken : List Region

/-- What code can refer to besides the operands: the function's arguments and areas, and inside of
blocks the payload, the element and the base pointer. -/
structure Outlook where
  allocator : Allocator
  arena : Arena
  args : List Operand
  paramArea : Option Nat := none
  returnArea : Option Nat := none
  payload : Option Value := none
  item : Option Value := none
  base : Option Nat := none

/-- A closed block. Running it gives the operands that it leaves, nearest first. -/
structure Routine where
  loop : Bool
  run : Outlook → Store → Except Trap (List Operand × Store)

/-- Operands and blocks have their newest member first. -/
structure State where
  operands : List Operand := []
  blocks : List Routine := []
  store : Store

namespace State

def push (s : State) (operand : Operand) : State :=
  { s with operands := operand :: s.operands }

/-- Pushes operands in order, the last one on top. -/
def pushAll (s : State) (operands : List Operand) : State :=
  { s with operands := operands.reverse ++ s.operands }

def withStore (s : State) (st : Store) : State := { s with store := st }

def popValue (s : State) : Except Trap (Value × State) :=
  match s.operands with
  | .value v :: rest => .ok (v, { s with operands := rest })
  | _ => .error .stuck

def popSlot (s : State) (type : Slot) : Except Trap (Nat × State) :=
  match s.operands with
  | .slot found bits :: rest =>
    if found = type then .ok (bits, { s with operands := rest }) else .error .stuck
  | _ => .error .stuck

def popN (s : State) (n : Nat) : Except Trap (List Operand × State) :=
  if n ≤ s.operands.length then
    .ok ((s.operands.take n).reverse, { s with operands := s.operands.drop n })
  else .error .stuck

def withBlock (s : State) (block : Routine) : State :=
  { s with blocks := block :: s.blocks }

def popBlock (s : State) : Except Trap (Routine × State) :=
  match s.blocks with
  | block :: rest => .ok (block, { s with blocks := rest })
  | [] => .error .stuck

end State

def need {α : Type} : Option α → Except Trap α
  | some a => .ok a
  | none => .error .stuck

def guard (condition : Bool) : Except Trap Unit :=
  if condition then .ok () else .error .stuck

namespace Store

def allocate (allocator : Allocator) (size align : Nat) (st : Store) :
    Except Trap (Nat × Store) :=
  match allocator.place st.taken size align with
  | some start => .ok (start, { st with taken := ⟨start, start + size⟩ :: st.taken })
  | none => .error (.refused st.taken size align)

def write (st : Store) (address size bits : Nat) : Store :=
  { st with memory := st.memory.store address size bits }

def writeAll (st : Store) (address size : Nat) : List Nat → Store
  | [] => st
  | bits :: rest => (st.write address size bits).writeAll (address + size) size rest

def readAll (st : Store) (address size : Nat) : Nat → List Nat
  | 0 => []
  | n + 1 => st.memory.load address size :: st.readAll (address + size) size n

end Store

/-- A number of the narrow width whose sign, when it has one, fills the wide width. -/
def extend (signed : Bool) (narrow wide bits : Nat) : Nat :=
  if signed && decide (2 ^ (narrow - 1) ≤ bits) then bits + (2 ^ wide - 2 ^ narrow) else bits

def widen (p : Primitive) (slot : Slot) (bits : Nat) : Nat :=
  extend p.isSigned p.bits slot.bits bits

/-- A slot as a declared number. A character has to fit its width, a truth value is whatever is not
zero, and other numbers lose their upper bits. -/
def narrow (p : Primitive) (bits : Nat) : Except Trap Nat :=
  match p with
  | .bool => .ok (if bits = 0 then 0 else 1)
  | .char => if bits < 2 ^ p.bits then .ok bits else .error .stuck
  | _ => .ok (bits % 2 ^ p.bits)

def scalar : Value → Except Trap Nat
  | .scalar bits => .ok bits
  | _ => .error .stuck

/-- The items of a tuple or record with the given number of them. -/
def items (form : Form) (arity : Nat) : Value → Except Trap (List Value)
  | .product found items =>
    if found = form ∧ items.length = arity then .ok items else .error .stuck
  | _ => .error .stuck

def elements : Value → Except Trap (List Value)
  | .list items => .ok items
  | _ => .error .stuck

def recordArity (a : Arena) (id : Nat) : Except Trap Nat :=
  match a.kind id with
  | .ok (.record fields) => .ok fields.length
  | _ => .error .stuck

def caseCount (a : Arena) (id : Nat) : Except Trap Nat :=
  match a.kind id with
  | .ok (.enumeration cases) => .ok cases.length
  | _ => .error .stuck

def sliceAccess (a : Arena) (element : Ty) : Except Trap Access :=
  match a.unalias element with
  | .ok (.prim p) => if p.isInteger || p.isFloat then need (Access.ofPrimitive? p) else .error .stuck
  | _ => .error .stuck

section
variable (scope : Outlook) (s : State)

def numericWiden (src : Primitive) (dst : Slot) : Except Trap State := do
  guard ((Zig.slotWidths src).contains dst.bits)
  let (v, s) ← s.popValue
  let bits ← scalar v
  pure (s.push (.slot dst (widen src dst bits)))

def numericNarrow (src : Slot) (dst : Primitive) : Except Trap State := do
  guard ((Zig.slotWidths dst).contains src.bits)
  let (bits, s) ← s.popSlot src
  let bits ← narrow dst bits
  pure (s.push (.value (.scalar bits)))

def recast (cast : Slot × Slot) (operand : Operand) : Except Trap Operand :=
  match operand with
  | .slot type bits =>
    if type = cast.1 then .ok (.slot cast.2 (bits % 2 ^ cast.2.bits)) else .error .stuck
  | .value _ => .error .stuck

def bitcasts (casts : List (Slot × Slot)) : Except Trap State := do
  let (operands, s) ← s.popN casts.length
  let cast ← (casts.zip operands).mapM fun c => recast c.1 c.2
  pure (s.pushAll cast)

def pushSlice (start length : Nat) : State :=
  s.pushAll [.slot .i32 start, .slot .i32 length]

def popSlice (size : Nat) : Except Trap (Nat × Nat × State) := do
  let (length, s) ← s.popSlot .i32
  let (start, s) ← s.popSlot .i32
  guard (start + length * size ≤ 2 ^ 32)
  pure (start, length, s)

/-- A text already lies in memory somewhere; the machine puts it there when it is lowered. -/
def stringLower : Except Trap State := do
  match ← s.popValue with
  | (.text bytes, s) =>
    let (start, store) ← s.store.allocate scope.allocator bytes.length 1
    let store := { store with memory := store.memory.storeText start bytes }
    pure (pushSlice { s with store } start bytes.length)
  | _ => throw .stuck

def stringLift : Except Trap State := do
  let (start, length, s) ← popSlice s 1
  pure (s.push (.value (.text (s.store.memory.text start length))))

def listCanonLower (element : Ty) : Except Trap State := do
  let access ← sliceAccess scope.arena element
  let (v, s) ← s.popValue
  let members ← elements v
  let numbers ← members.mapM scalar
  let (start, store) ← s.store.allocate scope.allocator (numbers.length * access.size) access.size
  pure (pushSlice { s with store := store.writeAll start access.size numbers } start numbers.length)

def listCanonLift (element : Ty) : Except Trap State := do
  let access ← sliceAccess scope.arena element
  let (start, length, s) ← popSlice s access.size
  let numbers := s.store.readAll start access.size length
  pure (s.push (.value (.list (numbers.map .scalar))))

def Outlook.atElement (item : Option Value) (base : Nat) : Outlook :=
  { scope with payload := none, item, base := some base }

def eachItem (block : Routine) (size : Nat) : Nat → List Value → Store → Except Trap Store
  | _, [], store => .ok store
  | start, v :: rest, store => do
    let (left, store) ← block.run (scope.atElement (some v) start) store
    guard left.isEmpty
    eachItem block size (start + size) rest store

def eachElement (block : Routine) (size : Nat) :
    Nat → Nat → Store → Except Trap (List Value × Store)
  | _, 0, store => .ok ([], store)
  | start, n + 1, store => do
    match ← block.run (scope.atElement none start) store with
    | ([.value v], store) =>
      let (rest, store) ← eachElement block size (start + size) n store
      pure (v :: rest, store)
    | _ => throw .stuck

def listLower (size align : Nat) : Except Trap State := do
  let (block, s) ← s.popBlock
  guard block.loop
  let (v, s) ← s.popValue
  let members ← elements v
  let (start, store) ← s.store.allocate scope.allocator (members.length * size) align
  let store ← eachItem scope block size start members store
  pure (pushSlice { s with store } start members.length)

def listLift (size : Nat) : Except Trap State := do
  let (block, s) ← s.popBlock
  guard block.loop
  let (start, length, s) ← popSlice s size
  let (members, store) ← eachElement scope block size start length s.store
  pure ({ s with store }.push (.value (.list members)))

def productLower (form : Form) (arity : Nat) : Except Trap State := do
  let (v, s) ← s.popValue
  let members ← items form arity v
  pure (s.pushAll (members.map .value))

def productLift (form : Form) (arity : Nat) : Except Trap State := do
  let (operands, s) ← s.popN arity
  let members ← operands.mapM fun operand => need operand.value?
  pure (s.push (.value (.product form members)))

def enumLower (id : Nat) : Except Trap State := do
  let count ← caseCount scope.arena id
  match ← s.popValue with
  | (.choice index, s) =>
    guard (index < count)
    pure (s.push (.slot .i32 index))
  | _ => throw .stuck

def enumLift (id : Nat) : Except Trap State := do
  let count ← caseCount scope.arena id
  let (index, s) ← s.popSlot .i32
  guard (index < count)
  pure (s.push (.value (.choice index)))

def Outlook.atPayload (payload : Option Value) : Outlook :=
  { scope with payload }

/-- The block for a present payload stands above the one for an absent payload. -/
def optionLower (results : List Slot) : Except Trap State := do
  let (present, s) ← s.popBlock
  let (absent, s) ← s.popBlock
  let (v, s) ← s.popValue
  let (left, store) ← match v with
    | .present payload => present.run (scope.atPayload (some payload)) s.store
    | .absent => absent.run (scope.atPayload none) s.store
    | _ => throw .stuck
  guard (left.reverse.map Operand.type? = results.map some)
  pure { s with store, operands := left ++ s.operands }

def optionLift : Except Trap State := do
  let (present, s) ← s.popBlock
  let (absent, s) ← s.popBlock
  let (discriminant, s) ← s.popSlot .i32
  match discriminant with
  | 0 =>
    let (left, store) ← absent.run (scope.atPayload none) s.store
    guard left.isEmpty
    pure ({ s with store }.push (.value .absent))
  | 1 =>
    match ← present.run (scope.atPayload none) s.store with
    | ([.value v], store) => pure ({ s with store }.push (.value (.present v)))
    | _ => throw .stuck
  | _ => throw .stuck

def load (access : Access) (offset : Nat) : Except Trap State := do
  let (base, s) ← s.popSlot .i32
  guard (base + offset + access.size ≤ 2 ^ 32)
  let bits := s.store.memory.load (base + offset) access.size
  pure (s.push (.slot access.slot
    (extend access.isSigned (8 * access.size) access.slot.bits bits)))

def store (access : Access) (offset : Nat) : Except Trap State := do
  let (base, s) ← s.popSlot .i32
  let (bits, s) ← s.popSlot access.slot
  guard (base + offset + access.size ≤ 2 ^ 32)
  pure { s with store := s.store.write (base + offset) access.size bits }

/-- One instruction that is no block bracket and no call. -/
def step (inst : Instruction) : Except Trap State :=
  match inst with
  | .getArg nth => do pure (s.push (← need scope.args[nth]?))
  | .i32Const value => pure (s.push (.slot .i32 (value % 2 ^ 32).toNat))
  | .constZero types => pure (s.pushAll (types.map fun type => .slot type 0))
  | .roll depth => do
    let operand ← need s.operands[depth]?
    pure { s with operands := operand :: s.operands.eraseIdx depth }
  | .numericWiden src dst => numericWiden s src dst
  | .numericNarrow src dst => numericNarrow s src dst
  | .bitcasts casts => bitcasts s casts
  | .stringLower => stringLower scope s
  | .stringLift => stringLift s
  | .listCanonLower element => listCanonLower scope s element
  | .listCanonLift element => listCanonLift scope s element
  | .listLower _ size align => listLower scope s size align
  | .listLift _ size => listLift scope s size
  | .iterElem => do pure (s.push (.value (← need scope.item)))
  | .iterBasePointer => do pure (s.push (.slot .i32 (← need scope.base)))
  | .tupleLower _ arity => productLower s .tuple arity
  | .tupleLift _ arity => productLift s .tuple arity
  | .recordLower id => do productLower s .record (← recordArity scope.arena id)
  | .recordLift id => do productLift s .record (← recordArity scope.arena id)
  | .enumLower id => enumLower scope s id
  | .enumLift id => enumLift scope s id
  | .optionLower _ results => optionLower scope s results
  | .optionLift _ => optionLift scope s
  | .variantPayload => do pure (s.push (.value (← need scope.payload)))
  | .load access offset => load s access offset
  | .store access offset => store s access offset
  | .returnPointer _ _ => do pure (s.push (.slot .i32 (← need scope.returnArea)))
  | .paramPointer _ _ => do pure (s.push (.slot .i32 (← need scope.paramArea)))
  | .blockBegin _ _ | .blockEnd _ | .callWasm _ _ | .callInterface _ | .ret _ => throw .stuck

end

end ZigBindings.Machine
