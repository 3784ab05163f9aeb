import ZigBindings.Proofs.Machine.State

/-! Runs of instruction sequences. A sequence is first nested at its block brackets; a block is not
run where it stands but waits for its consumer. Runs of balanced sequences compose. -/

namespace ZigBindings.Machine
open Instruction

/-- A sequence with its blocks nested: an instruction and what follows it, or a block with its
body, the number of operands that the body leaves, and what follows. -/
inductive Code where
  | done
  | plain (inst : Instruction) (rest : Code)
  | block (inputs : Nat) (loop : Bool) (body : Code) (results : Nat) (rest : Code)
deriving DecidableEq, Inhabited

namespace Code

def append : Code → Code → Code
  | done, last => last
  | plain inst rest, last => plain inst (rest.append last)
  | block inputs loop body results rest, last => block inputs loop body results (rest.append last)

@[simp] theorem append_done (code : Code) : code.append done = code := by
  induction code with
  | done => rfl
  | plain inst rest ih => simp [append, ih]
  | block inputs loop body results rest _ ih => simp [append, ih]

theorem append_assoc (first second last : Code) :
    (first.append second).append last = first.append (second.append last) := by
  induction first with
  | done => rfl
  | plain inst rest ih => simp only [append, ih]
  | block inputs loop body results rest _ ih => simp only [append, ih]

end Code

/-- The code read so far from the end, and for each block end that waits for its beginning the
number of its results and the code behind it. -/
abbrev Nesting := Code × List (Nat × Code)

def nestStep (inst : Instruction) (nesting : Nesting) : Option Nesting :=
  match inst with
  | .blockEnd results => some (.done, (results, nesting.1) :: nesting.2)
  | .blockBegin inputs loop =>
    match nesting.2 with
    | (results, rest) :: outer => some (.block inputs loop nesting.1 results rest, outer)
    | [] => none
  | inst => some (.plain inst nesting.1, nesting.2)

def nestFrom : List Instruction → Option Nesting
  | [] => some (.done, [])
  | inst :: rest => (nestFrom rest).bind (nestStep inst)

/-- The nested form of a sequence in which every bracket has its partner. -/
def nest (code : List Instruction) : Option Code :=
  match nestFrom code with
  | some (nested, []) => some nested
  | _ => none

/-- Executes nested code. The operands that a block takes with it are its first ones whenever it
is run, and it has to leave as many as it declares. -/
def exec : Code → Outlook → State → Except Trap State
  | .done, _, s => .ok s
  | .plain inst rest, scope, s => do
    let s ← step scope s inst
    exec rest scope s
  | .block inputs loop body results rest, scope, s => do
    let (moved, s) ← s.popN inputs
    let block : Routine := ⟨loop, fun scope store => do
      let s ← exec body scope { operands := moved.reverse, store }
      guard (s.operands.length = results && s.blocks.isEmpty)
      pure (s.operands, s.store)⟩
    exec rest scope (s.withBlock block)

def run (code : List Instruction) (scope : Outlook) (s : State) : Except Trap State :=
  match nest code with
  | some nested => exec nested scope s
  | none => .error .stuck

/-- Brackets and calls are no steps of their own. -/
def isBracket : Instruction → Bool
  | .blockBegin _ _ | .blockEnd _ => true
  | _ => false

def isCall : Instruction → Bool
  | .callWasm _ _ | .callInterface _ | .ret _ => true
  | _ => false

def Addresses (address : Instruction) : Prop :=
  isBracket address = false ∧ isCall address = false

inductive Balanced : List Instruction → Prop where
  | nil : Balanced []
  | plain {inst : Instruction} {rest : List Instruction} (plain : isBracket inst = false)
    (balanced : Balanced rest) : Balanced (inst :: rest)
  | block {inputs : Nat} {loop : Bool} {results : Nat} {body rest : List Instruction}
    (inner : Balanced body) (balanced : Balanced rest) :
    Balanced (blockBegin inputs loop :: (body ++ blockEnd results :: rest))

theorem Balanced.append {first second : List Instruction} (left : Balanced first)
    (right : Balanced second) : Balanced (first ++ second) := by
  induction left with
  | nil => exact right
  | plain isPlain _ ih => exact .plain isPlain ih
  | @block inputs loop results body rest inner _ _ ih =>
    have whole : blockBegin inputs loop :: (body ++ blockEnd results :: rest) ++ second =
        blockBegin inputs loop :: (body ++ blockEnd results :: (rest ++ second)) := by simp
    rw [whole]
    exact .block inner ih

theorem nestFrom_plain {inst : Instruction} (plain : isBracket inst = false)
    (rest : List Instruction) :
    nestFrom (inst :: rest) = (nestFrom rest).map fun n => (.plain inst n.1, n.2) := by
  cases inst with
  | blockBegin inputs loop => cases plain
  | blockEnd results => cases plain
  | _ => cases known : nestFrom rest <;> simp [nestFrom, nestStep, known]

/-- Whatever stands behind the sequence, it nests to this code in front of it. -/
def NestsTo (code : List Instruction) (nested : Code) : Prop :=
  ∀ rest, nestFrom (code ++ rest) = (nestFrom rest).map fun n => (nested.append n.1, n.2)

namespace NestsTo

variable {code : List Instruction} {nested : Code}

theorem nil : NestsTo [] .done := fun rest => by
  cases known : nestFrom rest <;> simp [Code.append, known]

theorem plain {inst : Instruction} (isPlain : isBracket inst = false) (nests : NestsTo code nested) :
    NestsTo (inst :: code) (.plain inst nested) := fun rest => by
  rw [List.cons_append, nestFrom_plain isPlain, nests]
  cases nestFrom rest <;> simp [Code.append]

theorem block {inputs results : Nat} {loop : Bool} {body : List Instruction} {nestedBody : Code}
    (inner : NestsTo body nestedBody) (nests : NestsTo code nested) :
    NestsTo (blockBegin inputs loop :: (body ++ blockEnd results :: code))
      (.block inputs loop nestedBody results nested) := fun rest => by
  have whole : blockBegin inputs loop :: (body ++ blockEnd results :: code) ++ rest =
      blockBegin inputs loop :: (body ++ (blockEnd results :: (code ++ rest))) := by simp
  rw [whole, nestFrom, inner, nestFrom, nests]
  cases nestFrom rest <;> simp [nestStep, Code.append]

theorem append {second : List Instruction} {last : Code} (nests : NestsTo code nested)
    (lasts : NestsTo second last) : NestsTo (code ++ second) (nested.append last) := fun rest => by
  rw [List.append_assoc, nests, lasts, Option.map_map]
  simp only [Function.comp_def, Code.append_assoc]

theorem nestFrom_eq (nests : NestsTo code nested) : nestFrom code = some (nested, []) := by
  have alone := nests []
  simpa [nestFrom] using alone

theorem run_eq (nests : NestsTo code nested) : run code = exec nested := by
  funext scope s
  simp [run, nest, nests.nestFrom_eq]

end NestsTo

theorem Balanced.nests {code : List Instruction} (balanced : Balanced code) :
    ∃ nested, NestsTo code nested := by
  induction balanced with
  | nil => exact ⟨.done, .nil⟩
  | plain isPlain _ ih =>
    obtain ⟨nested, nests⟩ := ih
    exact ⟨_, nests.plain isPlain⟩
  | block _ _ inner ih =>
    obtain ⟨nestedBody, nestsBody⟩ := inner
    obtain ⟨nested, nests⟩ := ih
    exact ⟨_, nestsBody.block nests⟩

theorem exec_append (first second : Code) (scope : Outlook) (s : State) :
    exec (first.append second) scope s = exec first scope s >>= exec second scope := by
  induction first generalizing s with
  | done => rfl
  | plain inst rest ih => simp only [Code.append, exec, bind_assoc, ih]
  | block inputs loop body results rest _ ih => simp only [Code.append, exec, bind_assoc, ih]

theorem run_append {first second : List Instruction} (left : Balanced first)
    (right : Balanced second) (scope : Outlook) (s : State) :
    run (first ++ second) scope s = run first scope s >>= run second scope := by
  obtain ⟨nested, nests⟩ := left.nests
  obtain ⟨last, lasts⟩ := right.nests
  have whole : nest (first ++ second) = some (nested.append last) := by
    simp [nest, nests second, lasts.nestFrom_eq]
  rw [nests.run_eq, lasts.run_eq, ← exec_append, run, whole]

@[simp] theorem run_nil (scope : Outlook) (s : State) : run [] scope s = .ok s := rfl

theorem run_single {inst : Instruction} (plain : isBracket inst = false) (scope : Outlook)
    (s : State) : run [inst] scope s = step scope s inst := by
  have nested : nest [inst] = some (.plain inst .done) := by
    rw [nest, nestFrom_plain plain]
    rfl
  simp only [run, nested, exec]
  cases step scope s inst <;> rfl

theorem run_cons {inst : Instruction} {rest : List Instruction} (plain : isBracket inst = false)
    (balanced : Balanced rest) (scope : Outlook) (s : State) :
    run (inst :: rest) scope s = step scope s inst >>= run rest scope := by
  have split := run_append (.plain plain .nil) balanced scope s
  rwa [run_single plain] at split

def blockOf (loop : Bool) (moved : List Operand) (body : List Instruction) (results : Nat) : Routine :=
  ⟨loop, fun scope store => do
    let s ← run body scope { operands := moved.reverse, store }
    guard (s.operands.length = results && s.blocks.isEmpty)
    pure (s.operands, s.store)⟩

theorem run_block {inputs results : Nat} {loop : Bool} {body rest : List Instruction}
    (inner : Balanced body) (balanced : Balanced rest) (scope : Outlook) (s : State) :
    run (blockBegin inputs loop :: (body ++ blockEnd results :: rest)) scope s =
      s.popN inputs >>= fun popped =>
        run rest scope (popped.2.withBlock (blockOf loop popped.1 body results)) := by
  obtain ⟨nestedBody, nestsBody⟩ := inner.nests
  obtain ⟨nested, nests⟩ := balanced.nests
  have whole : nest (blockBegin inputs loop :: (body ++ blockEnd results :: rest)) =
      some (.block inputs loop nestedBody results nested) := by
    simp [nest, nestFrom, nestsBody (blockEnd results :: rest), nests.nestFrom_eq, nestStep]
  rw [run, whole]
  simp only [exec, blockOf, nests.run_eq, nestsBody.run_eq]

end ZigBindings.Machine
