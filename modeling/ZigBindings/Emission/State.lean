import ZigBindings.Crossing.Instruction
import ZigBindings.Document
import ZigBindings.Fault
import ZigBindings.Name.Escaped
import ZigBindings.Zig.Stmt

/-!
State of the emission of one function in one direction: the operand stack, open and closed blocks,
the statements written so far, and the names in use.
-/

namespace ZigBindings
open Zig

/-- Names that a block's body asked for; one that stays absent was never mentioned by it. -/
structure Captures where
  payload : Option String := none
  item : Option String := none
  base : Option String := none
  index : Option String := none
deriving DecidableEq, Inhabited

/-- An open block: the operands and statements around it, nearest operand first. -/
structure Frame where
  outerOperands : List Expr
  outerBody : List Stmt
  loop : Bool
  captures : Captures := {}
deriving Inhabited

/-- A closed block that waits for the instruction which consumes it. Results stand deepest first. -/
structure Block where
  body : List Stmt
  results : List Expr
  loop : Bool
  captures : Captures
deriving Inhabited

structure Area where
  name : String
  size : Nat
  align : Nat
deriving DecidableEq, Inhabited

structure Setting where
  arena : Arena
  function : Function
  direction : Direction
  signature : Signature
  path : List String := []
  linkName : String := "$root"
  implParam : Document := .text "Impl"
deriving Inhabited

/-- Operands, frames and blocks have their newest member first. -/
structure Emission where
  body : List Stmt := []
  params : List String := []
  operands : List Expr := []
  frames : List Frame := []
  blocks : List Block := []
  used : List String := []
  counters : List (String × Nat) := []
  returnArea : Option Area := none
  paramArea : Option Area := none
deriving Inhabited

namespace Emission

def numbered (stem : String) (n : Nat) : String :=
  stem ++ toString n

/-- The first number from `n` on whose name is not in use; there is one among the `tries + 1`
candidates when no more than `tries` names are in use. -/
def freeNumber (used : List String) (stem : String) (n : Nat) : Nat → Nat
  | 0 => n
  | tries + 1 =>
    if used.contains (numbered stem n) then freeNumber used stem (n + 1) tries else n

def setCounter (stem : String) (n : Nat) : List (String × Nat) → List (String × Nat)
  | [] => [(stem, n)]
  | (other, m) :: rest =>
    if other = stem then (stem, n) :: rest else (other, m) :: setCounter stem n rest

def use (s : Emission) (name : String) : Emission :=
  if s.used.contains name then s else { s with used := s.used ++ [name] }

def reserve (s : Emission) (names : List String) : Emission :=
  names.foldl use s

def tmp (s : Emission) (stem : String) : String × Emission :=
  let n := freeNumber s.used stem ((s.counters.lookup stem).getD 0) s.used.length
  let name := numbered stem n
  (name, { s with counters := setCounter stem (n + 1) s.counters }.use name)

def fresh (s : Emission) (name : String) : String × Emission :=
  if s.used.contains name then s.tmp name else (name, s.use name)

def freshAll (s : Emission) : List String → List String × Emission
  | [] => ([], s)
  | name :: rest =>
    let (bound, s) := s.fresh name
    let (others, s) := s.freshAll rest
    (bound :: others, s)

def tmpAll (s : Emission) (stem : String) : Nat → List String × Emission
  | 0 => ([], s)
  | n + 1 =>
    let (bound, s) := s.tmp stem
    let (others, s) := s.tmpAll stem n
    (bound :: others, s)

def bindParams (s : Emission) (names : List String) : Emission :=
  let (params, s) := s.freshAll names
  { s with params }

def write (s : Emission) (stmt : Stmt) : Emission :=
  { s with body := s.body ++ [stmt] }

/-- A plain name that stands for the value: the operand itself if it is one already. -/
def materialize (s : Emission) (value : Expr) (stem : String) : Expr × Emission :=
  if Name.isPlain value.render.toList then (value, s)
  else
    let (name, s) := s.tmp stem
    (.name name, s.write (.const name none value))

def push (s : Emission) (value : Expr) : Emission :=
  { s with operands := value :: s.operands }

def pushAll (s : Emission) (values : List Expr) : Emission :=
  { s with operands := values.reverse ++ s.operands }

def pop (s : Emission) : Except Fault (Expr × Emission) :=
  match s.operands with
  | [] => throw (.stack .empty)
  | value :: rest => pure (value, { s with operands := rest })

def popN (s : Emission) (n : Nat) : Except Fault (List Expr × Emission) :=
  if s.operands.length < n then throw (.stack (.tooFew n s.operands.length))
  else pure ((s.operands.take n).reverse, { s with operands := s.operands.drop n })

def roll (s : Emission) (depth : Nat) : Except Fault Emission :=
  match s.operands[depth]? with
  | none => throw (.stack (.roll depth s.operands.length))
  | some value => pure { s with operands := value :: s.operands.eraseIdx depth }

def beginBlock (s : Emission) (inputs : Nat) (loop : Bool) : Except Fault Emission := do
  let (moved, s) ← s.popN inputs
  let frame : Frame := { outerOperands := s.operands, outerBody := s.body, loop }
  pure { s with frames := frame :: s.frames, operands := moved.reverse, body := [] }

def endBlock (s : Emission) (results : Nat) : Except Fault Emission :=
  match s.frames with
  | [] => throw (.stack .blockNotOpen)
  | frame :: frames =>
    if s.operands.length ≠ results then
      throw (.stack (.blockLeaves results s.operands.length))
    else
      let block : Block := ⟨s.body, s.operands.reverse, frame.loop, frame.captures⟩
      pure { s with
        frames, blocks := block :: s.blocks,
        operands := frame.outerOperands, body := frame.outerBody }

def popBlock (s : Emission) : Except Fault (Block × Emission) :=
  match s.blocks with
  | [] => throw (.stack .noBlock)
  | block :: rest => pure (block, { s with blocks := rest })

def payload (s : Emission) : Except Fault (String × Emission) :=
  match s.frames with
  | [] => throw (.stack .noEnclosingBlock)
  | frame :: frames =>
    match frame.captures.payload with
    | some name => pure (name, s)
    | none =>
      let (name, s) := s.tmp "payload"
      let captures := { frame.captures with payload := some name }
      pure (name, { s with frames := { frame with captures } :: frames })

def loopFrame (s : Emission) : Except Fault Frame :=
  match s.frames.find? (·.loop) with
  | none => throw (.stack .noEnclosingLoop)
  | some frame => pure frame

def setLoopCaptures (captures : Captures) : List Frame → List Frame
  | [] => []
  | frame :: rest =>
    if frame.loop then { frame with captures } :: rest else frame :: setLoopCaptures captures rest

def item (s : Emission) : Except Fault (String × Emission) := do
  let frame ← s.loopFrame
  match frame.captures.item with
  | some name => pure (name, s)
  | none =>
    let (name, s) := s.tmp "elem"
    let captures := { frame.captures with item := some name }
    pure (name, { s with frames := setLoopCaptures captures s.frames })

/-- The base pointer's name of the innermost loop; the index is named with it. -/
def base (s : Emission) : Except Fault (String × Emission) := do
  let frame ← s.loopFrame
  match frame.captures.base with
  | some name => pure (name, s)
  | none =>
    let (name, s) := s.tmp "base"
    let (index, s) := s.tmp "index"
    let captures := { frame.captures with base := some name, index := some index }
    pure (name, { s with frames := setLoopCaptures captures s.frames })

/-- The first request decides the area's size and alignment. -/
def useReturnArea (s : Emission) (size align : Nat) : Area × Emission :=
  match s.returnArea with
  | some area => (area, s)
  | none =>
    let (name, s) := s.fresh "ret_area"
    (⟨name, size, align⟩, { s with returnArea := some ⟨name, size, align⟩ })

def useParamArea (s : Emission) (size align : Nat) : Area × Emission :=
  match s.paramArea with
  | some area => (area, s)
  | none =>
    let (name, s) := s.fresh "param_area"
    (⟨name, size, align⟩, { s with paramArea := some ⟨name, size, align⟩ })

def checkFinished (s : Emission) : Except Fault Unit :=
  if !s.frames.isEmpty then throw (.stack (.leftOpen s.frames.length))
  else if !s.blocks.isEmpty then throw (.stack (.neverConsumed s.blocks.length))
  else if !s.operands.isEmpty then throw (.stack (.leftOver s.operands.length))
  else pure ()

end Emission

end ZigBindings
