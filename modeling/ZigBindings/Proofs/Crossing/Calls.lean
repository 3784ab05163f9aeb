import ZigBindings.Proofs.Crossing.Passing
import ZigBindings.Proofs.Machine.Session

/-! The whole code of a wrapper and of an entry point, read off the trees of a function's types,
and the areas that such code asks for. -/

namespace ZigBindings
open Machine Instruction Crossing

namespace Group

variable {a : Arena} {types : List Ty} (g : Group a types)

def paramArea : Instruction := paramPointer g.extent.size g.extent.align

def returnArea : Instruction := returnPointer g.extent.size g.extent.align

/-- Parameters that need more slots than there may be go through memory. -/
def spills : Bool := decide (maxFlatParams < g.slots.length)

def returned : Bool := decide (maxFlatResults < g.slots.length)

/-- The size and the alignment of the group's area, if it has one. -/
def area (used : Bool) : Option (Nat × Nat) :=
  if used then some (g.extent.size, g.extent.align) else none

def pass : List Instruction :=
  if g.spills then Tree.storeAll g.paramArea 0 g.fields g.offsets ++ [g.paramArea]
  else Tree.passAll 0 g.fields

def receive : List Instruction :=
  if g.spills then Tree.readAll g.fields g.offsets (getArg 0) 0 else Tree.receiveAll 0 g.fields

def give : List Instruction :=
  if g.returned then Tree.writeAll g.fields g.offsets g.returnArea 0 ++ [g.returnArea]
  else (g.fields.map Tree.lower).flatten

/-- A wrapper's way from what it gets back to its results. -/
def take : List Instruction :=
  if g.returned then Tree.readAll g.fields g.offsets g.returnArea 0
  else (g.fields.map Tree.lift).flatten

/-- What values are passed in: slots of their own, or a pointer to the group's area. -/
def row (indirect : Bool) : List Slot :=
  if indirect then [.i32] else g.slots

theorem paramArea_addresses : Addresses g.paramArea := ⟨rfl, rfl⟩

theorem returnArea_addresses : Addresses g.returnArea := ⟨rfl, rfl⟩

theorem area_piece {area : Instruction} (addresses : Addresses area) : Piece area [area] :=
  .pointed addresses .nil

theorem pass_piece : Piece g.paramArea g.pass := by
  unfold pass
  split
  · exact (Tree.storeAll_piece g.paramArea_addresses _ _ _).append (area_piece g.paramArea_addresses)
  · exact Tree.passAll_piece _ _ _

theorem receive_piece : Piece (getArg 0) g.receive := by
  unfold receive
  split
  · exact Tree.readAll_piece _ _ ⟨rfl, rfl⟩ _
  · exact Tree.receiveAll_piece _ _ _

theorem give_piece : Piece g.returnArea g.give := by
  unfold give
  split
  · exact (Tree.writeAll_piece _ _ g.returnArea_addresses _).append
      (area_piece g.returnArea_addresses)
  · exact Tree.lowers_piece _ _

theorem take_piece : Piece g.returnArea g.take := by
  unfold take
  split
  · exact Tree.readAll_piece _ _ g.returnArea_addresses _
  · exact Tree.lifts_piece _ _

end Group

/-- The first area in a piece of code is the one that the piece is given, if it mentions one. -/
theorem Piece.findSome? {address : Instruction} {code : List Instruction} {α : Type}
    (piece : Piece address code) {select : Instruction → Option α}
    (only : ∀ inst, select inst ≠ none → inst.isArea = true) :
    code.findSome? select = none ∨ code.findSome? select = select address := by
  cases found : code.findSome? select with
  | none => exact .inl rfl
  | some chosen =>
    obtain ⟨inst, member, selected⟩ := List.exists_of_findSome?_eq_some found
    have same := piece.areas inst member (only inst (by simp [selected]))
    rw [← same, selected]
    exact .inr rfl

theorem Piece.findSome?_none {address : Instruction} {code : List Instruction} {α : Type}
    (piece : Piece address code) {select : Instruction → Option α}
    (only : ∀ inst, select inst ≠ none → inst.isArea = true) (other : select address = none) :
    code.findSome? select = none := by
  rcases piece.findSome? only with absent | found
  · exact absent
  · rw [found, other]

theorem Piece.findSome?_append {address : Instruction} {code : List Instruction} {α : Type}
    (piece : Piece address code) {select : Instruction → Option α}
    (only : ∀ inst, select inst ≠ none → inst.isArea = true) :
    (code ++ [address]).findSome? select = select address := by
  rw [List.findSome?_append]
  rcases piece.findSome? only with absent | found
  · rw [absent]
    cases known : select address <;> simp [known]
  · rw [found]
    cases known : select address <;> simp [known]

theorem paramArea?_only (inst : Instruction) (some : paramArea? inst ≠ none) :
    inst.isArea = true := by
  cases inst <;> first | rfl | exact absurd rfl some

theorem returnArea?_only (inst : Instruction) (some : returnArea? inst ≠ none) :
    inst.isArea = true := by
  cases inst <;> first | rfl | exact absurd rfl some

structure Call (a : Arena) (f : Function) where
  params : Group a (f.params.map (·.2))
  results : Group a f.results.types

namespace Call

variable {a : Arena} {f : Function} (c : Call a f)

def signature (direction : Direction) : Signature where
  params := c.params.row c.params.spills ++
    match direction with
    | .outward => if c.results.returned then [.i32] else []
    | .inward => []
  results :=
    match direction with
    | .outward => if c.results.returned then [] else c.results.slots
    | .inward => c.results.row c.results.returned
  indirectParams := c.params.spills
  returnPointer := c.results.returned

def leave : List Instruction :=
  c.params.pass ++ if c.results.returned then [c.results.returnArea] else []

def outward : List Instruction :=
  c.leave ++ callWasm f.name (c.signature .outward) ::
    (c.results.take ++ [ret f.results.types.length])

def inward : List Instruction :=
  c.params.receive ++ callInterface f ::
    (c.results.give ++ [ret (c.signature .inward).results.length])

theorem outward_split : c.outward = c.leave ++ callWasm f.name (c.signature .outward) ::
    (c.results.take ++ [ret f.results.types.length]) := rfl

theorem inward_split : c.inward = c.params.receive ++ callInterface f ::
    (c.results.give ++ [ret (c.signature .inward).results.length]) := rfl

theorem leave_calls : ∀ inst ∈ c.leave, isCall inst = false := by
  intro inst member
  rcases List.mem_append.mp member with passed | area
  · exact c.params.pass_piece.calls inst passed
  · split at area
    · cases List.mem_singleton.mp area
      rfl
    · cases area

theorem signature_eq (direction : Direction) :
    Crossing.signature a direction f = .ok (c.signature direction) := by
  simp only [Crossing.signature, c.params.flattenAll_eq, c.results.flattenAll_eq, ok_bind, signature,
    Group.row, Group.spills, Group.returned, decide_eq_true_eq]
  by_cases few : c.results.slots.length ≤ maxFlatResults
  · have returned : ¬ maxFlatResults < c.results.slots.length := by omega
    cases direction <;> simp [few, returned, pure_eq_ok]
  · have returned : maxFlatResults < c.results.slots.length := by omega
    cases direction <;> simp [few, returned, pure_eq_ok]

theorem passOut_eq : passOut a c.params.spills (f.params.map (·.2)) = .ok c.params.pass := by
  unfold passOut Group.pass
  cases spills : c.params.spills with
  | true =>
    have parts := Tree.writeArguments_eq c.params.unfolds c.params.paramArea 0 c.params.offsets
    rw [c.params.same] at parts
    simp only [Group.paramArea] at parts ⊢
    simp only [c.params.recordLayout_eq, c.params.fieldOffsets_eq, ok_bind, Bool.not_true,
      Bool.false_eq_true, if_false, if_true, parts, pure_eq_ok]
  | false =>
    have parts := Tree.lowerArguments_eq c.params.unfolds 0
    rw [c.params.same] at parts
    simp only [parts, Bool.not_false, Bool.false_eq_true, if_false, if_true]

theorem readAll_eq {types : List Ty} (g : Group a types) (address : Instruction) :
    Crossing.readAll a address types = .ok (Tree.readAll g.fields g.offsets address 0) := by
  have parts := Tree.readFields_eq (read a) g.unfolds g.lays address 0 fun field member o =>
    Tree.read_eq (Tree.mirrorsAll_iff.mp g.unfolds field member) address o
  rwa [g.same] at parts

theorem writeFields_eq {types : List Ty} (g : Group a types) (address : Instruction) :
    writeFields a (write a) types address 0 = .ok (Tree.writeAll g.fields g.offsets address 0) := by
  have parts := Tree.writeFields_eq (write a) g.unfolds g.lays address 0 fun field member o =>
    Tree.write_eq (Tree.mirrorsAll_iff.mp g.unfolds field member) address o
  rwa [g.same] at parts

theorem lifts_eq {types : List Ty} (g : Group a types) :
    types.mapM (lift a) = .ok (g.fields.map Tree.lift) := by
  have parts := Tree.mapM_fields fun field member =>
    Tree.lift_eq (Tree.mirrorsAll_iff.mp g.unfolds field member)
  rwa [g.same] at parts

theorem lowers_eq {types : List Ty} (g : Group a types) :
    types.mapM (lower a) = .ok (g.fields.map Tree.lower) := by
  have parts := Tree.mapM_fields fun field member =>
    Tree.lower_eq (Tree.mirrorsAll_iff.mp g.unfolds field member)
  rwa [g.same] at parts

theorem outward_eq : sequence a .outward f = .ok c.outward := by
  have passed := c.passOut_eq
  have spills : (c.signature .outward).indirectParams = c.params.spills := rfl
  have returned : (c.signature .outward).returnPointer = c.results.returned := rfl
  simp only [Crossing.sequence, Crossing.outward, c.signature_eq, ok_bind, spills, passed, returned]
  cases known : c.results.returned with
  | true =>
    have read := readAll_eq c.results c.results.returnArea
    simp only [Group.returnArea] at read
    simp only [if_true, c.results.recordLayout_eq, read, ok_bind, pure_eq_ok, outward, leave,
      Group.take, Group.returnArea, known]
    simp
  | false =>
    simp only [Bool.false_eq_true, if_false, lifts_eq c.results, ok_bind, pure_eq_ok, outward, leave,
      Group.take, known]
    simp

theorem inward_eq : sequence a .inward f = .ok c.inward := by
  have spills : (c.signature .inward).indirectParams = c.params.spills := rfl
  have returned : (c.signature .inward).returnPointer = c.results.returned := rfl
  have received : ∀ next : List Instruction → Except Fault (List Instruction),
      (if c.params.spills = true then Crossing.readAll a (getArg 0) (f.params.map (·.2)) >>= next
        else liftArguments a 0 (f.params.map (·.2)) >>= next) = next c.params.receive := by
    intro next
    unfold Group.receive
    cases c.params.spills with
    | true => exact congrArg (· >>= next) (readAll_eq c.params (getArg 0))
    | false =>
      have parts := Tree.liftArguments_eq c.params.unfolds 0
      rw [c.params.same] at parts
      exact congrArg (· >>= next) parts
  simp only [Crossing.sequence, Crossing.inward, c.signature_eq, ok_bind, spills, returned]
  cases known : c.results.returned with
  | true =>
    have written := writeFields_eq c.results c.results.returnArea
    simp only [Group.returnArea] at written
    simp only [if_true, c.results.recordLayout_eq, written, ok_bind, pure_eq_ok]
    rw [received]
    simp only [inward, Group.give, Group.returnArea, signature, Group.row, known, if_true]
    simp
  | false =>
    simp only [Bool.false_eq_true, if_false, lowers_eq c.results, ok_bind, pure_eq_ok]
    rw [received]
    simp only [inward, Group.give, known, Bool.false_eq_true, if_false]
    simp

theorem outward_paramArea : c.outward.findSome? paramArea? = c.params.area c.params.spills := by
  have others : ((if c.results.returned then [c.results.returnArea] else []) ++
      callWasm f.name (c.signature .outward) :: (c.results.take ++ [ret f.results.types.length])
      ).findSome? paramArea? = none := by
    have taken := c.results.take_piece.findSome?_none paramArea?_only rfl
    cases c.results.returned <;>
      simp [List.findSome?_append, List.findSome?_cons, taken, paramArea?, Group.returnArea]
  rw [outward, leave, List.append_assoc, List.findSome?_append, others, Option.or_none]
  unfold Group.pass Group.area
  split
  · exact (Tree.storeAll_piece c.params.paramArea_addresses _ _ _).findSome?_append paramArea?_only
  · exact (Tree.passAll_piece iterBasePointer _ _).findSome?_none paramArea?_only rfl

theorem outward_returnArea :
    c.outward.findSome? returnArea? = c.results.area c.results.returned := by
  have passed := c.params.pass_piece.findSome?_none returnArea?_only rfl
  rw [outward, leave, List.append_assoc, List.findSome?_append, passed, Option.none_or]
  unfold Group.area Group.take
  cases c.results.returned with
  | true => rfl
  | false =>
    have lifted := (Tree.lifts_piece iterBasePointer c.results.fields).findSome?_none
      returnArea?_only rfl
    simp [List.findSome?_append, List.findSome?_cons, lifted, returnArea?]

theorem inward_paramArea : c.inward.findSome? paramArea? = none := by
  have received := c.params.receive_piece.findSome?_none paramArea?_only rfl
  have given := c.results.give_piece.findSome?_none paramArea?_only rfl
  simp [inward, List.findSome?_append, List.findSome?_cons, received, given, paramArea?]

theorem inward_returnArea :
    c.inward.findSome? returnArea? = c.results.area c.results.returned := by
  have received := c.params.receive_piece.findSome?_none returnArea?_only rfl
  have given : c.results.give.findSome? returnArea? = c.results.area c.results.returned := by
    unfold Group.give Group.area
    split
    · exact (Tree.writeAll_piece _ _ c.results.returnArea_addresses _).findSome?_append
        returnArea?_only
    · exact (Tree.lowers_piece iterBasePointer _).findSome?_none returnArea?_only rfl
  rw [inward, List.findSome?_append, received, Option.none_or, List.findSome?_cons]
  simp only [returnArea?]
  rw [List.findSome?_append, given]
  cases c.results.area c.results.returned <;> rfl

end Call

end ZigBindings
