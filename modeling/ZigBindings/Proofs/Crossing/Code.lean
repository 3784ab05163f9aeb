import ZigBindings.Crossing.Sequence
import ZigBindings.Proofs.Types.Walk

/-! The code that moves a value, read off the tree of its type. The generator's walks over the
arena end with exactly this code. -/

namespace ZigBindings
open Layout (Extent)
open Crossing Instruction

def Form.lowering : Form → Nat → Nat → Instruction
  | .tuple, id, arity => tupleLower id arity
  | .record, id, _ => recordLower id

def Form.lifting : Form → Nat → Nat → Instruction
  | .tuple, id, arity => tupleLift id arity
  | .record, id, _ => recordLift id

namespace Tree

/-- Lists of these elements lie in memory as they lie in a slice. -/
def isCanonical (t : Tree) : Bool :=
  match t.core with
  | prim p => p.isInteger || p.isFloat
  | _ => false

def lowerList (element : Tree) (body : List Instruction) : List Instruction :=
  if element.isCanonical then [listCanonLower element.type]
  else [blockBegin 0 true, iterElem] ++ body ++
    [blockEnd 0, listLower element.type element.extent.size element.extent.align]

def liftList (element : Tree) (body : List Instruction) : List Instruction :=
  if element.isCanonical then [listCanonLift element.type]
  else [blockBegin 0 true] ++ body ++ [blockEnd 1, listLift element.type element.extent.size]

mutual
def write : Tree → Instruction → Nat → List Instruction
  | prim p, address, offset =>
    match Access.ofPrimitive? p with
    | none => stringLower :: storePair address offset
    | some access => [numericWiden p access.slot, address, store access offset]
  | product form id fields offsets _, address, offset =>
    form.lowering id fields.length :: writeAll fields offsets address offset
  | enumeration id count _, address, offset =>
    [enumLower id, address, store (discriminantAccess count) offset]
  | option _ payload start _, address, offset =>
    [blockBegin 0 false, i32Const 0, address, store .u8 offset, blockEnd 0,
      blockBegin 0 false, i32Const 1, address, store .u8 offset, variantPayload] ++
      payload.write address (offset + start) ++ [blockEnd 0, optionLower payload.type []]
  | list _ element, address, offset =>
    lowerList element (element.write iterBasePointer 0) ++ storePair address offset
  | synonym _ target, address, offset => target.write address offset

/-- The last member is on top of the stack, so it is written first. -/
def writeAll : List Tree → List Nat → Instruction → Nat → List Instruction
  | t :: rest, o :: offsets, address, offset =>
    writeAll rest offsets address offset ++ t.write address (offset + o)
  | _, _, _, _ => []
end

mutual
def read : Tree → Instruction → Nat → List Instruction
  | prim p, address, offset =>
    match Access.ofPrimitive? p with
    | none => loadPair address offset ++ [stringLift]
    | some access => [address, load access offset, numericNarrow access.slot p]
  | product form id fields offsets _, address, offset =>
    readAll fields offsets address offset ++ [form.lifting id fields.length]
  | enumeration id count _, address, offset =>
    [address, load (discriminantAccess count) offset, enumLift id]
  | option _ payload start _, address, offset =>
    [address, load .u8 offset, blockBegin 0 false, blockEnd 0, blockBegin 0 false] ++
      payload.read address (offset + start) ++ [blockEnd 1, optionLift payload.type]
  | list _ element, address, offset =>
    loadPair address offset ++ liftList element (element.read iterBasePointer 0)
  | synonym _ target, address, offset => target.read address offset

def readAll : List Tree → List Nat → Instruction → Nat → List Instruction
  | t :: rest, o :: offsets, address, offset =>
    t.read address (offset + o) ++ readAll rest offsets address offset
  | _, _, _, _ => []
end

mutual
def lower : Tree → List Instruction
  | prim .string => [stringLower]
  | prim p => [numericWiden p ((Layout.primitiveSlots p).headD .i32)]
  | product form id fields _ _ => form.lowering id fields.length :: lowerAll 0 fields
  | enumeration id _ _ => [enumLower id]
  | option _ payload _ _ =>
    [blockBegin 0 false, i32Const 0] ++ zeros payload.slots ++
      [blockEnd (payload.slots.length + 1)] ++
      [blockBegin 0 false, i32Const 1, variantPayload] ++ payload.lower ++
      [blockEnd (payload.slots.length + 1), optionLower payload.type (.i32 :: payload.slots)]
  | list _ element => lowerList element (element.write iterBasePointer 0)
  | synonym _ target => target.lower

def lowerAll (lowered : Nat) : List Tree → List Instruction
  | [] => []
  | t :: rest =>
    rollTo (rest.length + lowered) ++ t.lower ++ lowerAll (lowered + t.slots.length) rest
end

mutual
def lift : Tree → List Instruction
  | prim .string => [stringLift]
  | prim p => [numericNarrow ((Layout.primitiveSlots p).headD .i32) p]
  | product form id fields _ _ => liftAll 0 fields ++ [form.lifting id fields.length]
  | enumeration id _ _ => [enumLift id]
  | option _ payload _ _ =>
    [blockBegin 0 false, blockEnd 0, blockBegin payload.slots.length false] ++ payload.lift ++
      [blockEnd 1, optionLift payload.type]
  | list _ element => liftList element (element.read iterBasePointer 0)
  | synonym _ target => target.lift

def liftAll (lifted : Nat) : List Tree → List Instruction
  | [] => []
  | t :: rest =>
    (List.replicate t.slots.length
      (rollTo (t.slots.length + (slotsAll rest).length - 1 + lifted))).flatten ++
      t.lift ++ liftAll (lifted + 1) rest
end

variable {a : Arena} {laid : Prop}

theorem isCanonical_eq {t : Tree} (unfolds : t.Unfolds a) :
    Crossing.isCanonical a t.type = .ok t.isCanonical := by
  simp only [Crossing.isCanonical, unalias_core unfolds, ok_bind, isCanonical]
  cases t.core with
  | prim p => rfl
  | _ => rfl

theorem lowerList_eq {element : Tree} (unfolds : element.Unfolds a) {write : Mover}
    {body : List Instruction} (written : write element.type iterBasePointer 0 = .ok body) :
    Crossing.lowerList a write element.type = .ok (lowerList element body) := by
  simp only [Crossing.lowerList, isCanonical_eq unfolds, ok_bind, lowerList, written,
    measure_extent unfolds]
  split <;> rfl

theorem liftList_eq {element : Tree} (unfolds : element.Unfolds a) {read : Mover}
    {body : List Instruction} (found : read element.type iterBasePointer 0 = .ok body) :
    Crossing.liftList a read element.type = .ok (liftList element body) := by
  simp only [Crossing.liftList, isCanonical_eq unfolds, ok_bind, liftList, found,
    measure_extent unfolds]
  split <;> rfl

theorem payloadOffset_eq {id start : Nat} {payload : Tree} {extent : Extent}
    (unfolds : (option id payload start extent).Unfolds a) :
    Layout.payloadOffset a id = .ok start := by
  obtain ⟨kind, found, rfl⟩ := unfolds.rooted id rfl
  obtain ⟨-, lays, inner⟩ := unfolds
  obtain ⟨placed, -⟩ := lays trivial
  simp [Layout.payloadOffset, found, Kind.cases?, Layout.measureAll, measure_extent inner, placed,
    pure_eq_ok]

theorem writeFields_eq (write : Mover) {fields : List Tree} {offsets : List Nat} {extent : Extent}
    (unfolds : UnfoldsAll a fields) (lays : Lays fields offsets extent)
    (address : Instruction) (offset : Nat)
    (written : ∀ field ∈ fields, ∀ o, write field.type address o = .ok (field.write address o)) :
    Crossing.writeFields a write (fields.map type) address offset =
      .ok (writeAll fields offsets address offset) := by
  have parts : ∀ (fields : List Tree) (offsets : List Nat),
      (∀ field ∈ fields, ∀ o, write field.type address o = .ok (field.write address o)) →
      ∃ codes, (((fields.map type).zip offsets).reverse.mapM fun field =>
          write field.1 address (offset + field.2)) = .ok codes ∧
        codes.flatten = writeAll fields offsets address offset := by
    intro fields
    induction fields with
    | nil => intro offsets _; exact ⟨[], rfl, by simp [writeAll]⟩
    | cons field fields ih =>
      intro offsets each
      cases offsets with
      | nil => exact ⟨[], rfl, by simp [writeAll]⟩
      | cons o offsets =>
        obtain ⟨codes, others, joined⟩ := ih offsets fun f member => each f (by simp [member])
        refine ⟨codes ++ [field.write address (offset + o)], ?_, ?_⟩
        · simp only [List.map_cons, List.zip_cons_cons, List.reverse_cons, List.mapM_append, others,
            List.mapM_cons, List.mapM_nil, each field (by simp), ok_bind, pure_eq_ok]
        · simp [writeAll, joined]
  obtain ⟨codes, done, joined⟩ := parts fields offsets written
  simp only [Crossing.writeFields, fieldOffsets_of_lays unfolds lays, ok_bind, done, joined,
    pure_eq_ok]

theorem readFields_eq (read : Mover) {fields : List Tree} {offsets : List Nat} {extent : Extent}
    (unfolds : UnfoldsAll a fields) (lays : Lays fields offsets extent)
    (address : Instruction) (offset : Nat)
    (found : ∀ field ∈ fields, ∀ o, read field.type address o = .ok (field.read address o)) :
    Crossing.readFields a read (fields.map type) address offset =
      .ok (readAll fields offsets address offset) := by
  have parts : ∀ (fields : List Tree) (offsets : List Nat),
      (∀ field ∈ fields, ∀ o, read field.type address o = .ok (field.read address o)) →
      ∃ codes, (((fields.map type).zip offsets).mapM fun field =>
          read field.1 address (offset + field.2)) = .ok codes ∧
        codes.flatten = readAll fields offsets address offset := by
    intro fields
    induction fields with
    | nil => intro offsets _; exact ⟨[], rfl, by simp [readAll]⟩
    | cons field fields ih =>
      intro offsets each
      cases offsets with
      | nil => exact ⟨[], rfl, by simp [readAll]⟩
      | cons o offsets =>
        obtain ⟨codes, others, joined⟩ := ih offsets fun f member => each f (by simp [member])
        refine ⟨field.read address (offset + o) :: codes, ?_, ?_⟩
        · simp only [List.map_cons, List.zip_cons_cons, others, List.mapM_cons,
            each field (by simp), ok_bind, pure_eq_ok]
        · simp [readAll, joined]
  obtain ⟨codes, done, joined⟩ := parts fields offsets found
  simp only [Crossing.readFields, fieldOffsets_of_lays unfolds lays, ok_bind, done, joined,
    pure_eq_ok]

theorem writeWithin_eq {t : Tree} (unfolds : t.Unfolds a) (depth : Nat) (deep : t.height < depth)
    (address : Instruction) (offset : Nat) :
    writeWithin a depth t.type address offset = .ok (t.write address offset) := by
  induction t generalizing depth address offset with
  | prim p =>
    obtain ⟨depth, rfl, -⟩ := exists_below deep
    rw [writeWithin, unalias_core unfolds]
    cases p <;> rfl
  | synonym id target ih =>
    obtain ⟨depth, rfl, below⟩ := exists_below deep
    have inner := ih unfolds.2 (depth + 1) (Nat.lt_succ_of_lt below) address offset
    rw [writeWithin, unalias_core unfolds.2] at inner
    rw [writeWithin, unalias_core unfolds]
    exact inner
  | product form id fields offsets extent ih =>
    obtain ⟨depth, rfl, below⟩ := exists_below deep
    obtain ⟨kind, found, stands⟩ := unfolds.rooted id rfl
    have reached := unalias_core unfolds
    obtain ⟨-, lays, all⟩ := unfolds
    have members := writeFields_eq (writeWithin a depth) all (lays trivial) address offset
      fun field member o => ih field member (mirrorsAll_iff.mp all field member) depth
        (Nat.lt_of_le_of_lt (height_le_all member) below) address o
    rw [writeWithin, reached]
    obtain ⟨rfl, rfl⟩ | ⟨parts, rfl, rfl, types⟩ := product_kind stands
    · simp only [core, type, found, ok_bind, members, write, Form.lowering, List.length_map,
        pure_eq_ok]
    · simp only [core, type, found, ok_bind, types, members, write, Form.lowering, pure_eq_ok]
  | enumeration id count extent =>
    obtain ⟨depth, rfl, -⟩ := exists_below deep
    obtain ⟨kind, found, cases, rfl, rfl⟩ := unfolds.rooted id rfl
    rw [writeWithin, unalias_core unfolds]
    simp only [core, type, found, ok_bind, write, pure_eq_ok]
  | option id payload start extent ih =>
    obtain ⟨depth, rfl, below⟩ := exists_below deep
    obtain ⟨kind, found, rfl⟩ := unfolds.rooted id rfl
    have inner := ih unfolds.2.2 depth below address (offset + start)
    rw [writeWithin, unalias_core unfolds]
    change (a.kind id >>= _) = _
    rw [found]
    simp only [ok_bind, payloadOffset_eq unfolds, inner, pure_eq_ok, write]
    rfl
  | list id element ih =>
    obtain ⟨depth, rfl, below⟩ := exists_below deep
    obtain ⟨kind, found, rfl⟩ := unfolds.rooted id rfl
    have inner := lowerList_eq unfolds.2 (ih unfolds.2 depth below iterBasePointer 0)
    rw [writeWithin, unalias_core unfolds]
    change (a.kind id >>= _) = _
    rw [found]
    simp only [ok_bind, inner, pure_eq_ok, write]

theorem write_eq {t : Tree} (unfolds : t.Unfolds a) (address : Instruction) (offset : Nat) :
    Crossing.write a t.type address offset = .ok (t.write address offset) :=
  writeWithin_eq unfolds _ (by have := height_le unfolds; simp only [Arena.depth]; omega) address offset

theorem readWithin_eq {t : Tree} (unfolds : t.Unfolds a) (depth : Nat) (deep : t.height < depth)
    (address : Instruction) (offset : Nat) :
    readWithin a depth t.type address offset = .ok (t.read address offset) := by
  induction t generalizing depth address offset with
  | prim p =>
    obtain ⟨depth, rfl, -⟩ := exists_below deep
    rw [readWithin, unalias_core unfolds]
    cases p <;> rfl
  | synonym id target ih =>
    obtain ⟨depth, rfl, below⟩ := exists_below deep
    have inner := ih unfolds.2 (depth + 1) (Nat.lt_succ_of_lt below) address offset
    rw [readWithin, unalias_core unfolds.2] at inner
    rw [readWithin, unalias_core unfolds]
    exact inner
  | product form id fields offsets extent ih =>
    obtain ⟨depth, rfl, below⟩ := exists_below deep
    obtain ⟨kind, found, stands⟩ := unfolds.rooted id rfl
    have reached := unalias_core unfolds
    obtain ⟨-, lays, all⟩ := unfolds
    have members := readFields_eq (readWithin a depth) all (lays trivial) address offset
      fun field member o => ih field member (mirrorsAll_iff.mp all field member) depth
        (Nat.lt_of_le_of_lt (height_le_all member) below) address o
    rw [readWithin, reached]
    obtain ⟨rfl, rfl⟩ | ⟨parts, rfl, rfl, types⟩ := product_kind stands
    · simp only [core, type, found, ok_bind, members, read, Form.lifting, List.length_map,
        pure_eq_ok]
    · simp only [core, type, found, ok_bind, types, members, read, Form.lifting, pure_eq_ok]
  | enumeration id count extent =>
    obtain ⟨depth, rfl, -⟩ := exists_below deep
    obtain ⟨kind, found, cases, rfl, rfl⟩ := unfolds.rooted id rfl
    rw [readWithin, unalias_core unfolds]
    simp only [core, type, found, ok_bind, read, pure_eq_ok]
  | option id payload start extent ih =>
    obtain ⟨depth, rfl, below⟩ := exists_below deep
    obtain ⟨kind, found, rfl⟩ := unfolds.rooted id rfl
    have inner := ih unfolds.2.2 depth below address (offset + start)
    rw [readWithin, unalias_core unfolds]
    change (a.kind id >>= _) = _
    rw [found]
    simp only [ok_bind, payloadOffset_eq unfolds, inner, pure_eq_ok, read]
    rfl
  | list id element ih =>
    obtain ⟨depth, rfl, below⟩ := exists_below deep
    obtain ⟨kind, found, rfl⟩ := unfolds.rooted id rfl
    have inner := liftList_eq unfolds.2 (ih unfolds.2 depth below iterBasePointer 0)
    rw [readWithin, unalias_core unfolds]
    change (a.kind id >>= _) = _
    rw [found]
    simp only [ok_bind, inner, pure_eq_ok, read]

theorem read_eq {t : Tree} (unfolds : t.Unfolds a) (address : Instruction) (offset : Nat) :
    Crossing.read a t.type address offset = .ok (t.read address offset) :=
  readWithin_eq unfolds _ (by have := height_le unfolds; simp only [Arena.depth]; omega) address offset

theorem lowerFields_eq (lower : Converter) {fields : List Tree} (mirrors : MirrorsAll a laid fields)
    (lowered : ∀ field ∈ fields, lower field.type = .ok field.lower) (below : Nat) :
    lowerFields a lower below (fields.map type) = .ok (lowerAll below fields) := by
  induction fields generalizing below with
  | nil => rfl
  | cons t rest ih =>
    have others := ih mirrors.2 (fun f member => lowered f (by simp [member]))
      (below + t.slots.length)
    simp only [List.map_cons, lowerFields, lowered t (by simp), flatten_slots mirrors.1, others,
      ok_bind, lowerAll, List.length_map, pure_eq_ok]

theorem lowerWithin_eq {t : Tree} (mirrors : t.Mirrors a laid) (depth : Nat) (deep : t.height < depth) :
    lowerWithin a depth t.type = .ok t.lower := by
  induction t generalizing depth with
  | prim p =>
    obtain ⟨depth, rfl, -⟩ := exists_below deep
    rw [lowerWithin, unalias_core mirrors]
    cases p <;> rfl
  | synonym id target ih =>
    obtain ⟨depth, rfl, below⟩ := exists_below deep
    have inner := ih mirrors.2 (depth + 1) (Nat.lt_succ_of_lt below)
    rw [lowerWithin, unalias_core mirrors.2] at inner
    rw [lowerWithin, unalias_core mirrors]
    exact inner
  | product form id fields offsets extent ih =>
    obtain ⟨depth, rfl, below⟩ := exists_below deep
    obtain ⟨kind, found, stands⟩ := mirrors.rooted id rfl
    have reached := unalias_core mirrors
    have all := mirrors.2.2
    have members := lowerFields_eq (lowerWithin a depth) all (fun field member =>
      ih field member (mirrorsAll_iff.mp all field member) depth
        (Nat.lt_of_le_of_lt (height_le_all member) below)) 0
    rw [lowerWithin, reached]
    obtain ⟨rfl, rfl⟩ | ⟨parts, rfl, rfl, types⟩ := product_kind stands
    · simp only [core, type, found, ok_bind, members, lower, Form.lowering, List.length_map,
        pure_eq_ok]
    · simp only [core, type, found, ok_bind, types, members, lower, Form.lowering, pure_eq_ok]
  | enumeration id count extent =>
    obtain ⟨depth, rfl, -⟩ := exists_below deep
    obtain ⟨kind, found, cases, rfl, rfl⟩ := mirrors.rooted id rfl
    rw [lowerWithin, unalias_core mirrors]
    simp only [core, type, found, ok_bind, lower, pure_eq_ok]
  | option id payload start extent ih =>
    obtain ⟨depth, rfl, below⟩ := exists_below deep
    obtain ⟨kind, found, rfl⟩ := mirrors.rooted id rfl
    have inner := ih mirrors.2.2 depth below
    rw [lowerWithin, unalias_core mirrors]
    change (a.kind id >>= _) = _
    rw [found]
    simp only [ok_bind, flatten_slots mirrors.2.2, inner, pure_eq_ok, lower]
  | list id element ih =>
    obtain ⟨depth, rfl, -⟩ := exists_below deep
    obtain ⟨kind, found, rfl⟩ := mirrors.rooted id rfl
    have inner := lowerList_eq mirrors.2 (write_eq mirrors.2 iterBasePointer 0)
    rw [lowerWithin, unalias_core mirrors]
    change (a.kind id >>= _) = _
    rw [found]
    simp only [ok_bind, inner, lower]

theorem lower_eq {t : Tree} (mirrors : t.Mirrors a laid) : Crossing.lower a t.type = .ok t.lower :=
  lowerWithin_eq mirrors _ (by have := height_le mirrors; simp only [Arena.depth]; omega)

theorem widthOf_zip (fields : List Tree) :
    widthOf ((fields.map type).zip (fields.map fun t => t.slots.length)) =
      (slotsAll fields).length := by
  induction fields with
  | nil => rfl
  | cons t rest ih => simp [widthOf, slotsAll, ih]

theorem liftFields_eq (lift : Converter) {fields : List Tree}
    (lifted : ∀ field ∈ fields, lift field.type = .ok field.lift) (above : Nat) :
    liftFields lift above ((fields.map type).zip (fields.map fun t => t.slots.length)) =
      .ok (liftAll above fields) := by
  induction fields generalizing above with
  | nil => rfl
  | cons t rest ih =>
    have others := ih (fun f member => lifted f (by simp [member])) (above + 1)
    have widths := widthOf_zip rest
    simp only [List.map_cons, List.zip_cons_cons, liftFields, lifted t (by simp), others, ok_bind,
      liftAll, widths, pure_eq_ok]

theorem liftRecord_eq (lift : Converter) {fields : List Tree} (mirrors : MirrorsAll a laid fields)
    (lifted : ∀ field ∈ fields, lift field.type = .ok field.lift) :
    liftRecord a lift (fields.map type) = .ok (liftAll 0 fields) := by
  have rows := mapM_fields (f := Layout.flatten a) fun field member =>
    flatten_slots (mirrorsAll_iff.mp mirrors field member)
  have parts := liftFields_eq lift lifted 0
  simp only [liftRecord, rows, ok_bind, List.map_map]
  exact parts

theorem liftWithin_eq {t : Tree} (mirrors : t.Mirrors a laid) (depth : Nat) (deep : t.height < depth) :
    liftWithin a depth t.type = .ok t.lift := by
  induction t generalizing depth with
  | prim p =>
    obtain ⟨depth, rfl, -⟩ := exists_below deep
    rw [liftWithin, unalias_core mirrors]
    cases p <;> rfl
  | synonym id target ih =>
    obtain ⟨depth, rfl, below⟩ := exists_below deep
    have inner := ih mirrors.2 (depth + 1) (Nat.lt_succ_of_lt below)
    rw [liftWithin, unalias_core mirrors.2] at inner
    rw [liftWithin, unalias_core mirrors]
    exact inner
  | product form id fields offsets extent ih =>
    obtain ⟨depth, rfl, below⟩ := exists_below deep
    obtain ⟨kind, found, stands⟩ := mirrors.rooted id rfl
    have reached := unalias_core mirrors
    have all := mirrors.2.2
    have members := liftRecord_eq (liftWithin a depth) all fun field member =>
      ih field member (mirrorsAll_iff.mp all field member) depth
        (Nat.lt_of_le_of_lt (height_le_all member) below)
    rw [liftWithin, reached]
    obtain ⟨rfl, rfl⟩ | ⟨parts, rfl, rfl, types⟩ := product_kind stands
    · simp only [core, type, found, ok_bind, members, lift, Form.lifting, List.length_map,
        pure_eq_ok]
    · simp only [core, type, found, ok_bind, types, members, lift, Form.lifting, pure_eq_ok]
  | enumeration id count extent =>
    obtain ⟨depth, rfl, -⟩ := exists_below deep
    obtain ⟨kind, found, cases, rfl, rfl⟩ := mirrors.rooted id rfl
    rw [liftWithin, unalias_core mirrors]
    simp only [core, type, found, ok_bind, lift, pure_eq_ok]
  | option id payload start extent ih =>
    obtain ⟨depth, rfl, below⟩ := exists_below deep
    obtain ⟨kind, found, rfl⟩ := mirrors.rooted id rfl
    have inner := ih mirrors.2.2 depth below
    rw [liftWithin, unalias_core mirrors]
    change (a.kind id >>= _) = _
    rw [found]
    simp only [ok_bind, flatten_slots mirrors.2.2, inner, pure_eq_ok, lift]
  | list id element ih =>
    obtain ⟨depth, rfl, -⟩ := exists_below deep
    obtain ⟨kind, found, rfl⟩ := mirrors.rooted id rfl
    have inner := liftList_eq mirrors.2 (read_eq mirrors.2 iterBasePointer 0)
    rw [liftWithin, unalias_core mirrors]
    change (a.kind id >>= _) = _
    rw [found]
    simp only [ok_bind, inner, lift]

theorem lift_eq {t : Tree} (mirrors : t.Mirrors a laid) : Crossing.lift a t.type = .ok t.lift :=
  liftWithin_eq mirrors _ (by have := height_le mirrors; simp only [Arena.depth]; omega)

end Tree

end ZigBindings
