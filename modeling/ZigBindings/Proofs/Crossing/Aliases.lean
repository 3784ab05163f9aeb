import ZigBindings.Crossing.Sequence
import ZigBindings.Proofs.Types.Aliases

/-! Code for accepted types does not depend on where aliases lead. No walk over such a type meets
one, so each of its parts is the same in arenas that are alike. -/

namespace ZigBindings.Crossing

variable {a b : Arena} (alike : a.Alike b)
include alike

theorem payloadOffset_alike {id : Nat} {payload : Ty} (found : a.kind id = .ok (.option payload))
    (passable : Passable a payload) : Layout.payloadOffset b id = Layout.payloadOffset a id := by
  have cases : (Kind.option payload).cases? = some [none, some payload] := rfl
  have there := alike.found found (by simp)
  simp only [Layout.payloadOffset, found, there, ok_bind, cases, List.filterMap_cons,
    List.filterMap_nil]
  rw [measureAll_alike alike (by simpa using passable)]

section
variable {element : Ty} (passable : Passable a element)
include passable

theorem isCanonical_alike : isCanonical b element = isCanonical a element := by
  rw [isCanonical, isCanonical, passable.unalias_alike alike]

theorem lowerList_alike {write write' : Mover}
    (same : write' element .iterBasePointer 0 = write element .iterBasePointer 0) :
    lowerList b write' element = lowerList a write element := by
  simp only [lowerList, isCanonical_alike alike passable, passable.measure_alike alike, same]

theorem liftList_alike {read read' : Mover}
    (same : read' element .iterBasePointer 0 = read element .iterBasePointer 0) :
    liftList b read' element = liftList a read element := by
  simp only [liftList, isCanonical_alike alike passable, passable.measure_alike alike, same]

end

section
variable {types : List Ty} (passable : ∀ ty ∈ types, Passable a ty)
include passable

theorem writeFields_alike {write write' : Mover} (address : Instruction) (offset : Nat)
    (same : ∀ ty ∈ types, ∀ offset, write' ty address offset = write ty address offset) :
    writeFields b write' types address offset = writeFields a write types address offset := by
  rw [writeFields, writeFields, fieldOffsets_alike alike passable]
  refine bind_congr_of_ok fun offsets _ => ?_
  rw [mapM_congr fun field member =>
    same field.1 (List.of_mem_zip (List.mem_reverse.mp member)).1 _]

theorem readFields_alike {read read' : Mover} (address : Instruction) (offset : Nat)
    (same : ∀ ty ∈ types, ∀ offset, read' ty address offset = read ty address offset) :
    readFields b read' types address offset = readFields a read types address offset := by
  rw [readFields, readFields, fieldOffsets_alike alike passable]
  refine bind_congr_of_ok fun offsets _ => ?_
  rw [mapM_congr fun field member => same field.1 (List.of_mem_zip member).1 _]

theorem lowerFields_alike {lower lower' : Converter} (lowered : Nat)
    (same : ∀ ty ∈ types, lower' ty = lower ty) :
    lowerFields b lower' lowered types = lowerFields a lower lowered types := by
  induction types generalizing lowered with
  | nil => rfl
  | cons ty rest ih =>
    have others := fun lowered => ih (fun other member => passable other (by simp [member])) lowered
      fun other member => same other (by simp [member])
    simp only [lowerFields, same ty (by simp), (passable ty (by simp)).flatten_alike alike, others]

end

omit alike in
theorem liftFields_congr {lift lift' : Converter} {fields : List (Ty × Nat)} (lifted : Nat)
    (same : ∀ field ∈ fields, lift' field.1 = lift field.1) :
    liftFields lift' lifted fields = liftFields lift lifted fields := by
  induction fields generalizing lifted with
  | nil => rfl
  | cons field rest ih =>
    have others := fun lifted => ih lifted fun other member => same other (by simp [member])
    simp only [liftFields, same field (by simp), others]

theorem liftRecord_alike {types : List Ty} (passable : ∀ ty ∈ types, Passable a ty)
    {lift lift' : Converter} (same : ∀ ty ∈ types, lift' ty = lift ty) :
    liftRecord b lift' types = liftRecord a lift types := by
  have rows : types.mapM (Layout.flatten b) = types.mapM (Layout.flatten a) :=
    mapM_congr fun ty member => (passable ty member).flatten_alike alike
  rw [liftRecord, liftRecord, rows]
  refine bind_congr_of_ok fun rows _ => ?_
  exact liftFields_congr 0 fun field member => same field.1 (List.of_mem_zip member).1

section
variable {ty : Ty} (passable : Passable a ty)
include passable

theorem writeWithin_alike (depth : Nat) (address : Instruction) (offset : Nat) :
    writeWithin b depth ty address offset = writeWithin a depth ty address offset := by
  induction depth generalizing ty address offset with
  | zero => rfl
  | succ depth ih =>
    have reached := passable.unalias_eq
    rw [writeWithin, writeWithin, passable.unalias_alike alike, reached, ok_bind, ok_bind]
    cases passable with
    | prim p => rfl
    | tuple found each =>
      have there := alike.found found (by simp)
      simp only [found, there, ok_bind]
      rw [writeFields_alike alike each address offset fun ty member =>
        ih (each ty member) address]
    | option found inner =>
      have there := alike.found found (by simp)
      simp only [found, there, ok_bind, payloadOffset_alike alike found inner.passable,
        ih inner.passable]
    | list found inner =>
      have there := alike.found found (by simp)
      simp only [found, there, ok_bind]
      rw [lowerList_alike alike inner.passable (ih inner.passable _ _)]

theorem readWithin_alike (depth : Nat) (address : Instruction) (offset : Nat) :
    readWithin b depth ty address offset = readWithin a depth ty address offset := by
  induction depth generalizing ty address offset with
  | zero => rfl
  | succ depth ih =>
    have reached := passable.unalias_eq
    rw [readWithin, readWithin, passable.unalias_alike alike, reached, ok_bind, ok_bind]
    cases passable with
    | prim p => rfl
    | tuple found each =>
      have there := alike.found found (by simp)
      simp only [found, there, ok_bind]
      rw [readFields_alike alike each address offset fun ty member =>
        ih (each ty member) address]
    | option found inner =>
      have there := alike.found found (by simp)
      simp only [found, there, ok_bind, payloadOffset_alike alike found inner.passable,
        ih inner.passable]
    | list found inner =>
      have there := alike.found found (by simp)
      simp only [found, there, ok_bind]
      rw [liftList_alike alike inner.passable (ih inner.passable _ _)]

theorem write_alike (address : Instruction) (offset : Nat) :
    write b ty address offset = write a ty address offset := by
  rw [write, write, alike.depth, writeWithin_alike alike passable]

theorem read_alike (address : Instruction) (offset : Nat) :
    read b ty address offset = read a ty address offset := by
  rw [read, read, alike.depth, readWithin_alike alike passable]

theorem lowerWithin_alike (depth : Nat) : lowerWithin b depth ty = lowerWithin a depth ty := by
  induction depth generalizing ty with
  | zero => rfl
  | succ depth ih =>
    have reached := passable.unalias_eq
    rw [lowerWithin, lowerWithin, passable.unalias_alike alike, reached, ok_bind, ok_bind]
    cases passable with
    | prim p => cases p <;> rfl
    | tuple found each =>
      have there := alike.found found (by simp)
      simp only [found, there, ok_bind]
      rw [lowerFields_alike alike each 0 fun ty member => ih (each ty member)]
    | option found inner =>
      have there := alike.found found (by simp)
      simp only [found, there, ok_bind, inner.passable.flatten_alike alike, ih inner.passable]
    | list found inner =>
      have there := alike.found found (by simp)
      simp only [found, there, ok_bind]
      rw [lowerList_alike alike inner.passable (write_alike alike inner.passable _ _)]

theorem liftWithin_alike (depth : Nat) : liftWithin b depth ty = liftWithin a depth ty := by
  induction depth generalizing ty with
  | zero => rfl
  | succ depth ih =>
    have reached := passable.unalias_eq
    rw [liftWithin, liftWithin, passable.unalias_alike alike, reached, ok_bind, ok_bind]
    cases passable with
    | prim p => cases p <;> rfl
    | tuple found each =>
      have there := alike.found found (by simp)
      simp only [found, there, ok_bind]
      rw [liftRecord_alike alike each fun ty member => ih (each ty member)]
    | option found inner =>
      have there := alike.found found (by simp)
      simp only [found, there, ok_bind, inner.passable.flatten_alike alike, ih inner.passable]
    | list found inner =>
      have there := alike.found found (by simp)
      simp only [found, there, ok_bind]
      rw [liftList_alike alike inner.passable (read_alike alike inner.passable _ _)]

theorem lower_alike : lower b ty = lower a ty := by
  rw [lower, lower, alike.depth, lowerWithin_alike alike passable]

theorem lift_alike : lift b ty = lift a ty := by
  rw [lift, lift, alike.depth, liftWithin_alike alike passable]

end

section
variable {types : List Ty} (passable : ∀ ty ∈ types, Passable a ty)
include passable

theorem lowerArguments_alike (nth : Nat) :
    lowerArguments b nth types = lowerArguments a nth types := by
  induction types generalizing nth with
  | nil => rfl
  | cons ty rest ih =>
    have others := fun nth => ih (fun other member => passable other (by simp [member])) nth
    simp only [lowerArguments, lower_alike alike (passable ty (by simp)), others]

theorem liftArguments_alike (nth : Nat) :
    liftArguments b nth types = liftArguments a nth types := by
  induction types generalizing nth with
  | nil => rfl
  | cons ty rest ih =>
    have others := fun nth => ih (fun other member => passable other (by simp [member])) nth
    simp only [liftArguments, (passable ty (by simp)).flatten_alike alike,
      lift_alike alike (passable ty (by simp)), others]

theorem readAll_alike (address : Instruction) : readAll b address types = readAll a address types :=
  readFields_alike alike passable address 0 fun ty member =>
    read_alike alike (passable ty member) address

end

theorem writeArguments_alike {fields : List (Ty × Nat)}
    (passable : ∀ field ∈ fields, Passable a field.1) (area : Instruction) (nth : Nat) :
    writeArguments b area nth fields = writeArguments a area nth fields := by
  induction fields generalizing nth with
  | nil => rfl
  | cons field rest ih =>
    have others := fun nth => ih (fun other member => passable other (by simp [member])) nth
    simp only [writeArguments, write_alike alike (passable field (by simp)), others]

theorem passOut_alike {types : List Ty} (passable : ∀ ty ∈ types, Passable a ty) (indirect : Bool) :
    passOut b indirect types = passOut a indirect types := by
  have written : ∀ (area : Instruction) (offsets : List Nat),
      writeArguments b area 0 (types.zip offsets) = writeArguments a area 0 (types.zip offsets) :=
    fun area offsets => writeArguments_alike alike (fun field member =>
      passable field.1 (List.of_mem_zip member).1) area 0
  simp only [passOut, lowerArguments_alike alike passable, recordLayout_alike alike passable,
    fieldOffsets_alike alike passable, written]

section
variable {f : Function} (params : ∀ ty ∈ f.params.map (·.2), Passable a ty)
  (results : ∀ ty ∈ f.results.types, Passable a ty)
include params results

theorem signature_alike (direction : Direction) :
    signature b direction f = signature a direction f := by
  rw [signature, signature, flattenAll_alike alike params, flattenAll_alike alike results]

theorem sequence_alike (direction : Direction) :
    sequence b direction f = sequence a direction f := by
  have lifted : f.results.types.mapM (lift b) = f.results.types.mapM (lift a) :=
    mapM_congr fun ty member => lift_alike alike (results ty member)
  have lowered : f.results.types.mapM (lower b) = f.results.types.mapM (lower a) :=
    mapM_congr fun ty member => lower_alike alike (results ty member)
  have stored : ∀ address, writeFields b (write b) f.results.types address 0 =
      writeFields a (write a) f.results.types address 0 := fun address =>
    writeFields_alike alike results address 0 fun ty member =>
      write_alike alike (results ty member) address
  cases direction with
  | outward =>
    simp only [sequence, outward, signature_alike alike params results, passOut_alike alike params,
      recordLayout_alike alike results, readAll_alike alike results, lifted]
  | inward =>
    simp only [sequence, inward, signature_alike alike params results, readAll_alike alike params,
      liftArguments_alike alike params, recordLayout_alike alike results, stored, lowered]

end

end ZigBindings.Crossing
