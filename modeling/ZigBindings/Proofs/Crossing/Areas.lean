import ZigBindings.Proofs.Crossing.Confinement
import ZigBindings.Proofs.Crossing.Outcomes

/-! The areas that a function uses. All results go through one return area and all parameters
through one parameter area, each declared as the record of what goes through it. No access leaves
the area, the record or the element that its address leads to. -/

namespace ZigBindings
open Layout (Extent)

namespace Machine.Reference

/-- The access ends inside the region, if that fits an address space, and is aligned in it. -/
def Inside (reference : Reference) (region : Extent) : Prop :=
  (region.size < 2 ^ 32 → reference.offset + reference.access.size ≤ region.size) ∧
  reference.access.size ∣ reference.offset ∧ reference.access.size ≤ region.align

theorem inside_of_extent {base loop : Option Instruction} {access : Access} {offset : Nat}
    {region : Extent} (aligned : Layout.Alignable region.align)
    (inside : access.extent.Inside offset region) :
    Reference.Inside ⟨base, loop, access, 0 + offset⟩ region := by
  rw [Nat.zero_add]
  exact ⟨inside.ends, inside.aligned, Nat.le_of_dvd aligned.positive inside.coarser⟩

end Machine.Reference

theorem inRange_of_flatten {a : Arena} {ty : Ty} {slots : List Slot}
    (flat : Layout.flatten a ty = .ok slots) : a.InRange ty := by
  rintro id rfl
  simp only [Layout.flatten, Arena.depth, Layout.flattenWithin] at flat
  obtain ⟨kind, found, -⟩ := bind_eq_ok.mp flat
  exact Tree.kind_bounded found

namespace Crossing
open Instruction Machine

/-- Where an access may go: to an area, to the record behind the only argument of an entry point, or
to an element of the list that the loop around it runs over. -/
def Stays (a : Arena) (direction : Direction) (f : Function) (reference : Reference) : Prop :=
  match reference.base, reference.loop with
  | some (returnPointer size align), _ | some (paramPointer size align), _ =>
    reference.Inside ⟨size, align⟩
  | some (getArg nth), _ =>
    nth = 0 ∧ direction = .inward ∧
    (∃ sig, signature a direction f = .ok sig ∧ sig.indirectParams = true) ∧
    ∀ region, Layout.recordLayout a (f.params.map (·.2)) = .ok region → reference.Inside region
  | some iterBasePointer, some (.listLower element size align) =>
    Layout.measure a element = .ok ⟨size, align⟩ ∧ reference.Inside ⟨size, align⟩
  | some iterBasePointer, some (.listLift element size) =>
    ∃ align, Layout.measure a element = .ok ⟨size, align⟩ ∧ reference.Inside ⟨size, align⟩
  | _, _ => False

def limits (a : Arena) (direction : Direction) (f : Function) : Limits where
  returnArea extent := Layout.recordLayout a f.results.types = .ok extent
  paramArea extent := Layout.recordLayout a (f.params.map (·.2)) = .ok extent
  access := Stays a direction f

section
variable {a : Arena} {direction : Direction} {f : Function}

theorem limits_iterate : Iterates a (limits a direction f) := fun element extent measured => by
  have aligned := Layout.measure_alignable measured
  constructor
  · exact ⟨⟨rfl, rfl, trivial⟩, fun access o inside =>
      ⟨measured, Reference.inside_of_extent aligned inside⟩⟩
  · exact ⟨⟨rfl, rfl, trivial⟩, fun access o inside =>
      ⟨extent.align, measured, Reference.inside_of_extent aligned inside⟩⟩

theorem returnArea_room {extent : Extent}
    (measured : Layout.recordLayout a f.results.types = .ok extent) :
    Room (limits a direction f) none (returnPointer extent.size extent.align) 0 extent where
  quiet := ⟨rfl, rfl, measured⟩
  allowed _ _ := Reference.inside_of_extent (Layout.recordLayout_alignable measured)

theorem paramArea_room {extent : Extent}
    (measured : Layout.recordLayout a (f.params.map (·.2)) = .ok extent) :
    Room (limits a direction f) none (paramPointer extent.size extent.align) 0 extent where
  quiet := ⟨rfl, rfl, measured⟩
  allowed _ _ := Reference.inside_of_extent (Layout.recordLayout_alignable measured)

/-- The record behind the only argument of an entry point has room for its fields, whether or not
the record has a layout as a whole. -/
theorem argument_rooms {sig : Signature}
    (known : signature a .inward f = .ok sig) (indirect : sig.indirectParams = true)
    {offsets : List Nat} (placed : Layout.fieldOffsets a (f.params.map (·.2)) = .ok offsets) :
    ∀ field ∈ (f.params.map (·.2)).zip offsets, ∃ inner, Layout.measure a field.1 = .ok inner ∧
      Room (limits a .inward f) none (getArg 0) (0 + field.2) inner := by
  cases measured : Layout.recordLayout a (f.params.map (·.2)) with
  | ok extent =>
    have room : Room (limits a .inward f) none (getArg 0) 0 extent := by
      refine ⟨⟨rfl, rfl, trivial⟩, fun access o inside =>
        ⟨rfl, rfl, ⟨sig, known, indirect⟩, fun region same => ?_⟩⟩
      cases measured.symm.trans same
      exact Reference.inside_of_extent (Layout.recordLayout_alignable measured) inside
    exact room.fields measured placed
  | error fault =>
    intro field member
    obtain ⟨inner, found⟩ := field_measured placed (List.of_mem_zip member).1
    refine ⟨inner, found, ⟨rfl, rfl, trivial⟩, fun access o inside =>
      ⟨rfl, rfl, ⟨sig, known, indirect⟩, fun region same => ?_⟩⟩
    cases measured.symm.trans same

end

section
variable {a : Arena} {limits : Limits} (iterates : Iterates a limits) {types : List Ty}
  (founded : ∀ ty ∈ types, a.Founded ty)
include iterates founded

theorem lowerArguments_confined (nth : Nat) :
    Ensures (lowerArguments a nth types) (Confined limits none) := by
  induction types generalizing nth with
  | nil => exact .pure .nil
  | cons ty rest ih =>
    have lowered : Ensures (lower a ty) (Confined limits none) :=
      lowerWithin_confined iterates (founded ty (by simp)) _
    refine .bind lowered fun part first => ?_
    refine .bind (ih (fun other member => founded other (by simp [member])) _) fun parts others => ?_
    exact .pure (.append (.cons ⟨rfl, rfl, trivial⟩ first) others)

theorem liftArguments_confined (nth : Nat) :
    Ensures (liftArguments a nth types) (Confined limits none) := by
  induction types generalizing nth with
  | nil => exact .pure .nil
  | cons ty rest ih =>
    have lifted : Ensures (lift a ty) (Confined limits none) :=
      liftWithin_confined iterates (founded ty (by simp)) _
    refine .bind_any fun slots => .bind lifted fun part first => ?_
    refine .bind (ih (fun other member => founded other (by simp [member])) _) fun parts others => ?_
    have fetched : Confined limits none ((List.range' nth slots.length).map getArg) :=
      .plain fun inst member => by
        obtain ⟨place, -, rfl⟩ := List.mem_map.mp member
        exact ⟨rfl, rfl, trivial⟩
    exact .pure ((fetched.append first).append others)

theorem lowers_confined : Ensures (types.mapM (lower a)) fun parts =>
    Confined limits none parts.flatten := by
  have each : ∀ ty ∈ types, Ensures (lower a ty) (Confined limits none) := fun ty member =>
    lowerWithin_confined iterates (founded ty member) _
  exact (Ensures.mapM_all each).mono fun _ => .flatten

theorem lifts_confined : Ensures (types.mapM (lift a)) fun parts =>
    Confined limits none parts.flatten := by
  have each : ∀ ty ∈ types, Ensures (lift a ty) (Confined limits none) := fun ty member =>
    liftWithin_confined iterates (founded ty member) _
  exact (Ensures.mapM_all each).mono fun _ => .flatten

variable {address : Instruction} {offset : Nat}
  (rooms : ∀ offsets, Layout.fieldOffsets a types = .ok offsets → ∀ field ∈ types.zip offsets,
    ∃ inner, Layout.measure a field.1 = .ok inner ∧ Room limits none address (0 + field.2) inner)
include rooms

theorem stores_confined :
    Ensures (writeFields a (write a) types address 0) (Confined limits none) :=
  writeFields_confined rooms fun ty member _ _ known room =>
    writeWithin_confined iterates (founded ty member) known room _

theorem loads_confined : Ensures (readAll a address types) (Confined limits none) :=
  readFields_confined rooms fun ty member _ _ known room =>
    readWithin_confined iterates (founded ty member) known room _

theorem writeArguments_confined (nth : Nat) {offsets : List Nat}
    (placed : Layout.fieldOffsets a types = .ok offsets) :
    Ensures (writeArguments a address nth (types.zip offsets)) (Confined limits none) := by
  have each : ∀ field ∈ types.zip offsets,
      Ensures (write a field.1 address field.2) (Confined limits none) := fun field member => by
    have moved : Ensures (write a field.1 address (0 + field.2)) (Confined limits none) :=
      move_confined rooms (fun ty member _ _ known room =>
        writeWithin_confined iterates (founded ty member) known room _) placed field member
    rwa [Nat.zero_add] at moved
  generalize types.zip offsets = fields at each
  induction fields generalizing nth with
  | nil => exact .pure .nil
  | cons field rest ih =>
    refine .bind (each field (by simp)) fun part first => ?_
    refine .bind (ih _ fun other member => each other (by simp [member])) fun parts others => ?_
    exact .pure (.append (.cons ⟨rfl, rfl, trivial⟩ first) others)

end

section
variable {a : Arena} {f : Function}
  (params : ∀ ty ∈ f.params.map (·.2), a.Founded ty) (results : ∀ ty ∈ f.results.types, a.Founded ty)
include params

theorem passOut_confined (indirect : Bool) :
    Ensures (passOut a indirect (f.params.map (·.2))) (Confined (limits a .outward f) none) := by
  have iterates : Iterates a (limits a .outward f) := limits_iterate
  cases indirect with
  | false => exact lowerArguments_confined iterates params 0
  | true =>
    refine .bind (fun extent measured => measured) fun extent measured => ?_
    have area : Room (limits a .outward f) none (paramPointer extent.size extent.align) 0 extent :=
      paramArea_room measured
    refine .bind (fun offsets placed => placed) fun offsets placed => ?_
    have written := writeArguments_confined iterates params
      (fun offsets placed => area.fields measured placed) 0 placed
    exact .bind written fun parts confined => .pure (confined.append (.single area.quiet))

include results

theorem outward_confined : Ensures (outward a f) (Confined (limits a .outward f) none) := by
  have iterates : Iterates a (limits a .outward f) := limits_iterate
  refine .bind_any fun sig => .bind (passOut_confined params _) fun arguments passed => ?_
  have called : Confined (limits a .outward f) none [callWasm f.name sig] :=
    .single ⟨rfl, rfl, trivial⟩
  have returned : Confined (limits a .outward f) none [ret f.results.types.length] :=
    .single ⟨rfl, rfl, trivial⟩
  split
  · refine .bind (fun extent measured => measured) fun extent measured => ?_
    have area : Room (limits a .outward f) none (returnPointer extent.size extent.align) 0 extent :=
      returnArea_room measured
    have loaded := loads_confined iterates results
      fun offsets placed => area.fields measured placed
    refine .bind loaded fun lifted confined => .pure ?_
    exact ((passed.append (.cons area.quiet called)).append confined).append returned
  · refine .bind (lifts_confined iterates results) fun parts confined => .pure ?_
    exact ((passed.append called).append confined).append returned

theorem inward_confined : Ensures (inward a f) (Confined (limits a .inward f) none) := by
  have iterates : Iterates a (limits a .inward f) := limits_iterate
  rw [inward_eq]
  refine .bind (fun sig known => known) fun sig known => ?_
  have taken : Ensures (takeIn a sig.indirectParams (f.params.map (·.2)))
      (Confined (limits a .inward f) none) := by
    rw [takeIn]
    split
    · rename_i indirect
      exact loads_confined iterates params fun offsets placed =>
        argument_rooms known indirect placed
    · exact liftArguments_confined iterates params 0
  refine .bind taken fun arguments passed => ?_
  have called : Confined (limits a .inward f) none [callInterface f] := .single ⟨rfl, rfl, trivial⟩
  have returned (amount : Nat) : Confined (limits a .inward f) none [ret amount] :=
    .single ⟨rfl, rfl, trivial⟩
  rw [answer]
  split
  · refine .bind (fun extent measured => measured) fun extent measured => ?_
    have area : Room (limits a .inward f) none (returnPointer extent.size extent.align) 0 extent :=
      returnArea_room measured
    have stored := stores_confined iterates results
      fun offsets placed => area.fields measured placed
    refine .bind stored fun parts confined => .pure ?_
    exact ((passed.append called).append confined).append (.cons area.quiet (returned 1))
  · refine .bind (lowers_confined iterates results) fun parts confined => .pure ?_
    exact ((passed.append called).append confined).append (returned _)

end

theorem inRange_of_signature {a : Arena} {direction : Direction} {f : Function} {sig : Signature}
    (known : signature a direction f = .ok sig) :
    (∀ ty ∈ f.params.map (·.2), a.InRange ty) ∧ ∀ ty ∈ f.results.types, a.InRange ty := by
  have flat {types : List Ty} {slots : List Slot} (done : Layout.flattenAll a types = .ok slots) :
      ∀ ty ∈ types, a.InRange ty := fun ty member => by
    obtain ⟨rows, each, -⟩ := bind_eq_ok.mp done
    obtain ⟨row, -, found⟩ := ok_of_mapM each ty member
    exact inRange_of_flatten found
  obtain ⟨taken, first, known⟩ := bind_eq_ok.mp known
  obtain ⟨given, second, -⟩ := bind_eq_ok.mp known
  exact ⟨flat first, flat second⟩

theorem confined_of_sequence {a : Arena} (wf : a.WellFounded) {direction : Direction} {f : Function}
    {code : List Instruction} (done : sequence a direction f = .ok code) :
    Confined (limits a direction f) none code := by
  obtain ⟨sig, known⟩ : ∃ sig, signature a direction f = .ok sig := by
    cases direction with
    | outward =>
      obtain ⟨sig, known, -⟩ := bind_eq_ok.mp done
      exact ⟨sig, known⟩
    | inward =>
      rw [sequence, inward_eq] at done
      obtain ⟨sig, known, -⟩ := bind_eq_ok.mp done
      exact ⟨sig, known⟩
  obtain ⟨params, results⟩ := inRange_of_signature known
  have founded {types : List Ty} (inRange : ∀ ty ∈ types, a.InRange ty) :
      ∀ ty ∈ types, a.Founded ty := fun ty member => wf.founded (inRange ty member)
  cases direction with
  | outward => exact outward_confined (founded params) (founded results) code done
  | inward => exact inward_confined (founded params) (founded results) code done

/-- Every access to memory stays inside its area and is aligned in it: the record of all results,
that of all parameters, or an element of the list that the loop around the access runs over. There
is one return area and one parameter area, however often they are named. -/
theorem accesses_stay {a : Arena} (wf : a.WellFounded) {direction : Direction} {f : Function}
    {code : List Instruction} (done : sequence a direction f = .ok code) :
    (∀ size align, returnPointer size align ∈ code →
      Layout.recordLayout a f.results.types = .ok ⟨size, align⟩) ∧
    (∀ size align, paramPointer size align ∈ code →
      Layout.recordLayout a (f.params.map (·.2)) = .ok ⟨size, align⟩) ∧
    ∃ nested, nest code = some nested ∧
      ∀ reference ∈ nested.references none none, Stays a direction f reference := by
  have confined := confined_of_sequence wf done
  refine ⟨fun size align member => ?_, fun size align member => ?_, confined.exists_nest⟩
  · exact confined.admitted (returnPointer size align) member
  · exact confined.admitted (paramPointer size align) member

end Crossing

def rotate : Function where
  name := "rotate"
  params := [("points", .ref 3)]
  results := { anon := some (.ref 3) }

/-- Two stores to a point, a pointer and a length behind the return area, and two loads from a
point. -/
theorem rotate_stays : sketch.WellFounded ∧ ∃ code,
    Crossing.sequence sketch .outward rotate = .ok code ∧
    .returnPointer 8 4 ∈ code ∧ Layout.recordLayout sketch rotate.results.types = .ok ⟨8, 4⟩ ∧
    ∃ nested, Machine.nest code = some nested ∧
      ((nested.references none none).map fun r => (r.access.size, r.offset)) =
        [(4, 4), (4, 0), (4, 0), (4, 4), (4, 0), (4, 4)] ∧
      ∀ reference ∈ nested.references none none, Crossing.Stays sketch .outward rotate reference := by
  have shape : (Crossing.sequence sketch .outward rotate).toOption.bind (fun code =>
      (Machine.nest code).map fun nested => (decide (Instruction.returnPointer 8 4 ∈ code),
        (nested.references none none).map fun r => (r.access.size, r.offset))) =
      some (true, [(4, 4), (4, 0), (4, 0), (4, 4), (4, 0), (4, 4)]) := by decide +kernel
  cases done : Crossing.sequence sketch .outward rotate with
  | error fault =>
    rw [done] at shape
    cases shape
  | ok code =>
    obtain ⟨areas, -, nested, nests, stays⟩ := Crossing.accesses_stay sketch_wellFounded done
    simp only [done, Except.toOption, Option.bind_some, nests, Option.map_some, Option.some.injEq,
      Prod.mk.injEq, decide_eq_true_eq] at shape
    obtain ⟨member, offsets⟩ := shape
    exact ⟨sketch_wellFounded, code, rfl, member, areas 8 4 member, nested, nests, offsets, stays⟩

end ZigBindings
