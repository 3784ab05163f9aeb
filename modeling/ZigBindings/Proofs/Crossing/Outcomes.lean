import ZigBindings.Proofs.Crossing.Refusal
import ZigBindings.Proofs.Types.Group

/-! What comes of the sequence for a function. It exists, and returns, exactly if no type of the
function contains a refused definition; whether values travel in slots or through memory, and which
side the function stands on, plays no part. -/

namespace ZigBindings

namespace Arena

/-- A type of the function contains a refused definition. -/
def RefusesCall (a : Arena) (f : Function) (id : Nat) (kind : Kind) : Prop :=
  ∃ ty ∈ f.types, a.Refuses ty id kind

end Arena

namespace Crossing
open Instruction

def takeIn (a : Arena) (indirect : Bool) (types : List Ty) : Except Fault (List Instruction) :=
  if indirect then readAll a (getArg 0) types else liftArguments a 0 types

def answer (a : Arena) (f : Function) (sig : Signature) (arguments : List Instruction) :
    Except Fault (List Instruction) :=
  if sig.returnPointer then do
    let extent ← Layout.recordLayout a f.results.types
    let area := returnPointer extent.size extent.align
    let stored ← writeFields a (write a) f.results.types area 0
    pure (arguments ++ [callInterface f] ++ stored ++ [area, ret 1])
  else do
    let parts ← f.results.types.mapM (lower a)
    pure (arguments ++ [callInterface f] ++ parts.flatten ++ [ret sig.results.length])

theorem inward_eq (a : Arena) (f : Function) :
    inward a f = (do
      let sig ← signature a .inward f
      let arguments ← takeIn a sig.indirectParams (f.params.map (·.2))
      answer a f sig arguments) := by
  refine congrArg (signature a .inward f >>= ·) (funext fun sig => ?_)
  rw [takeIn]
  cases sig.indirectParams <;> rfl

variable {a : Arena} {huge : Prop} {blamed : Fault → Prop}

section
variable {types : List Ty} (founded : ∀ ty ∈ types, a.Founded ty)
  (large : Layout.Overflows (Layout.recordLayout a types) → huge)
  (each : ∀ ty ∈ types, ∀ ⦃code : Except Fault (List Instruction)⦄, a.Screens ty code →
    Screens huge (a.Supports ty) blamed code)

section
include founded each

theorem lowerArguments_screens (nth : Nat) :
    Screens huge (∀ ty ∈ types, a.Supports ty) blamed (lowerArguments a nth types) := by
  induction types generalizing nth with
  | nil => exact fun ty member => by cases member
  | cons ty rest ih =>
    have others := ih (fun other member => founded other (by simp [member]))
      (fun other member => each other (by simp [member])) (nth + 1)
    have both := (each ty (by simp) (lower_screens (founded ty (by simp)))).bind fun part =>
      others.finish (getArg nth :: part ++ ·)
    exact both.congr fun holds => List.forall_mem_cons.mpr holds

theorem liftArguments_screens (nth : Nat) :
    Screens huge (∀ ty ∈ types, a.Supports ty) blamed (liftArguments a nth types) := by
  induction types generalizing nth with
  | nil => exact fun ty member => by cases member
  | cons ty rest ih =>
    obtain ⟨slots, flat⟩ := (founded ty (by simp)).exists_flatten
    have others := ih (fun other member => founded other (by simp [member]))
      (fun other member => each other (by simp [member])) (nth + slots.length)
    have both := (each ty (by simp) (lift_screens (founded ty (by simp)))).bind fun part =>
      others.finish ((List.range' nth slots.length).map getArg ++ part ++ ·)
    rw [liftArguments]
    simp only [flat, ok_bind]
    exact both.congr fun holds => List.forall_mem_cons.mpr holds

theorem writeArguments_screens (area : Instruction) {offsets : List Nat}
    (count : offsets.length = types.length) (nth : Nat) :
    Screens huge (∀ ty ∈ types, a.Supports ty) blamed
      (writeArguments a area nth (types.zip offsets)) := by
  induction types generalizing nth offsets with
  | nil => exact fun ty member => by cases member
  | cons ty rest ih =>
    cases offsets with
    | nil => cases count
    | cons offset offsets =>
      have others := ih (fun other member => founded other (by simp [member]))
        (fun other member => each other (by simp [member])) (by simpa using count) (nth + 1)
      have both := (each ty (by simp) (write_screens (founded ty (by simp)) area offset)).bind
        fun part => others.finish (getArg nth :: part ++ ·)
      exact both.congr fun holds => List.forall_mem_cons.mpr holds

theorem lowers_screens :
    Screens huge (∀ ty ∈ types, a.Supports ty) blamed (types.mapM (lower a)) :=
  .mapM fun ty member => each ty member (lower_screens (founded ty member))

theorem lifts_screens :
    Screens huge (∀ ty ∈ types, a.Supports ty) blamed (types.mapM (lift a)) :=
  .mapM fun ty member => each ty member (lift_screens (founded ty member))

end

include founded large

include each

theorem passOut_screens (indirect : Bool) :
    Screens huge (∀ ty ∈ types, a.Supports ty) blamed (passOut a indirect types) := by
  cases indirect with
  | false => exact lowerArguments_screens founded each 0
  | true =>
    refine .computed ((recordLayout_computes founded).widen large) fun extent _ => ?_
    refine .computed ((fieldOffsets_computes founded).widen large) fun offsets count => ?_
    exact (writeArguments_screens founded each _ count 0).finish _

theorem stores_screens (area : Instruction) :
    Screens huge (∀ ty ∈ types, a.Supports ty) blamed (writeFields a (write a) types area 0) :=
  writeFields_screens founded large area 0 fun ty member o =>
    each ty member (write_screens (founded ty member) area o)

theorem loads_screens (area : Instruction) :
    Screens huge (∀ ty ∈ types, a.Supports ty) blamed (readAll a area types) :=
  readFields_screens founded large area 0 fun ty member o =>
    each ty member (read_screens (founded ty member) area o)

end

theorem exists_signature {f : Function} (params : ∀ ty ∈ f.params.map (·.2), a.Founded ty)
    (results : ∀ ty ∈ f.results.types, a.Founded ty) (direction : Direction) :
    ∃ sig, signature a direction f = .ok sig := by
  obtain ⟨taken, first, -⟩ := (flattenAll_computes params).exists_ok
  obtain ⟨given, second, -⟩ := (flattenAll_computes results).exists_ok
  rw [signature, first, second, ok_bind, ok_bind]
  split
  · exact ⟨_, rfl⟩
  · cases direction <;> exact ⟨_, rfl⟩

section
variable {f : Function} (params : ∀ ty ∈ f.params.map (·.2), a.Founded ty)
  (results : ∀ ty ∈ f.results.types, a.Founded ty)
  (largeParams : Layout.Overflows (Layout.recordLayout a (f.params.map (·.2))) → huge)
  (largeResults : Layout.Overflows (Layout.recordLayout a f.results.types) → huge)
  (eachParam : ∀ ty ∈ f.params.map (·.2), ∀ ⦃code : Except Fault (List Instruction)⦄,
    a.Screens ty code → Screens huge (a.Supports ty) blamed code)
  (eachResult : ∀ ty ∈ f.results.types, ∀ ⦃code : Except Fault (List Instruction)⦄,
    a.Screens ty code → Screens huge (a.Supports ty) blamed code)
include params results largeParams largeResults eachParam eachResult

theorem outward_screens :
    Screens huge
      ((∀ ty ∈ f.params.map (·.2), a.Supports ty) ∧ ∀ ty ∈ f.results.types, a.Supports ty)
      blamed (outward a f) := by
  obtain ⟨sig, known⟩ := exists_signature params results .outward
  rw [outward, known, ok_bind]
  refine (passOut_screens params largeParams eachParam sig.indirectParams).bind fun arguments => ?_
  split
  · refine .computed ((recordLayout_computes results).widen largeResults) fun extent _ => ?_
    exact (loads_screens results largeResults eachResult _).finish _
  · exact (lifts_screens results eachResult).finish _

theorem inward_screens :
    Screens huge
      ((∀ ty ∈ f.params.map (·.2), a.Supports ty) ∧ ∀ ty ∈ f.results.types, a.Supports ty)
      blamed (inward a f) := by
  obtain ⟨sig, known⟩ := exists_signature params results .inward
  rw [inward_eq, known, ok_bind]
  have arguments : Screens huge (∀ ty ∈ f.params.map (·.2), a.Supports ty) blamed
      (takeIn a sig.indirectParams (f.params.map (·.2))) := by
    rw [takeIn]
    split
    · exact loads_screens params largeParams eachParam (getArg 0)
    · exact liftArguments_screens params eachParam 0
  refine arguments.bind fun code => ?_
  rw [answer]
  split
  · refine .computed ((recordLayout_computes results).widen largeResults) fun extent _ => ?_
    exact (stores_screens results largeResults eachResult _).finish _
  · exact (lowers_screens results eachResult).finish _

end

theorem sequence_screens {f : Function} (founded : ∀ ty ∈ f.types, a.Founded ty)
    (direction : Direction) :
    Screens (a.OversizedCall f) (∀ ty ∈ f.types, a.Supports ty)
      (fun fault => ∃ ty ∈ f.types, a.Blames ty fault) (sequence a direction f) := by
  have each : ∀ ty ∈ f.types, ∀ ⦃code : Except Fault (List Instruction)⦄, a.Screens ty code →
      Screens (a.OversizedCall f) (a.Supports ty) (fun fault => ∃ ty ∈ f.types, a.Blames ty fault)
        code := fun ty member code screens =>
    screens.widen (fun many => .inr (.inr ⟨ty, member, many⟩)) fun fault blames => ⟨ty, member, blames⟩
  have largeParams (many : Layout.Overflows (Layout.recordLayout a (f.params.map (·.2)))) :
      a.OversizedCall f := .inl many
  have largeResults (many : Layout.Overflows (Layout.recordLayout a f.results.types)) :
      a.OversizedCall f := .inr (.inl many)
  have eachParam ty member := each ty (Function.param_mem member)
  have eachResult ty member := each ty (Function.result_mem member)
  obtain ⟨params, results⟩ := List.forall_mem_append.mp founded
  have both : Screens (a.OversizedCall f)
      ((∀ ty ∈ f.params.map (·.2), a.Supports ty) ∧ ∀ ty ∈ f.results.types, a.Supports ty)
      (fun fault => ∃ ty ∈ f.types, a.Blames ty fault) (sequence a direction f) := by
    cases direction with
    | outward => exact outward_screens params results largeParams largeResults eachParam eachResult
    | inward => exact inward_screens params results largeParams largeResults eachParam eachResult
  exact both.congr fun holds => List.forall_mem_append.mpr holds

theorem sequence_returns (a : Arena) (direction : Direction) (f : Function) :
    Ensures (sequence a direction f) fun code => ∃ rest amount, code = rest ++ [ret amount] := by
  cases direction with
  | outward =>
    refine .bind_any fun sig => .bind_any fun arguments => ?_
    split
    · exact .bind_any fun extent => .bind_any fun lifted => .pure ⟨_, _, rfl⟩
    · exact .bind_any fun parts => .pure ⟨_, _, rfl⟩
  | inward =>
    rw [sequence, inward_eq]
    refine .bind_any fun sig => .bind_any fun arguments => ?_
    rw [answer]
    split
    · refine .bind_any fun extent => .bind_any fun stored => .pure
        ⟨arguments ++ [callInterface f] ++ stored ++ [returnPointer extent.size extent.align], 1, ?_⟩
      simp
    · exact .bind_any fun parts => .pure ⟨_, _, rfl⟩

section
variable {f : Function}

theorem refusesCall_of_blames {fault : Fault} (blames : ∃ ty ∈ f.types, a.Blames ty fault) :
    ∃ id kind, a.RefusesCall f id kind ∧ fault = .unsupportedType kind id := by
  obtain ⟨ty, member, id, kind, refuses, same⟩ := blames
  exact ⟨id, kind, ⟨ty, member, refuses⟩, same⟩

theorem supports_types_iff : (∀ ty ∈ f.types, a.Supports ty) ↔
    ∀ id kind, ¬ a.RefusesCall f id kind := by
  constructor
  · rintro supports id kind ⟨ty, member, refuses⟩
    exact supports ty member id kind refuses
  · exact fun none ty member id kind refuses => none id kind ⟨ty, member, refuses⟩

/-- The fault of a function without code is that of a refused definition, or of a layout. -/
theorem sequence_cases (founded : ∀ ty ∈ f.types, a.Founded ty) (direction : Direction) :
    (∃ id kind, a.RefusesCall f id kind ∧
      sequence a direction f = .error (.unsupportedType kind id)) ∨
    ((∀ id kind, ¬ a.RefusesCall f id kind) ∧
      ∃ code amount, sequence a direction f = .ok (code ++ [ret amount])) ∨
    a.OversizedCall f ∧ sequence a direction f = .error .quotientRange := by
  have screens := sequence_screens founded direction
  have returns := sequence_returns a direction f
  cases known : sequence a direction f with
  | ok code =>
    rw [known] at screens
    obtain ⟨rest, amount, rfl⟩ := returns code known
    exact .inr (.inl ⟨supports_types_iff.mp screens, rest, amount, rfl⟩)
  | error fault =>
    rw [known] at screens
    rcases screens with blames | ⟨rfl, many⟩
    · obtain ⟨id, kind, refuses, rfl⟩ := refusesCall_of_blames blames
      exact .inl ⟨id, kind, refuses, rfl⟩
    · exact .inr (.inr ⟨many, rfl⟩)

theorem unsupported_iff (founded : ∀ ty ∈ f.types, a.Founded ty)
    (few : ¬ a.OversizedCall f) (direction : Direction) :
    (∃ id kind, sequence a direction f = .error (.unsupportedType kind id)) ↔
      ∃ id kind, a.RefusesCall f id kind := by
  rcases sequence_cases founded direction with
    ⟨id, kind, refuses, failed⟩ | ⟨none, code, _, done⟩ | ⟨many, -⟩
  · exact ⟨fun _ => ⟨id, kind, refuses⟩, fun _ => ⟨id, kind, failed⟩⟩
  · constructor
    · rintro ⟨id, kind, failed⟩
      cases done.symm.trans failed
    · rintro ⟨id, kind, refuses⟩
      exact absurd refuses (none id kind)
  · exact absurd many few

/-- A function has code, which ends in a return, exactly if no type that it takes or gives back
contains a refused definition; a refused definition is named together with its kind. Which side the
function stands on makes no difference, and neither do the ways on which its values are carried.
Only where the layout of an area or of something in a type is beyond all doubles, that may come first. -/
theorem sequence_settles (wf : a.WellFounded) (inRange : ∀ ty ∈ f.types, a.InRange ty) :
    (∀ direction,
      ((∃ id kind, a.RefusesCall f id kind) →
        (∃ id kind, a.RefusesCall f id kind ∧
          sequence a direction f = .error (.unsupportedType kind id)) ∨
        a.OversizedCall f ∧ sequence a direction f = .error .quotientRange) ∧
      ((∀ id kind, ¬ a.RefusesCall f id kind) →
        (∃ code amount, sequence a direction f = .ok (code ++ [ret amount])) ∨
        a.OversizedCall f ∧ sequence a direction f = .error .quotientRange)) ∧
    (¬ a.OversizedCall f →
      (∀ direction, (∃ id kind, sequence a direction f = .error (.unsupportedType kind id)) ↔
        ∃ id kind, a.RefusesCall f id kind) ∧
      (sequence a .outward f).isOk = (sequence a .inward f).isOk ∧
      ∀ ty ∈ f.types, ∀ address offset,
        ((lower a ty).isOk ↔ a.Supports ty) ∧ ((lift a ty).isOk ↔ a.Supports ty) ∧
        ((write a ty address offset).isOk ↔ a.Supports ty) ∧
        ((read a ty address offset).isOk ↔ a.Supports ty)) := by
  have founded : ∀ ty ∈ f.types, a.Founded ty := fun ty member =>
    wf.founded (inRange ty member)
  refine ⟨fun direction => ⟨fun refused => ?_, fun none => ?_⟩, fun few =>
    ⟨unsupported_iff founded few, ?_, fun ty member address offset => ?_⟩⟩
  · rcases sequence_cases founded direction with failed | ⟨none, -⟩ | beyond
    · exact .inl failed
    · obtain ⟨id, kind, refuses⟩ := refused
      exact absurd refuses (none id kind)
    · exact .inr beyond
  · rcases sequence_cases founded direction with ⟨id, kind, refuses, -⟩ | ⟨-, done⟩ | beyond
    · exact absurd refuses (none id kind)
    · exact .inl done
    · exact .inr beyond
  · have decided (direction : Direction) : (sequence a direction f).isOk ↔
        ∀ ty ∈ f.types, a.Supports ty :=
      (sequence_screens founded direction).isOk_iff few fun fault blames supports => by
        obtain ⟨id, kind, refuses, -⟩ := refusesCall_of_blames blames
        exact supports_types_iff.mp supports id kind refuses
    exact Bool.eq_iff_iff.mpr ((decided .outward).trans (decided .inward).symm)
  · have type := founded ty member
    have small : ¬ a.Oversized ty := fun many => few (.inr (.inr ⟨ty, member, many⟩))
    have decided {code : Except Fault (List Instruction)} (screens : a.Screens ty code) :
        code.isOk ↔ a.Supports ty := screens.isOk_iff small fun fault => Arena.refuted_of_blames
    exact ⟨decided (lower_screens type), decided (lift_screens type),
      decided (write_screens type address offset), decided (read_screens type address offset)⟩

end

end Crossing

def sketch : Arena := #[
  ⟨.variant [("dot", none), ("line", some (.prim .u32))], some "shape"⟩,
  ⟨.list (.ref 0), none⟩,
  ⟨.tuple [.prim .u32, .prim .u32], some "point"⟩,
  ⟨.list (.ref 2), none⟩]

def draw : Function where
  name := "draw"
  params := [("shapes", .ref 1)]

def plot : Function where
  name := "plot"
  params := [("points", .ref 3)]
  results := { anon := some (.prim .u32) }

theorem sketch_wellFounded : sketch.WellFounded := .of_ordered (by decide)

theorem sketch_refuses_draw : ∃ id kind, sketch.RefusesCall draw id kind :=
  have shapes : sketch.Contains (.ref 1) (.ref 0) :=
    .part .self rfl (fun never => never) (List.mem_singleton_self _)
  ⟨0, _, .ref 1, List.mem_singleton_self _, shapes, rfl, trivial⟩

theorem sketch_supports_plot : ∀ id kind, ¬ sketch.RefusesCall plot id kind := by
  have point : sketch.kind 2 = .ok (.tuple [.prim .u32, .prim .u32]) := rfl
  have points : sketch.kind 3 = .ok (.list (.ref 2)) := rfl
  have pair : sketch.Supports (.ref 2) :=
    (Arena.supports_iff point).mpr ⟨fun never => never, fun ty member => by
      have same : ty = .prim .u32 := by simpa [Kind.parts] using member
      exact same ▸ Arena.supports_prim .u32⟩
  have list : sketch.Supports (.ref 3) :=
    (Arena.supports_iff points).mpr ⟨fun never => never, fun ty member => by
      cases List.mem_singleton.mp member
      exact pair⟩
  refine Crossing.supports_types_iff.mp fun ty member => ?_
  rcases List.mem_cons.mp member with rfl | member
  · exact list
  · cases List.mem_singleton.mp member
    exact Arena.supports_prim .u32

theorem sketch_settles : sketch.WellFounded ∧
    (∀ f ∈ [draw, plot], (∀ ty ∈ f.types, sketch.InRange ty) ∧ ¬ sketch.OversizedCall f) ∧
    (∀ direction, ∃ id kind, sketch.RefusesCall draw id kind ∧
      Crossing.sequence sketch direction draw = .error (.unsupportedType kind id)) ∧
    ∀ direction, ∃ code amount,
      Crossing.sequence sketch direction plot = .ok (code ++ [.ret amount]) := by
  have inRange : ∀ f ∈ [draw, plot], ∀ ty ∈ f.types, sketch.InRange ty := by
    have before : ∀ f ∈ [draw, plot], ∀ ty ∈ f.types, ty.isBefore sketch.size := by decide
    exact fun f member ty used => inRange_of_isBefore (before f member ty used)
  have areas : ∀ f ∈ [draw, plot], ¬ Layout.Overflows (Layout.recordLayout sketch (f.params.map (·.2))) ∧
      ¬ Layout.Overflows (Layout.recordLayout sketch f.results.types) := by decide +kernel
  have few : ∀ f ∈ [draw, plot], ¬ sketch.OversizedCall f := by
    rintro f member (many | many | ⟨ty, _, many⟩)
    · exact (areas f member).1 many
    · exact (areas f member).2 many
    · exact Arena.not_oversized (by decide +kernel) ty many
  refine ⟨sketch_wellFounded, fun f member => ⟨inRange f member, few f member⟩,
    fun direction => ?_, fun direction => ?_⟩
  · have settled := Crossing.sequence_settles sketch_wellFounded (inRange draw (by simp))
    rcases (settled.1 direction).1 sketch_refuses_draw with failed | ⟨many, -⟩
    · exact failed
    · exact absurd many (few draw (by simp))
  · have settled := Crossing.sequence_settles sketch_wellFounded (inRange plot (by simp))
    rcases (settled.1 direction).2 sketch_supports_plot with done | ⟨many, -⟩
    · exact done
    · exact absurd many (few plot (by simp))

end ZigBindings
