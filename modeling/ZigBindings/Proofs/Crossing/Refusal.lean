import ZigBindings.Crossing.Sequence
import ZigBindings.Proofs.Types.Contents

/-! Which functions have code. Lowering, lifting, writing and reading walk over a type each in its own
way, and all of them stop at the same kinds: a value that is carried has code on every way, and one
that is not has code on none. -/

namespace ZigBindings

/-- The computation ends well only where everything is supported. Otherwise its fault is blamed on
something, unless the arithmetic of layouts leaves the range of doubles. -/
def Screens {α : Type} (huge supported : Prop) (blamed : Fault → Prop) (computation : Except Fault α) :
    Prop :=
  match computation with
  | .ok _ => supported
  | .error fault => blamed fault ∨ fault = .quotientRange ∧ huge

namespace Screens

variable {α β : Type} {huge supported other : Prop} {blamed : Fault → Prop}

theorem bind {first : Except Fault α} {next : α → Except Fault β}
    (screens : Screens huge supported blamed first)
    (continued : ∀ a, Screens huge other blamed (next a)) :
    Screens huge (supported ∧ other) blamed (first >>= next) := by
  cases first with
  | error fault => exact screens
  | ok a =>
    have rest := continued a
    rw [ok_bind]
    cases known : next a with
    | error fault =>
      rw [known] at rest
      exact rest
    | ok b =>
      rw [known] at rest
      exact ⟨screens, rest⟩

theorem computed {first : Except Fault α} {next : α → Except Fault β} {wanted : α → Prop}
    (computes : Computes huge first wanted)
    (continued : ∀ a, wanted a → Screens huge supported blamed (next a)) :
    Screens huge supported blamed (first >>= next) := by
  cases first with
  | error fault => exact .inr computes
  | ok a => exact continued a computes

theorem congr {computation : Except Fault α} (screens : Screens huge supported blamed computation)
    (same : supported → other) : Screens huge other blamed computation := by
  cases computation with
  | error fault => exact screens
  | ok a => exact same screens

theorem before {first : Except Fault α} {next : α → Except Fault β}
    (screens : Screens huge supported blamed first)
    (continued : ∀ a, Screens huge True blamed (next a)) :
    Screens huge supported blamed (first >>= next) := (screens.bind continued).congr And.left

theorem finish {computation : Except Fault α} (screens : Screens huge supported blamed computation)
    (f : α → β) : Screens huge supported blamed (computation >>= fun a => pure (f a)) := by
  cases computation with
  | error fault => exact screens
  | ok a => exact screens

theorem widen {computation : Except Fault α} {huger : Prop} {alsoBlamed : Fault → Prop}
    (screens : Screens huge supported blamed computation) (wide : huge → huger)
    (blame : ∀ fault, blamed fault → alsoBlamed fault) :
    Screens huger supported alsoBlamed computation := by
  cases computation with
  | error fault =>
    rcases screens with blames | ⟨same, beyond⟩
    · exact .inl (blame fault blames)
    · exact .inr ⟨same, wide beyond⟩
  | ok a => exact screens

theorem mapM {f : α → Except Fault β} {xs : List α} {each : α → Prop}
    (screens : ∀ x ∈ xs, Screens huge (each x) blamed (f x)) :
    Screens huge (∀ x ∈ xs, each x) blamed (xs.mapM f) := by
  induction xs with
  | nil => exact fun x member => by cases member
  | cons x rest ih =>
    rw [List.mapM_cons]
    have others := ih fun other member => screens other (by simp [member])
    have both := (screens x (by simp)).bind fun y => others.finish (y :: ·)
    exact both.congr fun holds => List.forall_mem_cons.mpr holds

theorem isOk_iff {computation : Except Fault α} (screens : Screens huge supported blamed computation)
    (few : ¬ huge) (refuted : ∀ fault, blamed fault → ¬ supported) :
    computation.isOk ↔ supported := by
  cases computation with
  | error fault =>
    refine ⟨fun never => (by cases never), fun holds => ?_⟩
    rcases screens with blames | ⟨-, many⟩
    · exact absurd holds (refuted fault blames)
    · exact absurd many few
  | ok a => exact ⟨fun _ => screens, fun _ => rfl⟩

end Screens

namespace Arena

variable {α : Type} {a : Arena} {ty : Ty}

/-- The computation screens a type for refused definitions. -/
abbrev Screens (a : Arena) (ty : Ty) (computation : Except Fault α) : Prop :=
  ZigBindings.Screens (a.Oversized ty) (a.Supports ty) (a.Blames ty) computation

theorem Contains.screens {outer : Ty} {computation : Except Fault α} (contains : a.Contains outer ty)
    (screens : a.Screens ty computation) :
    ZigBindings.Screens (a.Oversized outer) (a.Supports ty) (a.Blames outer) computation :=
  screens.widen contains.oversized fun _ => contains.blames

/-- Screening a type comes down to screening what its aliases lead to. -/
theorem Founded.screens (founded : a.Founded ty) {next : Ty → Except Fault α}
    (prim : ∀ p, ∃ result, next (.prim p) = .ok result)
    (ref : ∀ id kind, a.kind id = .ok kind → (∀ target, kind ≠ .alias target) →
      a.Core ty (.ref id) → a.Screens (.ref id) (next (.ref id))) :
    a.Screens ty (a.unalias ty >>= next) := by
  obtain ⟨core, reached, holds⟩ := founded.unalias_core
  rw [reached, ok_bind]
  cases core with
  | prim p =>
    obtain ⟨result, same⟩ := prim p
    rw [same]
    exact holds.supports (supports_prim p)
  | ref id =>
    obtain ⟨kind, found, plain⟩ := holds.plain id rfl
    exact (holds.contains.screens (ref id kind found plain holds)).congr holds.supports

theorem screens_refused {id : Nat} {kind : Kind} (found : a.kind id = .ok kind)
    (refused : kind.Refused) :
    a.Screens (.ref id) (throw (.unsupportedType kind id) : Except Fault α) :=
  .inl ⟨id, kind, ⟨.self, found, refused⟩, rfl⟩

theorem screens_parts {id : Nat} {kind : Kind} {computation : Except Fault α}
    (found : a.kind id = .ok kind) (carried : ¬ kind.Refused)
    (screens : ZigBindings.Screens (a.Oversized (.ref id)) (∀ ty ∈ kind.parts, a.Supports ty)
      (a.Blames (.ref id)) computation) : a.Screens (.ref id) computation :=
  screens.congr fun parts => (supports_iff found).mpr ⟨carried, parts⟩

theorem screens_single {id : Nat} {kind : Kind} {part : Ty} {computation : Except Fault α}
    (found : a.kind id = .ok kind) (carried : ¬ kind.Refused) (single : kind.parts = [part])
    (screens : ZigBindings.Screens (a.Oversized (.ref id)) (a.Supports part) (a.Blames (.ref id))
      computation) : a.Screens (.ref id) computation :=
  screens_parts found carried (screens.congr fun supports ty member => by
    rw [single] at member
    cases List.mem_singleton.mp member
    exact supports)

theorem screens_whole {id : Nat} {kind : Kind} (found : a.kind id = .ok kind)
    (carried : ¬ kind.Refused) (whole : kind.parts = []) (result : α) :
    a.Screens (.ref id) (pure result : Except Fault α) :=
  (supports_iff found).mpr ⟨carried, fun ty member => by
    rw [whole] at member
    cases member⟩

/-- A walk that screens whatever is less deep screens the parts of a carried definition. -/
theorem Core.each {id depth : Nat} {kind : Kind} (core : a.Core ty (.ref id))
    (found : a.kind id = .ok kind) (carried : ¬ kind.Refused) (deep : a.level ty < depth + 1)
    {walk : Ty → Except Fault α}
    (screens : ∀ {part}, a.Founded part → a.level part < depth → a.Screens part (walk part)) :
    ∀ part ∈ kind.parts, ZigBindings.Screens (a.Oversized (.ref id)) (a.Supports part)
      (a.Blames (.ref id)) (walk part) := by
  intro part member
  have lower := core.founded.level_lt found member
  have same := core.level
  exact (Contains.part .self found carried member).screens
    (screens (core.founded.parts found part member) (by omega))

theorem Founded.walk_lt (founded : a.Founded ty) : a.level ty < a.depth + 1 :=
  Nat.lt_succ_of_le founded.depth_le

end Arena

theorem exists_mem_zip {α β : Type} {xs : List α} {ys : List β} (count : ys.length = xs.length)
    {x : α} (member : x ∈ xs) : ∃ y, (x, y) ∈ xs.zip ys := by
  have firsts : (xs.zip ys).map Prod.fst = xs := List.map_fst_zip (by omega)
  rw [← firsts] at member
  obtain ⟨⟨_, y⟩, found, rfl⟩ := List.mem_map.mp member
  exact ⟨y, found⟩

namespace Crossing
open Instruction

variable {a : Arena} {huge : Prop} {blamed : Fault → Prop}

section
variable {types : List Ty} (founded : ∀ ty ∈ types, a.Founded ty)
  (large : Layout.Overflows (Layout.recordLayout a types) → huge)
include founded large

theorem writeFields_screens {write : Mover} (address : Instruction) (offset : Nat)
    (each : ∀ ty ∈ types, ∀ o, Screens huge (a.Supports ty) blamed (write ty address o)) :
    Screens huge (∀ ty ∈ types, a.Supports ty) blamed (writeFields a write types address offset) := by
  refine .computed ((fieldOffsets_computes founded).widen large) fun offsets count => ?_
  have parts : ∀ field ∈ (types.zip offsets).reverse,
      Screens huge (a.Supports field.1) blamed (write field.1 address (offset + field.2)) :=
    fun field member => each field.1 (List.of_mem_zip (List.mem_reverse.mp member)).1 _
  refine ((Screens.mapM parts).finish List.flatten).congr fun all ty member => ?_
  obtain ⟨o, inside⟩ := exists_mem_zip count member
  exact all (ty, o) (List.mem_reverse.mpr inside)

theorem readFields_screens {read : Mover} (address : Instruction) (offset : Nat)
    (each : ∀ ty ∈ types, ∀ o, Screens huge (a.Supports ty) blamed (read ty address o)) :
    Screens huge (∀ ty ∈ types, a.Supports ty) blamed (readFields a read types address offset) := by
  refine .computed ((fieldOffsets_computes founded).widen large) fun offsets count => ?_
  have parts : ∀ field ∈ types.zip offsets,
      Screens huge (a.Supports field.1) blamed (read field.1 address (offset + field.2)) :=
    fun field member => each field.1 (List.of_mem_zip member).1 _
  refine ((Screens.mapM parts).finish List.flatten).congr fun all ty member => ?_
  obtain ⟨o, inside⟩ := exists_mem_zip count member
  exact all (ty, o) inside

end

section
variable {element : Ty} (founded : a.Founded element)
include founded

theorem exists_isCanonical : ∃ canonical, isCanonical a element = .ok canonical ∧
    (canonical = true → a.Supports element) := by
  obtain ⟨core, reached, holds⟩ := founded.unalias_core
  rw [isCanonical, reached, ok_bind]
  cases core with
  | prim p => exact ⟨_, rfl, fun _ => holds.supports (Arena.supports_prim p)⟩
  | ref id => exact ⟨false, rfl, fun absurd => by cases absurd⟩

variable (large : Layout.Overflows (Layout.measure a element) → huge)
include large

theorem lowerList_screens {write : Mover}
    (body : Screens huge (a.Supports element) blamed (write element iterBasePointer 0)) :
    Screens huge (a.Supports element) blamed (lowerList a write element) := by
  obtain ⟨canonical, known, supports⟩ := exists_isCanonical founded
  rw [lowerList, known, ok_bind]
  cases canonical with
  | true => exact supports rfl
  | false =>
    exact body.before fun code => .computed (founded.measure_computes.widen large) fun extent _ => trivial

theorem liftList_screens {read : Mover}
    (body : Screens huge (a.Supports element) blamed (read element iterBasePointer 0)) :
    Screens huge (a.Supports element) blamed (liftList a read element) := by
  obtain ⟨canonical, known, supports⟩ := exists_isCanonical founded
  rw [liftList, known, ok_bind]
  cases canonical with
  | true => exact supports rfl
  | false =>
    exact body.before fun code => .computed (founded.measure_computes.widen large) fun extent _ => trivial

end

theorem writeWithin_screens {ty : Ty} (founded : a.Founded ty) {depth : Nat}
    (deep : a.level ty < depth) (address : Instruction) (offset : Nat) :
    a.Screens ty (writeWithin a depth ty address offset) := by
  induction depth generalizing ty address offset with
  | zero => exact absurd deep (Nat.not_lt_zero _)
  | succ depth ih =>
    rw [writeWithin]
    refine founded.screens (fun p => ?_) fun id kind found plain core => ?_
    · simp only
      split <;> exact ⟨_, rfl⟩
    have each (carried : ¬ kind.Refused) (address : Instruction) (offset : Nat) :=
      core.each found carried deep fun founded deep => ih founded deep address offset
    have fields {form : Form} {types : List Ty} (shape : kind.product? = some (form, types)) :=
      writeFields_screens (core.founded_product found shape) (core.founded.oversized_product found shape)
        address offset fun ty member o => each (Kind.product_carried shape) address o ty
          (Kind.product_parts shape ▸ member)
    simp only [found, ok_bind]
    cases kind with
    | tuple elements | record parts =>
      exact Arena.screens_parts found (fun never => never) ((fields rfl).finish _)
    | enumeration cases => exact Arena.screens_whole found (fun never => never) rfl _
    | list element =>
      have member : element ∈ (Kind.list element).parts := List.mem_singleton_self element
      have lowered := lowerList_screens (core.founded.parts found element member)
        (fun many => (Arena.Oversized.self many).part found (fun never => never) member)
        (each (fun never => never) iterBasePointer 0 element member)
      exact Arena.screens_single found (fun never => never) rfl (lowered.finish _)
    | option payload =>
      have member : payload ∈ (Kind.option payload).parts := List.mem_singleton_self payload
      have placed := (payloadOffset_computes core.founded found).widen Arena.Oversized.self
      exact Arena.screens_single found (fun never => never) rfl (.computed placed fun start _ =>
        (each (fun never => never) address (offset + start) payload member).finish _)
    | «alias» target => exact absurd rfl (plain target)
    | _ => exact Arena.screens_refused found trivial

theorem readWithin_screens {ty : Ty} (founded : a.Founded ty) {depth : Nat}
    (deep : a.level ty < depth) (address : Instruction) (offset : Nat) :
    a.Screens ty (readWithin a depth ty address offset) := by
  induction depth generalizing ty address offset with
  | zero => exact absurd deep (Nat.not_lt_zero _)
  | succ depth ih =>
    rw [readWithin]
    refine founded.screens (fun p => ?_) fun id kind found plain core => ?_
    · simp only
      split <;> exact ⟨_, rfl⟩
    have each (carried : ¬ kind.Refused) (address : Instruction) (offset : Nat) :=
      core.each found carried deep fun founded deep => ih founded deep address offset
    have fields {form : Form} {types : List Ty} (shape : kind.product? = some (form, types)) :=
      readFields_screens (core.founded_product found shape) (core.founded.oversized_product found shape)
        address offset fun ty member o => each (Kind.product_carried shape) address o ty
          (Kind.product_parts shape ▸ member)
    simp only [found, ok_bind]
    cases kind with
    | tuple elements | record parts =>
      exact Arena.screens_parts found (fun never => never) ((fields rfl).finish _)
    | enumeration cases => exact Arena.screens_whole found (fun never => never) rfl _
    | list element =>
      have member : element ∈ (Kind.list element).parts := List.mem_singleton_self element
      have lifted := liftList_screens (core.founded.parts found element member)
        (fun many => (Arena.Oversized.self many).part found (fun never => never) member)
        (each (fun never => never) iterBasePointer 0 element member)
      exact Arena.screens_single found (fun never => never) rfl (lifted.finish _)
    | option payload =>
      have member : payload ∈ (Kind.option payload).parts := List.mem_singleton_self payload
      have placed := (payloadOffset_computes core.founded found).widen Arena.Oversized.self
      exact Arena.screens_single found (fun never => never) rfl (.computed placed fun start _ =>
        (each (fun never => never) address (offset + start) payload member).finish _)
    | «alias» target => exact absurd rfl (plain target)
    | _ => exact Arena.screens_refused found trivial

theorem write_screens {ty : Ty} (founded : a.Founded ty) (address : Instruction) (offset : Nat) :
    a.Screens ty (write a ty address offset) :=
  writeWithin_screens founded founded.walk_lt address offset

theorem read_screens {ty : Ty} (founded : a.Founded ty) (address : Instruction) (offset : Nat) :
    a.Screens ty (read a ty address offset) :=
  readWithin_screens founded founded.walk_lt address offset

section
variable {types : List Ty} (founded : ∀ ty ∈ types, a.Founded ty)
include founded

theorem lowerFields_screens {lower : Converter} (lowered : Nat)
    (each : ∀ ty ∈ types, Screens huge (a.Supports ty) blamed (lower ty)) :
    Screens huge (∀ ty ∈ types, a.Supports ty) blamed (lowerFields a lower lowered types) := by
  induction types generalizing lowered with
  | nil => exact fun ty member => by cases member
  | cons ty rest ih =>
    obtain ⟨slots, flat⟩ := (founded ty (by simp)).exists_flatten
    have others := ih (fun other member => founded other (by simp [member])) (lowered + slots.length)
      fun other member => each other (by simp [member])
    have both := (each ty (by simp)).bind fun part =>
      others.finish (rollTo (rest.length + lowered) ++ part ++ ·)
    rw [lowerFields]
    simp only [flat, ok_bind]
    exact both.congr fun holds => List.forall_mem_cons.mpr holds

omit founded in
theorem liftFields_screens {lift : Converter} {widths : List Nat} (count : widths.length = types.length)
    (lifted : Nat) (each : ∀ ty ∈ types, Screens huge (a.Supports ty) blamed (lift ty)) :
    Screens huge (∀ ty ∈ types, a.Supports ty) blamed (liftFields lift lifted (types.zip widths)) := by
  induction types generalizing widths lifted with
  | nil => exact fun ty member => by cases member
  | cons ty rest ih =>
    cases widths with
    | nil => cases count
    | cons width widths =>
      have others := ih (by simpa using count) (lifted + 1) fun other member =>
        each other (by simp [member])
      have both := (each ty (by simp)).bind fun part => others.finish
        ((List.replicate width (rollTo (width + widthOf (rest.zip widths) - 1 + lifted))).flatten ++
          part ++ ·)
      exact both.congr fun holds => List.forall_mem_cons.mpr holds

theorem liftRecord_screens {lift : Converter}
    (each : ∀ ty ∈ types, Screens huge (a.Supports ty) blamed (lift ty)) :
    Screens huge (∀ ty ∈ types, a.Supports ty) blamed (liftRecord a lift types) := by
  have flattens : Computes False (types.mapM (Layout.flatten a))
      (List.Forall₂ (fun _ _ => True) types) := .mapM fun ty member =>
    (founded ty member).flattenWithin_computes (founded ty member).depth_le
  obtain ⟨rows, flat, related⟩ := flattens.exists_ok
  rw [liftRecord, flat, ok_bind]
  exact liftFields_screens (by simpa using related.length_eq.symm) 0 each

end

theorem lowerWithin_screens {ty : Ty} (founded : a.Founded ty) {depth : Nat}
    (deep : a.level ty < depth) : a.Screens ty (lowerWithin a depth ty) := by
  induction depth generalizing ty with
  | zero => exact absurd deep (Nat.not_lt_zero _)
  | succ depth ih =>
    rw [lowerWithin]
    refine founded.screens (fun p => by cases p <;> exact ⟨_, rfl⟩) fun id kind found plain core => ?_
    have each (carried : ¬ kind.Refused) := core.each found carried deep ih
    have fields {form : Form} {types : List Ty} (shape : kind.product? = some (form, types)) :=
      lowerFields_screens (core.founded_product found shape) 0 fun ty member =>
        each (Kind.product_carried shape) ty (Kind.product_parts shape ▸ member)
    simp only [found, ok_bind]
    cases kind with
    | tuple elements | record parts =>
      exact Arena.screens_parts found (fun never => never) ((fields rfl).finish _)
    | enumeration cases => exact Arena.screens_whole found (fun never => never) rfl _
    | list element =>
      have member : element ∈ (Kind.list element).parts := List.mem_singleton_self element
      have founded := core.founded.parts found element member
      have written := (Arena.Contains.part .self found (fun never => never) member).screens
        (write_screens founded iterBasePointer 0)
      exact Arena.screens_single found (fun never => never) rfl
        (lowerList_screens founded
          (fun many => (Arena.Oversized.self many).part found (fun never => never) member) written)
    | option payload =>
      have member : payload ∈ (Kind.option payload).parts := List.mem_singleton_self payload
      obtain ⟨slots, flat⟩ := (core.founded.parts found payload member).exists_flatten
      simp only [flat, ok_bind]
      exact Arena.screens_single found (fun never => never) rfl
        ((each (fun never => never) payload member).finish _)
    | «alias» target => exact absurd rfl (plain target)
    | _ => exact Arena.screens_refused found trivial

theorem liftWithin_screens {ty : Ty} (founded : a.Founded ty) {depth : Nat}
    (deep : a.level ty < depth) : a.Screens ty (liftWithin a depth ty) := by
  induction depth generalizing ty with
  | zero => exact absurd deep (Nat.not_lt_zero _)
  | succ depth ih =>
    rw [liftWithin]
    refine founded.screens (fun p => by cases p <;> exact ⟨_, rfl⟩) fun id kind found plain core => ?_
    have each (carried : ¬ kind.Refused) := core.each found carried deep ih
    have fields {form : Form} {types : List Ty} (shape : kind.product? = some (form, types)) :=
      liftRecord_screens (core.founded_product found shape) fun ty member =>
        each (Kind.product_carried shape) ty (Kind.product_parts shape ▸ member)
    simp only [found, ok_bind]
    cases kind with
    | tuple elements | record parts =>
      exact Arena.screens_parts found (fun never => never) ((fields rfl).finish _)
    | enumeration cases => exact Arena.screens_whole found (fun never => never) rfl _
    | list element =>
      have member : element ∈ (Kind.list element).parts := List.mem_singleton_self element
      have founded := core.founded.parts found element member
      have read := (Arena.Contains.part .self found (fun never => never) member).screens
        (read_screens founded iterBasePointer 0)
      exact Arena.screens_single found (fun never => never) rfl
        (liftList_screens founded
          (fun many => (Arena.Oversized.self many).part found (fun never => never) member) read)
    | option payload =>
      have member : payload ∈ (Kind.option payload).parts := List.mem_singleton_self payload
      obtain ⟨slots, flat⟩ := (core.founded.parts found payload member).exists_flatten
      simp only [flat, ok_bind]
      exact Arena.screens_single found (fun never => never) rfl
        ((each (fun never => never) payload member).finish _)
    | «alias» target => exact absurd rfl (plain target)
    | _ => exact Arena.screens_refused found trivial

theorem lower_screens {ty : Ty} (founded : a.Founded ty) : a.Screens ty (lower a ty) :=
  lowerWithin_screens founded founded.walk_lt

theorem lift_screens {ty : Ty} (founded : a.Founded ty) : a.Screens ty (lift a ty) :=
  liftWithin_screens founded founded.walk_lt

end Crossing

end ZigBindings
