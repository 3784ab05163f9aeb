import ZigBindings.Layout.Measure
import ZigBindings.Proofs.Machine.Run

/-! Which accesses to memory a sequence contains, each with the instruction that pushed its address
and the consumer of the loop around it. An address is on top of the stack when it is used, so the
instruction in front of the access has pushed it. -/

namespace ZigBindings

def Instruction.access? : Instruction → Option (Access × Nat)
  | .load access offset | .store access offset => some (access, offset)
  | _ => none

namespace Machine
open Instruction

structure Reference where
  /-- What pushed the address. -/
  base : Option Instruction
  /-- What consumes the innermost loop around the access. -/
  loop : Option Instruction
  access : Access
  offset : Nat
deriving DecidableEq, Inhabited

namespace Code

def consumer? : Code → Option Instruction
  | plain inst _ => some inst
  | _ => none

/-- The accesses of a sequence that follows a `base` in the body of a `loop`. -/
def references (loop base : Option Instruction) : Code → List Reference
  | done => []
  | plain inst rest =>
    match inst.access? with
    | some (access, offset) => ⟨base, loop, access, offset⟩ :: rest.references loop (some inst)
    | none => rest.references loop (some inst)
  | block _ isLoop body _ rest =>
    body.references (if isLoop then rest.consumer? else loop) none ++ rest.references loop none

theorem references_plain {inst : Instruction} (quiet : inst.access? = none)
    (loop base : Option Instruction) (rest : Code) :
    (plain inst rest).references loop base = rest.references loop (some inst) := by
  rw [references, quiet]

end Code

/-- What is asked of a sequence: how large its areas may be declared, and what it may access. -/
structure Limits where
  returnArea : Layout.Extent → Prop
  paramArea : Layout.Extent → Prop
  access : Reference → Prop

def Limits.Admits (limits : Limits) : Instruction → Prop
  | .returnPointer size align => limits.returnArea ⟨size, align⟩
  | .paramPointer size align => limits.paramArea ⟨size, align⟩
  | _ => True

/-- An instruction that neither opens nor closes a block, accesses no memory, and declares no area
but one that is asked for. -/
structure Limits.Quiet (limits : Limits) (inst : Instruction) : Prop where
  plain : isBracket inst = false
  quiet : inst.access? = none
  admitted : limits.Admits inst

/-- The sequence keeps to the limits in the body of a `loop`, whatever follows it there. -/
structure Confined (limits : Limits) (loop : Option Instruction) (code : List Instruction) :
    Prop where
  admitted : ∀ inst ∈ code, limits.Admits inst
  references : ∃ nested, NestsTo code nested ∧ ∀ base rest,
    ∀ reference ∈ (nested.append rest).references loop base,
      limits.access reference ∨ ∃ base, reference ∈ rest.references loop base

namespace Confined

variable {limits : Limits} {loop : Option Instruction} {code : List Instruction}

theorem nil : Confined limits loop [] where
  admitted inst member := by cases member
  references := ⟨.done, .nil, fun base rest reference member => .inr ⟨base, member⟩⟩

theorem append {last : List Instruction} (first : Confined limits loop code)
    (second : Confined limits loop last) : Confined limits loop (code ++ last) where
  admitted := List.forall_mem_append.mpr ⟨first.admitted, second.admitted⟩
  references := by
    obtain ⟨nested, nests, each⟩ := first.references
    obtain ⟨behind, nestsBehind, others⟩ := second.references
    refine ⟨nested.append behind, nests.append nestsBehind, fun base rest reference member => ?_⟩
    rw [Code.append_assoc] at member
    rcases each base _ reference member with allowed | ⟨base, later⟩
    · exact .inl allowed
    · exact others base rest reference later

theorem cons {inst : Instruction} (quiet : limits.Quiet inst) (rest : Confined limits loop code) :
    Confined limits loop (inst :: code) where
  admitted := List.forall_mem_cons.mpr ⟨quiet.admitted, rest.admitted⟩
  references := by
    obtain ⟨nested, nests, each⟩ := rest.references
    refine ⟨_, nests.plain quiet.plain, fun base rest reference member => ?_⟩
    rw [Code.append, Code.references_plain quiet.quiet] at member
    exact each _ rest reference member

theorem single {inst : Instruction} (quiet : limits.Quiet inst) : Confined limits loop [inst] :=
  nil.cons quiet

theorem plain (each : ∀ inst ∈ code, limits.Quiet inst) : Confined limits loop code := by
  induction code with
  | nil => exact nil
  | cons inst rest ih =>
    exact (ih fun other member => each other (by simp [member])).cons (each inst (by simp))

theorem flatten {parts : List (List Instruction)}
    (each : ∀ part ∈ parts, Confined limits loop part) : Confined limits loop parts.flatten := by
  induction parts with
  | nil => exact nil
  | cons part rest ih =>
    rw [List.flatten_cons]
    exact (each part (by simp)).append (ih fun other member => each other (by simp [member]))

theorem access {address inst : Instruction} {access : Access} {offset : Nat}
    (quiet : limits.Quiet address) (accesses : inst.access? = some (access, offset))
    (allowed : limits.access ⟨some address, loop, access, offset⟩) :
    Confined limits loop [address, inst] where
  admitted := by
    have admitted : limits.Admits inst := by
      cases inst with
      | load access offset | store access offset => trivial
      | _ => cases accesses
    simpa using ⟨quiet.admitted, admitted⟩
  references := by
    have plain : isBracket inst = false := by
      cases inst with
      | load access offset | store access offset => rfl
      | _ => cases accesses
    refine ⟨_, (NestsTo.nil.plain plain).plain quiet.plain, fun base rest reference member => ?_⟩
    rw [Code.append, Code.references_plain quiet.quiet, Code.append, Code.references, accesses]
      at member
    rcases List.mem_cons.mp member with rfl | later
    · exact .inl allowed
    · exact .inr ⟨some inst, later⟩

theorem alone (confined : Confined limits loop code) : ∃ nested, NestsTo code nested ∧
    ∀ reference ∈ nested.references loop none, limits.access reference := by
  obtain ⟨nested, nests, each⟩ := confined.references
  refine ⟨nested, nests, fun reference member => ?_⟩
  rcases each none .done reference (by simpa using member) with allowed | ⟨base, absurd⟩
  · exact allowed
  · cases absurd

theorem block {inputs results : Nat} (body : Confined limits loop code) :
    Confined limits loop ([blockBegin inputs false] ++ code ++ [blockEnd results]) where
  admitted := by simpa [or_imp, forall_and, Limits.Admits] using body.admitted
  references := by
    obtain ⟨nested, nests, each⟩ := body.alone
    have whole : NestsTo (blockBegin inputs false :: (code ++ [blockEnd results]))
        (.block inputs false nested results .done) := nests.block .nil
    refine ⟨_, by simpa using whole, fun base rest reference member => ?_⟩
    rw [Code.append, Code.references] at member
    rcases List.mem_append.mp member with inside | later
    · exact .inl (each reference inside)
    · exact .inr ⟨none, later⟩

theorem choice {last : List Instruction} {chooser : Instruction} (first : Confined limits loop code)
    (second : Confined limits loop last) (quiet : limits.Quiet chooser)
    (inputs results others values : Nat) :
    Confined limits loop ([blockBegin inputs false] ++ code ++ [blockEnd results] ++
      ([blockBegin others false] ++ last ++ [blockEnd values] ++ [chooser])) :=
  first.block.append (second.block.append (single quiet))

theorem iteration {inputs results : Nat} {consumer : Instruction}
    (body : Confined limits (some consumer) code) (quiet : limits.Quiet consumer) :
    Confined limits loop ([blockBegin inputs true] ++ code ++ [blockEnd results, consumer]) where
  admitted := by
    simpa [or_imp, forall_and, Limits.Admits] using ⟨body.admitted, quiet.admitted⟩
  references := by
    obtain ⟨nested, nests, each⟩ := body.alone
    have whole : NestsTo (blockBegin inputs true :: (code ++ [blockEnd results, consumer]))
        (.block inputs true nested results (.plain consumer .done)) :=
      nests.block (NestsTo.nil.plain quiet.plain)
    refine ⟨_, by simpa using whole, fun base rest reference member => ?_⟩
    rw [Code.append, Code.references] at member
    rcases List.mem_append.mp member with inside | later
    · exact .inl (each reference inside)
    · rw [Code.append, Code.references_plain quiet.quiet] at later
      exact .inr ⟨some consumer, later⟩

theorem exists_nest (confined : Confined limits none code) :
    ∃ nested, nest code = some nested ∧
      ∀ reference ∈ nested.references none none, limits.access reference := by
  obtain ⟨nested, nests, each⟩ := confined.alone
  exact ⟨nested, by simp [nest, nests.nestFrom_eq], each⟩

end Confined

end Machine

end ZigBindings
