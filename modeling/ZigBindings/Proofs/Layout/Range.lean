import ZigBindings.Proofs.Layout.Offsets

/-! Layouts in the range of doubles. Where offsets are rounded the arithmetic fails for quotients beyond
that range, and for nothing else. -/

namespace ZigBindings

/-- The computation stops at a quotient that is no double. -/
def Layout.Overflows {α : Type} (computation : Except Fault α) : Prop :=
  computation = .error .quotientRange

instance {α : Type} [DecidableEq α] (computation : Except Fault α) :
    Decidable (Layout.Overflows computation) :=
  inferInstanceAs (Decidable (computation = .error .quotientRange))

/-- The computation ends with what is wanted, unless the arithmetic of layouts leaves the range of
doubles, which happens to huge values only. -/
def Computes {α : Type} (huge : Prop) (computation : Except Fault α) (wanted : α → Prop) : Prop :=
  match computation with
  | .ok a => wanted a
  | .error fault => fault = .quotientRange ∧ huge

namespace Computes

variable {α β : Type} {huge huger : Prop}

@[simp] theorem ok {a : α} {wanted : α → Prop} : Computes huge (.ok a) wanted ↔ wanted a := Iff.rfl

theorem of_ok {computation : Except Fault α} {a : α} {wanted : α → Prop} (done : computation = .ok a)
    (holds : wanted a) : Computes huge computation wanted := by
  rw [done]
  exact holds

theorem bind {first : Except Fault α} {next : α → Except Fault β} {between : α → Prop}
    {wanted : β → Prop} (computed : Computes huge first between)
    (continued : ∀ a, between a → Computes huge (next a) wanted) :
    Computes huge (first >>= next) wanted := by
  cases first with
  | ok a => exact continued a computed
  | error fault => exact computed

theorem mono {computation : Except Fault α} {wanted weaker : α → Prop}
    (computed : Computes huge computation wanted) (weaken : ∀ a, wanted a → weaker a) :
    Computes huge computation weaker := by
  cases computation with
  | ok a => exact weaken a computed
  | error fault => exact computed

theorem widen {computation : Except Fault α} {wanted : α → Prop}
    (computed : Computes huge computation wanted) (wide : huge → huger) :
    Computes huger computation wanted := by
  cases computation with
  | ok a => exact computed
  | error fault => exact ⟨computed.1, wide computed.2⟩

theorem mapM {f : α → Except Fault β} {xs : List α} {related : α → β → Prop}
    (each : ∀ x ∈ xs, Computes huge (f x) (related x)) :
    Computes huge (xs.mapM f) (List.Forall₂ related xs) := by
  induction xs with
  | nil => exact .nil
  | cons x rest ih =>
    rw [List.mapM_cons]
    refine (each x (by simp)).bind fun y first => ?_
    refine (ih fun other member => each other (by simp [member])).bind fun ys others => ?_
    exact .cons first others

theorem mapM_all {f : α → Except Fault β} {xs : List α} {described : β → Prop}
    (each : ∀ x ∈ xs, Computes huge (f x) described) :
    Computes huge (xs.mapM f) fun ys => ∀ y ∈ ys, described y := by
  refine (mapM each).mono fun ys related => ?_
  induction related with
  | nil => simp
  | cons first _ ih =>
    exact List.forall_mem_cons.mpr ⟨first, ih fun other member => each other (by simp [member])⟩

theorem exists_ok {x : Except Fault α} {wanted : α → Prop} (computes : Computes False x wanted) :
    ∃ a, x = .ok a ∧ wanted a := by
  cases x with
  | ok a => exact ⟨a, rfl, computes⟩
  | error fault => exact computes.2.elim

theorem overflows {computation : Except Fault α} {wanted : α → Prop}
    (computed : Computes huge computation wanted) :
    Computes (Layout.Overflows computation) computation wanted := by
  cases computation with
  | ok a => exact computed
  | error fault => exact ⟨computed.1, congrArg Except.error computed.1⟩

/-- Two computations that begin alike: the one overflows where the other does. -/
theorem alongside {γ : Type} {first : Except Fault α} {next : α → Except Fault β}
    {other : α → Except Fault γ} {between : α → Prop} {wanted : β → Prop}
    (computed : Computes huge first between)
    (continued : ∀ a, between a → Computes (Layout.Overflows (other a)) (next a) wanted) :
    Computes (Layout.Overflows (first >>= other)) (first >>= next) wanted := by
  cases first with
  | ok a => exact continued a computed
  | error fault => exact ⟨computed.1, congrArg Except.error computed.1⟩

end Computes

namespace Layout

theorem alignUp_range {x alignment : Nat} (aligned : Alignable alignment) :
    (∃ y, alignUp x alignment = .ok y) ∨ alignUp x alignment = .error .quotientRange := by
  rw [alignUp_eq aligned.positive]
  split
  · exact .inr rfl
  · exact .inl ⟨_, rfl⟩

/-- What does not overflow is less than about 2^1024 alignments. -/
theorem alignUp_overflows_iff {x alignment : Nat} (positive : 0 < alignment) :
    Overflows (alignUp x alignment) ↔ (2 ^ 54 - 1) * 2 ^ 970 * alignment ≤ x := by
  rw [← alignTo_fails_iff positive, Overflows, alignUp_eq positive, alignTo_eq positive]
  split <;> simp

theorem alignUp_computes (x : Nat) {alignment : Nat} (aligned : Alignable alignment) :
    Computes True (alignUp x alignment) fun _ => True := by
  rcases alignUp_range (x := x) aligned with ⟨y, done⟩ | failed
  · exact .of_ok done trivial
  · rw [failed]
    exact ⟨rfl, trivial⟩

theorem discriminantSize_le (count : Nat) : discriminantSize count ≤ 8 := by
  unfold discriminantSize
  split
  · omega
  · split <;> omega

section
variable {fields : List Extent} (aligned : ∀ field ∈ fields, Alignable field.align)
include aligned

theorem place_computes (start : Nat) :
    Computes True (place start fields) fun placed => placed.1.length = fields.length := by
  induction fields generalizing start with
  | nil => rfl
  | cons field rest ih =>
    obtain ⟨first, others⟩ := List.forall_mem_cons.mp aligned
    rw [place]
    refine (alignUp_computes start first).bind fun offset _ => ?_
    refine (ih others (offset + field.size)).bind fun placed count => ?_
    exact congrArg Nat.succ count

theorem recordExtent_computes :
    Computes True (recordExtent fields) fun extent => Alignable extent.align := by
  have most := maxAlign_alignable aligned
  unfold recordExtent
  split
  · exact Alignable.one
  · refine (place_computes aligned 0).bind fun placed _ => ?_
    exact (alignUp_computes placed.2 most).bind fun _ _ => most

theorem offsets_computes :
    Computes (Overflows (recordExtent fields)) (place 0 fields)
      fun placed => placed.1.length = fields.length := by
  cases fields with
  | nil => rfl
  | cons field rest =>
    rw [← bind_pure (place 0 (field :: rest))]
    exact (place_computes aligned 0).alongside fun _ count => count

theorem payloadStart_computes (count : Nat) : Computes True (payloadStart count fields) fun _ => True :=
  alignUp_computes _ (maxAlign_alignable aligned)

theorem sumExtent_computes (count : Nat) :
    Computes True (sumExtent count fields) fun extent => Alignable extent.align := by
  have whole := (discriminantSize_alignable count).max (maxAlign_alignable aligned)
  refine (payloadStart_computes aligned count).bind fun start _ => ?_
  exact (alignUp_computes _ whole).bind fun _ _ => whole

end

end Layout

end ZigBindings
