import Mathlib.Data.Finset.Card
import Mathlib.Data.Finset.Range
import Mathlib.Data.Finset.Filter
import Mathlib.Logic.Relation

/-! How far a relation leads. Along a relation that never leads back, the number of places still
ahead goes down at every step, so a walk ends within as many steps as there are places. -/

namespace ZigBindings

variable {R : Nat → Nat → Prop} {bound i j : Nat}

open Classical in
noncomputable def rank (R : Nat → Nat → Prop) (bound i : Nat) : Nat :=
  ((Finset.range bound).filter fun j => Relation.TransGen R i j).card

theorem rank_lt (leads : R i j) (inside : j < bound) (apart : ¬ Relation.TransGen R j j) :
    rank R bound j < rank R bound i := by
  classical
  refine Finset.card_lt_card (Finset.ssubset_iff_of_subset ?_ |>.mpr ⟨j, ?_, ?_⟩)
  · intro k member
    simp only [Finset.mem_filter] at member ⊢
    exact ⟨member.1, .head leads member.2⟩
  · simp only [Finset.mem_filter, Finset.mem_range]
    exact ⟨inside, .single leads⟩
  · simp only [Finset.mem_filter, not_and]
    exact fun _ => apart

theorem rank_lt_bound (inside : i < bound) (apart : ¬ Relation.TransGen R i i) :
    rank R bound i < bound := by
  classical
  have fewer : ((Finset.range bound).filter fun j => Relation.TransGen R i j) ⊂
      Finset.range bound := by
    refine Finset.ssubset_iff_of_subset (Finset.filter_subset _ _) |>.mpr ⟨i, ?_, ?_⟩
    · exact Finset.mem_range.mpr inside
    · simp only [Finset.mem_filter, not_and]
      exact fun _ => apart
  simpa [rank] using Finset.card_lt_card fewer

end ZigBindings
