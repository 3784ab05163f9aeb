import Mathlib.Data.Option.Defs
import Mathlib.Data.Option.Basic
import ZigBindings.Proofs.Outcome

/-! Two computations side by side. They agree if both end well, with values that belong together, or
if both fail, whatever with. -/

namespace ZigBindings

variable {ε α β γ δ : Type}

/-- Both computations end well with related values, or both fail. -/
inductive Agree (related : α → β → Prop) : Except ε α → Except ε β → Prop where
  | ok {a : α} {b : β} : related a b → Agree related (.ok a) (.ok b)
  | error {e e' : ε} : Agree related (.error e) (.error e')

namespace Agree

variable {related : α → β → Prop} {next : γ → δ → Prop} {x : Except ε α} {y : Except ε β}

theorem pure {a : α} {b : β} (same : related a b) :
    Agree related (Pure.pure a : Except ε α) (Pure.pure b) := .ok same

theorem throw (e e' : ε) : Agree related (throw e : Except ε α) (throw e') := .error

theorem refl {related : α → α → Prop} (same : ∀ a, related a a) (x : Except ε α) : Agree related x x := by
  cases x with
  | ok a => exact .ok (same a)
  | error e => exact .error

theorem rfl {x : Except ε α} : Agree Eq x x := refl (fun _ => Eq.refl _) x

theorem mono {other : α → β → Prop} (agree : Agree related x y) (wider : ∀ a b, related a b → other a b) :
    Agree other x y := by
  cases agree with
  | ok same => exact .ok (wider _ _ same)
  | error => exact .error

theorem bind {f : α → Except ε γ} {g : β → Except ε δ} (first : Agree related x y)
    (after : ∀ a b, related a b → Agree next (f a) (g b)) : Agree next (x >>= f) (y >>= g) := by
  cases first with
  | ok same => exact after _ _ same
  | error => exact .error

theorem bind_eq {x y : Except ε α} {f : α → Except ε γ} {g : α → Except ε δ} (first : Agree Eq x y)
    (after : ∀ a, Agree next (f a) (g a)) : Agree next (x >>= f) (y >>= g) :=
  first.bind fun a _ same => same ▸ after a

theorem map {f : α → γ} {g : β → δ} (agree : Agree related x y)
    (after : ∀ a b, related a b → next (f a) (g b)) : Agree next (x.map f) (y.map g) := by
  cases agree with
  | ok same => exact .ok (after _ _ same)
  | error => exact .error

theorem mapError {ε' : Type} (agree : Agree related x y) (f g : ε → ε') :
    Agree related (x.mapError f) (y.mapError g) := by
  cases agree with
  | ok same => exact .ok same
  | error => exact .error

theorem of_ok {a : α} (agree : Agree related x y) (done : x = .ok a) : ∃ b, y = .ok b ∧ related a b := by
  cases agree with
  | ok same =>
    cases done
    exact ⟨_, Eq.refl _, same⟩
  | error => cases done

theorem symm (agree : Agree related x y) : Agree (fun b a => related a b) y x := by
  cases agree with
  | ok same => exact .ok same
  | error => exact .error

theorem ok_iff {x y : Except ε α} {a : α} (agree : Agree Eq x y) : x = .ok a ↔ y = .ok a := by
  cases agree with
  | ok same => rw [same]
  | error => simp

section
variable {xs : List α} {ys : List β}

theorem mapM {f : α → Except ε γ} {g : β → Except ε δ} (pairs : List.Forall₂ related xs ys)
    (each : ∀ x y, related x y → Agree next (f x) (g y)) :
    Agree (List.Forall₂ next) (xs.mapM f) (ys.mapM g) := by
  induction pairs with
  | nil => exact pure .nil
  | cons first _ ih =>
    rw [List.mapM_cons, List.mapM_cons]
    exact (each _ _ first).bind fun _ _ same => ih.bind fun _ _ others => pure (.cons same others)

theorem mapM_eq {f : α → Except ε γ} {g : β → Except ε γ} (pairs : List.Forall₂ related xs ys)
    (each : ∀ x y, related x y → Agree Eq (f x) (g y)) : Agree Eq (xs.mapM f) (ys.mapM g) :=
  (mapM pairs each).mono fun _ _ same => List.forall₂_eq_eq_eq ▸ same

theorem forM {f : α → Except ε Unit} {g : β → Except ε Unit} (pairs : List.Forall₂ related xs ys)
    (each : ∀ x y, related x y → Agree Eq (f x) (g y)) : Agree Eq (xs.forM f) (ys.forM g) := by
  induction pairs with
  | nil => exact pure (Eq.refl _)
  | cons first _ ih =>
    rw [List.forM_eq_forM, List.forM_eq_forM] at ih ⊢
    rw [List.forM_cons, List.forM_cons]
    exact (each _ _ first).bind_eq fun _ => ih

theorem foldlM {step : γ → α → Except ε γ} {other : δ → β → Except ε δ}
    (pairs : List.Forall₂ related xs ys)
    (each : ∀ s t x y, next s t → related x y → Agree next (step s x) (other t y)) {s : γ} {t : δ}
    (start : next s t) : Agree next (xs.foldlM step s) (ys.foldlM other t) := by
  induction pairs generalizing s t with
  | nil => exact pure start
  | cons first _ ih =>
    rw [List.foldlM_cons, List.foldlM_cons]
    exact (each _ _ _ _ start first).bind fun _ _ same => ih same

end

end Agree

end ZigBindings
