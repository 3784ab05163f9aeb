import Mathlib.Data.List.Forall2
import ZigBindings.Fault

/-! Computations that may fail, taken apart. A computation that ends well has ended well at every
step on the way. -/

namespace ZigBindings

variable {ε α β : Type}

@[simp] theorem ok_bind (a : α) (f : α → Except ε β) : (Except.ok a >>= f) = f a := rfl

@[simp] theorem error_bind (e : ε) (f : α → Except ε β) :
    ((Except.error e : Except ε α) >>= f) = .error e := rfl

theorem pure_eq_ok (a : α) : (pure a : Except ε α) = .ok a := rfl

theorem throw_eq_error (e : ε) : (throw e : Except ε α) = .error e := rfl

theorem isOk_iff {x : Except ε α} : x.isOk = true ↔ ∃ a, x = .ok a := by
  cases x <;> simp [Except.isOk, Except.toBool]

theorem bind_eq_ok {x : Except ε α} {f : α → Except ε β} {b : β} :
    (x >>= f) = .ok b ↔ ∃ a, x = .ok a ∧ f a = .ok b := by
  cases x with
  | error e => simp
  | ok a => simp

theorem map_eq_ok {x : Except ε α} {f : α → β} {b : β} :
    x.map f = .ok b ↔ ∃ a, x = .ok a ∧ f a = b := by
  cases x with
  | error e => simp [Except.map]
  | ok a => simp [Except.map]

theorem mapError_eq_ok {ε' : Type*} {x : Except ε α} {f : ε → ε'} {a : α} :
    x.mapError f = .ok a ↔ x = .ok a := by
  cases x <;> simp [Except.mapError]

theorem mapM_eq_ok {f : α → Except ε β} {xs : List α} {ys : List β} :
    xs.mapM f = .ok ys ↔ List.Forall₂ (fun x y => f x = .ok y) xs ys := by
  induction xs generalizing ys with
  | nil => cases ys <;> simp [pure_eq_ok]
  | cons x xs ih =>
    rw [List.mapM_cons]
    constructor
    · intro done
      obtain ⟨y, first, done⟩ := bind_eq_ok.mp done
      obtain ⟨rest, others, done⟩ := bind_eq_ok.mp done
      cases done
      exact .cons first (ih.mp others)
    · intro each
      cases each with
      | cons first others => simp [first, ih.mpr others, pure_eq_ok]

theorem related_of_mem {related : α → β → Prop} {xs : List α} {ys : List β}
    (each : List.Forall₂ related xs ys) : ∀ x ∈ xs, ∃ y ∈ ys, related x y := by
  induction each with
  | nil => simp
  | cons first _ ih =>
    refine List.forall_mem_cons.mpr ⟨⟨_, List.mem_cons_self, first⟩, fun x member => ?_⟩
    obtain ⟨y, inside, related⟩ := ih x member
    exact ⟨y, List.mem_cons_of_mem _ inside, related⟩

theorem ok_of_mapM {f : α → Except ε β} {xs : List α} {ys : List β} (done : xs.mapM f = .ok ys) :
    ∀ x ∈ xs, ∃ y ∈ ys, f x = .ok y := related_of_mem (mapM_eq_ok.mp done)

theorem ok_of_forM {step : α → Except ε Unit} {xs : List α} (done : xs.forM step = .ok ()) :
    ∀ x ∈ xs, step x = .ok () := by
  induction xs with
  | nil => simp
  | cons x rest ih =>
    rw [List.forM_eq_forM, List.forM_cons, bind_eq_ok] at done
    obtain ⟨_, first, others⟩ := done
    exact List.forall_mem_cons.mpr ⟨first, ih others⟩

theorem mapM_ok_of_forall {f : α → Except ε β} {g : α → β} {xs : List α}
    (each : ∀ x ∈ xs, f x = .ok (g x)) : xs.mapM f = .ok (xs.map g) := by
  rw [mapM_eq_ok, List.forall₂_map_right_iff]
  exact List.forall₂_same.mpr each

theorem mem_flatten_of_mapM {f : α → Except ε (List β)} {xs : List α} {yss : List (List β)}
    (done : xs.mapM f = .ok yss) {y : β} :
    y ∈ yss.flatten ↔ ∃ x ∈ xs, ∃ ys, f x = .ok ys ∧ y ∈ ys := by
  have each := mapM_eq_ok.mp done
  clear done
  induction each with
  | nil => simp
  | cons first _ ih => simp [ih, first]

theorem mapM_congr {f g : α → Except ε β} {xs : List α} (same : ∀ x ∈ xs, f x = g x) :
    xs.mapM f = xs.mapM g := by
  induction xs with
  | nil => rfl
  | cons x rest ih =>
    rw [List.mapM_cons, List.mapM_cons, same x (by simp), ih fun other member => same other (by simp [member])]

theorem bind_congr_of_ok {x : Except ε α} {f g : α → Except ε β}
    (same : ∀ a, x = .ok a → f a = g a) : x >>= f = x >>= g := by
  cases x with
  | error e => rfl
  | ok a => exact same a rfl

def Ensures (computation : Except ε α) (described : α → Prop) : Prop :=
  ∀ a, computation = .ok a → described a

namespace Ensures

variable {x : Except ε α} {described : α → Prop}

theorem of_ok {a : α} (holds : described a) : Ensures (.ok a : Except ε α) described :=
  fun _ same => by cases same; exact holds

theorem pure {a : α} (holds : described a) : Ensures (Pure.pure a : Except ε α) described :=
  of_ok holds

theorem throw (e : ε) : Ensures (throw e : Except ε α) described := fun _ never => by cases never

theorem mono {other : α → Prop} (ensures : Ensures x described)
    (wider : ∀ a, described a → other a) : Ensures x other :=
  fun a done => wider a (ensures a done)

theorem bind {f : α → Except ε β} {next : β → Prop} (first : Ensures x described)
    (next_ok : ∀ a, described a → Ensures (f a) next) : Ensures (x >>= f) next := fun b done => by
  obtain ⟨a, start, done⟩ := bind_eq_ok.mp done
  exact next_ok a (first a start) b done

theorem bind_any {f : α → Except ε β} {next : β → Prop} (next_ok : ∀ a, Ensures (f a) next) :
    Ensures (x >>= f) next := fun b done => by
  obtain ⟨a, _, done⟩ := bind_eq_ok.mp done
  exact next_ok a b done

theorem mapM {f : α → Except ε β} {xs : List α} {related : α → β → Prop}
    (each : ∀ x ∈ xs, Ensures (f x) (related x)) :
    Ensures (xs.mapM f) (List.Forall₂ related xs) := fun ys done => by
  have steps := mapM_eq_ok.mp done
  clear done
  induction steps with
  | nil => exact .nil
  | cons first _ ih =>
    exact .cons (each _ (by simp) _ first) (ih fun other member => each other (by simp [member]))

theorem mapM_all {f : α → Except ε β} {xs : List α} {described : β → Prop}
    (each : ∀ x ∈ xs, Ensures (f x) described) :
    Ensures (xs.mapM f) fun ys => ∀ y ∈ ys, described y := by
  refine (mapM each).mono fun ys related => ?_
  induction related with
  | nil => simp
  | cons first _ ih =>
    exact List.forall_mem_cons.mpr ⟨first, ih fun other member => each other (by simp [member])⟩

theorem foldlM {step : β → α → Except ε β} {holds : β → Prop} {xs : List α}
    (each : ∀ b x, holds b → Ensures (step b x) holds) {b : β} (start : holds b) :
    Ensures (xs.foldlM step b) holds := by
  induction xs generalizing b with
  | nil => exact pure start
  | cons x rest ih => exact bind (each b x start) fun _ => ih

end Ensures

/-- The computation ends well exactly if the condition holds, and otherwise with such a fault. -/
def Decides (computation : Except ε α) (condition : Prop) (faulty : ε → Prop) : Prop :=
  match computation with
  | .ok _ => condition
  | .error e => ¬ condition ∧ faulty e

/-- Where the condition holds the computation is as described, and otherwise it ends with such a
fault. -/
def Settles (computation : Except ε α) (condition : Prop) (described : Except ε α → Prop)
    (faulty : ε → Prop) : Prop :=
  (condition → described computation) ∧ (¬ condition → ∃ e, computation = .error e ∧ faulty e)

theorem Settles.of_described {x : Except ε α} {described : Except ε α → Prop} {faulty : ε → Prop}
    (holds : described x) : Settles x True described faulty :=
  ⟨fun _ => holds, fun never => absurd trivial never⟩

theorem Settles.weaken {x : Except ε α} {condition : Prop} {described : Except ε α → Prop}
    {faulty other : ε → Prop} (settles : Settles x condition described faulty)
    (weaker : ∀ e, faulty e → other e) : Settles x condition described other :=
  ⟨settles.1, fun fails => (settles.2 fails).imp fun e stopped => ⟨stopped.1, weaker e stopped.2⟩⟩

theorem Settles.forM {step : α → Except ε Unit} {holds : α → Prop} {faulty : α → ε → Prop}
    {xs : List α} (each : ∀ x ∈ xs, Settles (step x) (holds x) (· = .ok ()) (faulty x)) :
    Settles (xs.forM step) (∀ x ∈ xs, holds x) (· = .ok ()) fun e =>
      ∃ x ∈ xs, ¬ holds x ∧ faulty x e := by
  induction xs with
  | nil => exact ⟨fun _ => rfl, fun never => absurd (fun _ member => by cases member) never⟩
  | cons x rest ih =>
    have first := each x (by simp)
    have others := ih fun other member => each other (by simp [member])
    rw [List.forM_eq_forM] at others ⊢
    rw [List.forM_cons]
    by_cases good : holds x
    · rw [first.1 good, ok_bind]
      refine ⟨fun all => others.1 fun other member => all other (by simp [member]), fun fails => ?_⟩
      obtain ⟨e, stopped, y, member, also⟩ := others.2 fun all =>
        fails (List.forall_mem_cons.mpr ⟨good, all⟩)
      exact ⟨e, stopped, y, by simp [member], also⟩
    · obtain ⟨e, stopped, also⟩ := first.2 good
      refine ⟨fun all => absurd (all x (by simp)) good, fun _ => ⟨e, ?_, x, by simp, good, also⟩⟩
      rw [stopped, error_bind]

namespace Decides

variable {condition other : Prop} {faulty : ε → Prop}

theorem of_ok {x : Except ε α} {a : α} (decides : Decides x condition faulty) (done : x = .ok a) :
    condition := by
  rw [done] at decides
  exact decides

theorem exists_ok {x : Except ε α} (decides : Decides x condition faulty) (holds : condition) :
    ∃ a, x = .ok a := by
  cases x with
  | ok a => exact ⟨a, rfl⟩
  | error e => exact absurd holds decides.1

theorem exists_error {x : Except ε α} (decides : Decides x condition faulty)
    (fails : ¬ condition) : ∃ e, x = .error e ∧ faulty e := by
  cases x with
  | ok a => exact absurd decides fails
  | error e => exact ⟨e, rfl, decides.2⟩

theorem congr {x : Except ε α} (decides : Decides x condition faulty)
    (same : condition ↔ other) : Decides x other faulty := by
  cases x with
  | ok a => exact same.mp decides
  | error e => exact ⟨fun holds => decides.1 (same.mpr holds), decides.2⟩

theorem bind {x : Except ε α} {f : α → Except ε β} (first : Decides x condition faulty)
    (next : ∀ a, Decides (f a) other faulty) : Decides (x >>= f) (condition ∧ other) faulty := by
  cases x with
  | error e => exact ⟨fun both => first.1 both.1, first.2⟩
  | ok a =>
    change Decides (f a) _ faulty
    exact (next a).congr ⟨fun holds => ⟨first, holds⟩, And.right⟩

theorem pure (a : α) : Decides (.ok a : Except ε α) True faulty := trivial

theorem mapM {f : α → Except ε β} {xs : List α} {each : α → Prop}
    (decides : ∀ x ∈ xs, Decides (f x) (each x) faulty) :
    Decides (xs.mapM f) (∀ x ∈ xs, each x) faulty := by
  induction xs with
  | nil => exact fun x member => by cases member
  | cons x rest ih =>
    rw [List.mapM_cons]
    have others := ih fun other member => decides other (by simp [member])
    refine ((decides x (by simp)).bind fun y => others.bind fun ys => pure _).congr ?_
    simp

theorem forM {f : α → Except ε Unit} {xs : List α} {each : α → Prop}
    (decides : ∀ x ∈ xs, Decides (f x) (each x) faulty) :
    Decides (xs.forM f) (∀ x ∈ xs, each x) faulty := by
  induction xs with
  | nil => exact fun x member => by cases member
  | cons x rest ih =>
    have others := ih fun other member => decides other (by simp [member])
    refine ((decides x (by simp)).bind fun _ => others).congr ?_
    simp

end Decides

end ZigBindings
