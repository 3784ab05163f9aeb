import ZigBindings.Emission.Value

/-! Scopes of locals in generated bodies: which names a statement declares, which ones it mentions,
whether all it mentions are in scope, and whether all it declares are mentioned later. -/

namespace ZigBindings.Zig

namespace Expr

@[simp] theorem namesAll_nil : namesAll [] = [] := rfl

@[simp] theorem namesAll_cons (e : Expr) (rest : List Expr) :
    namesAll (e :: rest) = e.names ++ namesAll rest := rfl

@[simp] theorem namesAll_append (first second : List Expr) :
    namesAll (first ++ second) = namesAll first ++ namesAll second := by
  induction first with
  | nil => simp
  | cons e rest ih => simp [ih]

theorem mem_namesAll {x : String} {values : List Expr} :
    x ∈ namesAll values ↔ ∃ e ∈ values, x ∈ e.names := by
  induction values with
  | nil => simp
  | cons e rest ih => simp [ih]

theorem namesAll_names (locals : List String) : namesAll (locals.map name) = locals := by
  induction locals with
  | nil => simp
  | cons first rest ih => simp [names, ih]

@[simp] theorem names_fixed (text : String) : (fixed text).names = [] := rfl

@[simp] theorem names_name (ident : String) : (name ident).names = [ident] := rfl

@[simp] theorem names_number (value : Int) : (number value).names = [] := rfl

@[simp] theorem names_typed (type : String) (value : Expr) : (typed type value).names = value.names :=
  rfl

@[simp] theorem names_field (value : Expr) (member : String) :
    (field value member).names = value.names := rfl

@[simp] theorem names_deref (value : Expr) : (deref value).names = value.names := rfl

@[simp] theorem names_addressOf (value : Expr) : (addressOf value).names = value.names := rfl

@[simp] theorem names_nonzero (value : Expr) : (nonzero value).names = value.names := rfl

@[simp] theorem names_orPanic (value : Expr) : (orPanic value).names = value.names := rfl

@[simp] theorem names_builtin (function : String) (args : List Expr) :
    (builtin function args).names = namesAll args := rfl

@[simp] theorem names_call (target : Expr) (args : List Expr) :
    (call target args).names = target.names ++ namesAll args := rfl

@[simp] theorem names_plus (left right : Expr) : (plus left right).names = left.names ++ right.names :=
  rfl

@[simp] theorem names_times (left right : Expr) :
    (times left right).names = left.names ++ right.names := rfl

@[simp] theorem names_slice (value stop : Expr) : (slice value stop).names = value.names ++ stop.names :=
  rfl

@[simp] theorem names_tuple (items : List Expr) : (tuple items).names = namesAll items := rfl

@[simp] theorem names_struct (fields : List String) (values : List Expr) :
    (struct fields values).names = namesAll values := rfl

@[simp] theorem names_usizeOf (slot : Expr) : (usizeOf slot).names = slot.names := by simp [usizeOf]

@[simp] theorem names_slotOf (value : Expr) : (slotOf value).names = value.names := by simp [slotOf]

@[simp] theorem names_pointerSlot (pointer : Expr) : (pointerSlot pointer).names = pointer.names := by
  simp [pointerSlot]

@[simp] theorem names_address (base : Expr) (offset : Nat) : (address base offset).names = base.names := by
  rw [address]
  split <;> simp

@[simp] theorem names_applyStep (value : Expr) (step : Step) : (applyStep value step).names = value.names := by
  rw [applyStep]
  split <;> simp

@[simp] theorem names_convert (value : Expr) (src dst : Numeric) :
    (convert value src dst).names = value.names := by
  rw [convert]
  induction src.plan dst generalizing value with
  | nil => rfl
  | cons step rest ih => rw [List.foldl_cons, ih, names_applyStep]

theorem names_widen {value slot : Expr} {p : Primitive} {dst : Slot}
    (widened : widen? value p dst = some slot) : slot.names = value.names := by
  obtain ⟨_, _, rfl⟩ := Option.map_eq_some_iff.mp widened
  rw [names_convert]
  split <;> simp

theorem names_narrow {value slot : Expr} {src : Slot} {p : Primitive}
    (narrowed : narrow? slot src p = some value) : value.names = slot.names := by
  rw [narrow?.eq_def] at narrowed
  split at narrowed
  · cases narrowed
    exact names_nonzero slot
  · cases narrowed
    simp
  · obtain ⟨_, _, rfl⟩ := Option.map_eq_some_iff.mp narrowed
    exact names_convert _ _ _

end Expr

namespace Stmt
open Zig.Expr

/-- The names that a statement declares for those after it. -/
def declared : Stmt → List String
  | const ident _ _ | slotVar ident _ | switchOption ident _ _ _ _ _ => [ident]
  | _ => []

def declaredAll (body : List Stmt) : List String := body.flatMap declared

def headValue : Option (String × Expr) → List String
  | some (_, value) => value.names
  | none => []

def lastValues : Option (Expr × Expr) → List String
  | some (target, value) => target.names ++ value.names
  | none => []

mutual
def locals : Stmt → List String
  | const ident _ _ | slotVar ident _ => [ident]
  | ifSome _ capture _ present _ absent _ => capture.toList ++ localsAll present ++ localsAll absent
  | switchOption ident _ _ absent present _ => ident :: (localsAll absent ++ localsAll present)
  | forEach _ _ item index base body _ =>
    item.toList ++ index.toList ++ (base.map (·.1)).toList ++ localsAll body
  | assign _ _ | discard _ | run _ | onExit _ | ret _ => []

def localsAll : List Stmt → List String
  | [] => []
  | s :: rest => s.locals ++ localsAll rest
end

mutual
def mentions : Stmt → List String
  | const _ _ value | discard value | run value | onExit value | ret value => value.names
  | slotVar _ _ => []
  | assign target value => target.names ++ value.names
  | ifSome value _ slots present presentResults absent absentResults =>
    value.names ++ slots ++ (mentionsAll present ++ namesAll presentResults) ++
      (mentionsAll absent ++ namesAll absentResults)
  | switchOption _ _ discriminant absent present payload =>
    discriminant.names ++ mentionsAll absent ++ (mentionsAll present ++ payload.names)
  | forEach items _ _ _ base body last =>
    items.names ++ headValue base ++ (mentionsAll body ++ lastValues last)

def mentionsAll : List Stmt → List String
  | [] => []
  | s :: rest => s.mentions ++ mentionsAll rest
end

mutual
/-- All that a statement mentions is in scope, given the names in scope around it. A capture is in
scope in the body behind it, and a declared name in the rest of its body. -/
def Scoped : List String → Stmt → Prop
  | around, const _ _ value | around, discard value | around, run value | around, onExit value
  | around, ret value => value.names ⊆ around
  | _, slotVar _ _ => True
  | around, assign target value => target.names ++ value.names ⊆ around
  | around, ifSome value capture slots present presentResults absent absentResults =>
    value.names ++ slots ⊆ around ∧
      ScopedAll (around ++ capture.toList) present ∧
      namesAll presentResults ⊆ around ++ capture.toList ++ declaredAll present ∧
      ScopedAll around absent ∧ namesAll absentResults ⊆ around ++ declaredAll absent
  | around, switchOption _ _ discriminant absent present payload =>
    discriminant.names ⊆ around ∧ ScopedAll around absent ∧ ScopedAll around present ∧
      payload.names ⊆ around ++ declaredAll present
  | around, forEach items _ item index base body last =>
    items.names ⊆ around ∧ headValue base ⊆ around ++ (item.toList ++ index.toList) ∧
      ScopedAll (around ++ (item.toList ++ index.toList) ++ (base.map (·.1)).toList) body ∧
      lastValues last ⊆ around ++ (item.toList ++ index.toList) ++ (base.map (·.1)).toList ++
        declaredAll body

def ScopedAll : List String → List Stmt → Prop
  | _, [] => True
  | around, s :: rest => Scoped around s ∧ ScopedAll (around ++ s.declared) rest
end

mutual
/-- All that the bodies of a statement declare and all that it captures is mentioned again in them. -/
def Spent : Stmt → Prop
  | ifSome _ capture _ present presentResults absent absentResults =>
    capture.toList ⊆ mentionsAll present ++ namesAll presentResults ∧
      SpentAll (namesAll presentResults) present ∧ SpentAll (namesAll absentResults) absent
  | switchOption _ _ _ absent present payload => SpentAll [] absent ∧ SpentAll payload.names present
  | forEach _ _ item index base body last =>
    item.toList ++ index.toList ⊆ headValue base ++ (mentionsAll body ++ lastValues last) ∧
      (base.map (·.1)).toList ⊆ mentionsAll body ++ lastValues last ∧
      SpentAll (lastValues last) body
  | const _ _ _ | slotVar _ _ | assign _ _ | discard _ | run _ | onExit _ | ret _ => True

/-- Each declared name is mentioned by a later statement, or by what comes after the body. -/
def SpentAll : List String → List Stmt → Prop
  | _, [] => True
  | after, s :: rest => s.declared ⊆ mentionsAll rest ++ after ∧ Spent s ∧ SpentAll after rest
end

section
variable {around after : List String} {first second : List Stmt} {s : Stmt}

@[simp] theorem localsAll_nil : localsAll [] = [] := by rw [localsAll]

@[simp] theorem localsAll_cons (s : Stmt) (rest : List Stmt) :
    localsAll (s :: rest) = s.locals ++ localsAll rest := by rw [localsAll]

@[simp] theorem localsAll_append (first second : List Stmt) :
    localsAll (first ++ second) = localsAll first ++ localsAll second := by
  induction first with
  | nil => simp
  | cons s rest ih => simp [ih]

@[simp] theorem mentionsAll_nil : mentionsAll [] = [] := by rw [mentionsAll]

@[simp] theorem mentionsAll_cons (s : Stmt) (rest : List Stmt) :
    mentionsAll (s :: rest) = s.mentions ++ mentionsAll rest := by rw [mentionsAll]

@[simp] theorem mentionsAll_append (first second : List Stmt) :
    mentionsAll (first ++ second) = mentionsAll first ++ mentionsAll second := by
  induction first with
  | nil => simp
  | cons s rest ih => simp [ih]

@[simp] theorem declaredAll_nil : declaredAll [] = [] := rfl

@[simp] theorem declaredAll_cons (s : Stmt) (rest : List Stmt) :
    declaredAll (s :: rest) = s.declared ++ declaredAll rest := by
  rw [declaredAll, List.flatMap_cons, declaredAll]

@[simp] theorem declaredAll_append (first second : List Stmt) :
    declaredAll (first ++ second) = declaredAll first ++ declaredAll second := by
  rw [declaredAll, List.flatMap_append, declaredAll, declaredAll]

@[simp] theorem scopedAll_nil : ScopedAll around [] := by simp [ScopedAll]

@[simp] theorem scopedAll_cons {rest : List Stmt} :
    ScopedAll around (s :: rest) ↔ Scoped around s ∧ ScopedAll (around ++ s.declared) rest := by
  rw [ScopedAll]

theorem scopedAll_append :
    ScopedAll around (first ++ second) ↔
      ScopedAll around first ∧ ScopedAll (around ++ declaredAll first) second := by
  induction first generalizing around with
  | nil => simp
  | cons s rest ih => simp [ih, and_assoc]

@[simp] theorem spentAll_nil : SpentAll after [] := by simp [SpentAll]

@[simp] theorem spentAll_cons {rest : List Stmt} :
    SpentAll after (s :: rest) ↔
      s.declared ⊆ mentionsAll rest ++ after ∧ Spent s ∧ SpentAll after rest := by
  rw [SpentAll]

theorem SpentAll.mono {wider : List String} (spent : SpentAll after first) (wide : after ⊆ wider) :
    SpentAll wider first := by
  induction first with
  | nil => simp
  | cons s rest ih =>
    rw [spentAll_cons] at spent ⊢
    refine ⟨fun x member => ?_, spent.2.1, ih spent.2.2⟩
    rcases List.mem_append.mp (spent.1 member) with later | behind
    · exact List.mem_append_left _ later
    · exact List.mem_append_right _ (wide behind)

theorem SpentAll.append (left : SpentAll (mentionsAll second ++ after) first)
    (right : SpentAll after second) : SpentAll after (first ++ second) := by
  induction first with
  | nil => exact right
  | cons s rest ih =>
    rw [spentAll_cons] at left
    rw [List.cons_append, spentAll_cons, mentionsAll_append, List.append_assoc]
    exact ⟨left.1, left.2.1, ih left.2.2⟩

end

end Stmt

end ZigBindings.Zig
