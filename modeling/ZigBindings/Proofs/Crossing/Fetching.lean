import ZigBindings.Proofs.Crossing.Weave

/-! Whole sequences are woven, and each fetches all of its arguments outside all blocks. -/

namespace ZigBindings.Crossing
open Instruction

variable {a : Arena} {firm options : Prop} {area : Instruction}

/-- The code is woven and fetches the arguments from `nth` on, up to but without `stop`. -/
def Fetches (firm options : Prop) (nth stop : Nat) (code : List Instruction) : Prop :=
  Woven firm options code ∧ ∀ k, nth ≤ k → k < stop → Touches firm options (getArg k) code

namespace Fetches

variable {nth middle stop : Nat} {first second : List Instruction}

theorem of_woven (woven : Woven firm options first) : Fetches firm options nth nth first :=
  ⟨woven, fun _ low high => absurd high (Nat.not_lt.mpr low)⟩

theorem single (nth : Nat) : Fetches firm options nth (nth + 1) [getArg nth] := by
  refine ⟨.plain trivial, fun k low high => ?_⟩
  obtain rfl : k = nth := by omega
  exact .single

theorem append (left : Fetches firm options nth middle first)
    (right : Fetches firm options middle stop second) :
    Fetches firm options nth stop (first ++ second) := by
  refine ⟨left.1.append right.1, fun k low high => ?_⟩
  rcases Nat.lt_or_ge k middle with below | above
  · exact (left.2 k low below).left right.1
  · exact .right left.1 (right.2 k above high)

end Fetches

theorem lowerArguments_fetches {types : List Ty} (passable : ∀ ty ∈ types, Passable a ty)
    (lets : ∀ ty ∈ types, a.Lets options ty) (nth : Nat) :
    Ensures (lowerArguments a nth types) (Fetches firm options nth (nth + types.length)) := by
  induction types generalizing nth with
  | nil => exact .pure (.of_woven .nil)
  | cons ty rest ih =>
    refine (lowerWithin_woven (passable ty (by simp)) (lets ty (by simp))).bind fun part
      (woven : Woven firm options part) => ?_
    refine (ih (fun other member => passable other (by simp [member]))
      (fun other member => lets other (by simp [member])) (nth + 1)).bind fun parts others => .pure ?_
    rw [List.length_cons, Nat.add_comm rest.length, ← Nat.add_assoc]
    exact ((Fetches.single nth).append (.of_woven woven)).append others

theorem writeArguments_fetches {fields : List (Ty × Nat)} (points : Woven firm options [area])
    (passable : ∀ field ∈ fields, Passable a field.1)
    (lets : ∀ field ∈ fields, a.Lets options field.1) (nth : Nat) :
    Ensures (writeArguments a area nth fields) (Fetches firm options nth (nth + fields.length)) := by
  induction fields generalizing nth with
  | nil => exact .pure (.of_woven .nil)
  | cons field rest ih =>
    refine (writeWithin_woven (passable field (by simp)) (lets field (by simp)) points).bind
      fun part
      (woven : Woven firm options part) => ?_
    refine (ih (fun other member => passable other (by simp [member]))
      (fun other member => lets other (by simp [member])) (nth + 1)).bind fun parts others => .pure ?_
    rw [List.length_cons, Nat.add_comm rest.length, ← Nat.add_assoc]
    exact ((Fetches.single nth).append (.of_woven woven)).append others

theorem getArgs_fetches (nth count : Nat) :
    Fetches firm options nth (nth + count) ((List.range' nth count).map getArg) := by
  induction count generalizing nth with
  | zero => exact .of_woven .nil
  | succ count ih =>
    rw [List.range'_succ, List.map_cons, Nat.add_comm count, ← Nat.add_assoc]
    exact (Fetches.single nth).append (ih (nth + 1))

theorem liftArguments_fetches {types : List Ty} (passable : ∀ ty ∈ types, Passable a ty)
    (fills : ∀ ty ∈ types, a.Fills firm ty) (nth : Nat) :
    Ensures (liftArguments a nth types) (Fetches firm options nth (nth + (a.row types).length)) := by
  induction types generalizing nth with
  | nil => exact .pure (.of_woven .nil)
  | cons ty rest ih =>
    rw [liftArguments, (passable ty (by simp)).flatten_eq, ok_bind]
    refine (liftWithin_woven (passable ty (by simp)) (fills ty (by simp))).bind fun part
      (woven : Woven firm options part) => ?_
    refine (ih (fun other member => passable other (by simp [member]))
      (fun other member => fills other (by simp [member])) _).bind fun parts others => .pure ?_
    rw [length_row_cons, ← Nat.add_assoc]
    exact ((getArgs_fetches nth _).append (.of_woven woven)).append others

theorem readAll_moves {types : List Ty} (passable : ∀ ty ∈ types, Passable a ty)
    (fills : ∀ ty ∈ types, a.Fills firm ty) (points : Woven firm options [area]) :
    Ensures (readAll a area types) (Moves a firm options area types) :=
  readFields_moves fun ty member _ =>
    readWithin_moves (passable ty member) (fills ty member) points

theorem passOut_fetches {types : List Ty} (passable : ∀ ty ∈ types, Passable a ty)
    (lets : ∀ ty ∈ types, a.Lets options ty) (indirect : Bool) :
    Ensures (passOut a indirect types) (Fetches firm options 0 types.length) := by
  cases indirect with
  | false =>
    refine (lowerArguments_fetches passable lets 0).mono fun code
      (fetched : Fetches firm options _ _ code) => ?_
    rwa [Nat.zero_add] at fetched
  | true =>
    refine .bind_any fun extent => (Layout.fieldOffsets_length a types).bind fun offsets length => ?_
    have points : Woven firm options [paramPointer extent.size extent.align] := .plain trivial
    refine (writeArguments_fetches points
      (fun field inside => passable _ (List.of_mem_zip inside).1)
      (fun field inside => lets _ (List.of_mem_zip inside).1) 0).bind fun parts
        (fetched : Fetches firm options _ _ parts) => .pure ?_
    rw [List.length_zip, length, Nat.min_self, Nat.zero_add] at fetched
    exact fetched.append (.of_woven points)

theorem mapM_woven {convert : Converter} {types : List Ty}
    (each : ∀ ty ∈ types, Ensures (convert ty) (Woven firm options)) :
    Ensures (types.mapM convert) fun parts => Woven firm options parts.flatten := by
  have converted := Ensures.mapM_all each
  exact converted.mono fun parts woven => .flatten woven

def lifted (f : Function) : Direction → List Ty
  | .outward => f.results.types
  | .inward => f.params.map (·.2)

/-- Types of a function in one direction, and what is asked of them for its code to be woven. Inward,
lists among the parameters have elements with slots where code is firm; outward there are none. -/
structure Weaves (a : Arena) (firm options : Prop) (direction : Direction) (f : Function) : Prop where
  passable : ∀ ty ∈ f.params.map (·.2) ++ f.results.types, Passable a ty
  lets : ∀ ty ∈ f.params.map (·.2) ++ f.results.types, a.Lets options ty
  fills : ∀ ty ∈ lifted f direction, a.Fills firm ty

def paramCount (sig : Signature) (f : Function) : Direction → Nat
  | .outward => f.params.length
  | .inward => sig.params.length

theorem outward_fetches {f : Function} (weaves : Weaves a firm options .outward f) :
    Ensures (outward a f) (Fetches firm options 0 f.params.length) := by
  have passable := List.forall_mem_append.mp weaves.passable
  have lets := List.forall_mem_append.mp weaves.lets
  have returned : Woven firm options [ret f.results.types.length] := .plain trivial
  refine .bind_any fun sig => ?_
  refine (passOut_fetches passable.1 lets.1 sig.indirectParams).bind
    fun arguments (fetched : Fetches firm options _ _ arguments) => ?_
  rw [List.length_map] at fetched
  split
  · refine .bind_any fun extent => ?_
    have points : Woven firm options [returnPointer extent.size extent.align] := .plain trivial
    refine (readAll_moves passable.2 weaves.fills points).bind fun lifted moves => .pure ?_
    have called : Woven firm options [returnPointer extent.size extent.align, callWasm f.name sig] :=
      points.append (.plain trivial)
    exact ((fetched.append (.of_woven called)).append (.of_woven moves.1)).append (.of_woven returned)
  · have called : Woven firm options [callWasm f.name sig] := .plain trivial
    have lifts : ∀ ty ∈ f.results.types, Ensures (lift a ty) (Woven firm options) :=
      fun ty member => liftWithin_woven (passable.2 ty member) (weaves.fills ty member)
    refine (mapM_woven lifts).bind fun parts woven => .pure ?_
    exact ((fetched.append (.of_woven called)).append (.of_woven woven)).append (.of_woven returned)

theorem signature_params {f : Function} (passable : ∀ ty ∈ f.params.map (·.2), Passable a ty)
    {sig : Signature} (signed : signature a .inward f = .ok sig) :
    (sig.indirectParams = false → sig.params.length = (a.row (f.params.map (·.2))).length) ∧
      (sig.indirectParams = true → sig.params.length = 1 ∧ a.row (f.params.map (·.2)) ≠ []) := by
  simp only [signature, flattenAll_eq passable, ok_bind, bind_eq_ok] at signed
  obtain ⟨results, _, signed⟩ := signed
  have split : sig.params = (if decide (maxFlatParams < (a.row (f.params.map (·.2))).length) = true
      then [.i32] else a.row (f.params.map (·.2))) ∧
      sig.indirectParams = decide (maxFlatParams < (a.row (f.params.map (·.2))).length) := by
    split at signed <;> cases signed <;> exact ⟨rfl, rfl⟩
  rw [split.1, split.2]
  refine ⟨fun few => by rw [if_neg (by rw [few]; decide)], fun many => ⟨by rw [if_pos many]; rfl, ?_⟩⟩
  intro none
  rw [none] at many
  exact absurd many (by decide)

theorem inward_fetches {f : Function} (weaves : Weaves a firm options .inward f) {sig : Signature}
    (signed : signature a .inward f = .ok sig) :
    Ensures (inward a f) (Fetches firm options 0 sig.params.length) := by
  have passable := List.forall_mem_append.mp weaves.passable
  have lets := List.forall_mem_append.mp weaves.lets
  obtain ⟨direct, indirect⟩ := signature_params passable.1 signed
  have arguments : Ensures (if sig.indirectParams then readAll a (getArg 0) (f.params.map (·.2))
      else liftArguments a 0 (f.params.map (·.2))) (Fetches firm options 0 sig.params.length) := by
    cases pointer : sig.indirectParams with
    | false =>
      refine (liftArguments_fetches passable.1 weaves.fills 0).mono fun code
        (fetched : Fetches firm options _ _ code) => ?_
      rwa [Nat.zero_add, ← direct pointer] at fetched
    | true =>
      obtain ⟨one, some⟩ := indirect pointer
      have points : Woven firm options [getArg 0] := .plain trivial
      refine (readAll_moves passable.1 weaves.fills points).mono fun code
        (moves : Moves a firm options _ _ code) => ⟨moves.1, fun k low high => ?_⟩
      obtain rfl : k = 0 := by omega
      exact moves.2 some
  have lowered : ∀ ty ∈ f.results.types, Ensures (lower a ty) (Woven firm options) :=
    fun ty member => lowerWithin_woven (passable.2 ty member) (lets.2 ty member)
  have called : Woven firm options [callInterface f] := .plain trivial
  have answered : ∀ code, Fetches firm options 0 sig.params.length code → Ensures (do
      if sig.returnPointer then
        let extent ← Layout.recordLayout a f.results.types
        let stored ← writeFields a (write a) f.results.types
          (returnPointer extent.size extent.align) 0
        pure (code ++ [callInterface f] ++ stored ++ [returnPointer extent.size extent.align, ret 1])
      else
        let parts ← f.results.types.mapM (lower a)
        pure (code ++ [callInterface f] ++ parts.flatten ++ [ret sig.results.length]))
      (Fetches firm options 0 sig.params.length) := fun code fetched => by
    split
    · refine .bind_any fun extent => ?_
      have points : Woven firm options [returnPointer extent.size extent.align] := .plain trivial
      refine (writeFields_woven fun ty member o => writeWithin_woven (passable.2 ty member)
        (lets.2 ty member) points).bind fun stored (woven : Woven firm options stored) => .pure ?_
      have returned : Woven firm options [returnPointer extent.size extent.align, ret 1] :=
        points.append (.plain trivial)
      exact ((fetched.append (.of_woven called)).append (.of_woven woven)).append (.of_woven returned)
    · have returned : Woven firm options [ret sig.results.length] := .plain trivial
      refine (mapM_woven lowered).bind fun parts woven => .pure ?_
      exact ((fetched.append (.of_woven called)).append (.of_woven woven)).append (.of_woven returned)
  simp only [inward, signed, ok_bind]
  split
  case isTrue pointer =>
    rw [if_pos pointer] at arguments
    exact arguments.bind answered
  case isFalse slots =>
    rw [if_neg slots] at arguments
    exact arguments.bind answered

theorem sequence_fetches {f : Function} {direction : Direction}
    (weaves : Weaves a firm options direction f) {sig : Signature}
    (signed : signature a direction f = .ok sig) :
    Ensures (sequence a direction f) (Fetches firm options 0 (paramCount sig f direction)) := by
  cases direction with
  | outward => exact outward_fetches weaves
  | inward => exact inward_fetches weaves signed

end ZigBindings.Crossing
