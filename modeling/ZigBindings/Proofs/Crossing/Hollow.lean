import ZigBindings.Proofs.Crossing.Lowering

/-! Types without slots. They have one value, made of nothing but tuples and records, and code for
any other type cannot use it; nor can code for a type with one slot use any value at all. -/

namespace ZigBindings
open Machine Instruction Crossing

/-- The value carries no information: it is made of tuples and records only. -/
inductive Machine.Value.Hollow : Value → Prop where
  | product {form : Form} {items : List Value} (each : ∀ item ∈ items, item.Hollow) :
    Hollow (.product form items)

namespace Tree

theorem slotsAll_nil {fields : List Tree} :
    slotsAll fields = [] ↔ ∀ field ∈ fields, field.slots = [] := by
  induction fields with
  | nil => simp [slotsAll]
  | cons t rest ih => simp [slotsAll, ih]

theorem exists_field_of_admits {fields : List Tree} {items : List Value}
    (admits : AdmitsAll fields items) {item : Value} (member : item ∈ items) :
    ∃ field ∈ fields, field.Admits item := by
  induction fields generalizing items with
  | nil =>
    cases items with
    | nil => cases member
    | cons v items => exact admits.elim
  | cons t rest ih =>
    cases items with
    | nil => cases member
    | cons v items =>
      rcases List.mem_cons.mp member with rfl | later
      · exact ⟨t, by simp, admits.1⟩
      · obtain ⟨field, inside, also⟩ := ih admits.2 later
        exact ⟨field, by simp [inside], also⟩

theorem hollow_of_admits {t : Tree} (none : t.slots = []) {v : Value} (admits : t.Admits v) :
    v.Hollow := by
  induction t generalizing v with
  | prim p => cases p <;> cases none
  | product form id fields offsets extent ih =>
    cases v with
    | product found items =>
      refine .product fun item member => ?_
      obtain ⟨field, inside, also⟩ := exists_field_of_admits admits.2 member
      exact ih field inside (slotsAll_nil.mp none field inside) also
    | _ => exact admits.elim
  | synonym id target ih => exact ih none admits
  | _ => cases none

/-- The only value of a type without slots, which stands in no slots. -/
def IsUnit (t : Tree) (u : Value) : Prop :=
  (∀ v, t.Admits v ↔ v = u) ∧ ∀ m, t.Flat m [] u

private theorem exists_units {fields : List Tree}
    (each : ∀ field ∈ fields, ∃ u, field.IsUnit u) :
    ∃ us, (∀ vs, AdmitsAll fields vs ↔ vs = us) ∧ ∀ m, FlatAll m fields [] us := by
  induction fields with
  | nil => exact ⟨[], fun vs => by cases vs <;> simp [AdmitsAll], fun m => rfl⟩
  | cons t rest ih =>
    obtain ⟨u, admits, flat⟩ := each t (by simp)
    obtain ⟨us, all, flats⟩ := ih fun field member => each field (by simp [member])
    refine ⟨u :: us, fun vs => ?_, fun m => ⟨[], [], rfl, flat m, flats m⟩⟩
    cases vs with
    | nil => simp [AdmitsAll]
    | cons v vs => simp [AdmitsAll, admits, all]

theorem exists_unit {t : Tree} (none : t.slots = []) : ∃ u, t.IsUnit u := by
  induction t with
  | prim p => cases p <;> cases none
  | product form id fields offsets extent ih =>
    obtain ⟨us, all, flats⟩ := exists_units fun field member =>
      ih field member (slotsAll_nil.mp none field member)
    refine ⟨.product form us, fun v => ?_, fun m => ⟨rfl, flats m⟩⟩
    cases v <;> simp [Admits, all]
  | synonym id target ih => exact ih none
  | _ => cases none

theorem admitsAll_unique {fields : List Tree} (none : slotsAll fields = []) {values others : List Value}
    (admits : AdmitsAll fields values) (also : AdmitsAll fields others) : values = others := by
  obtain ⟨us, all, -⟩ := exists_units fun field member =>
    exists_unit (slotsAll_nil.mp none field member)
  rw [(all values).mp admits, (all others).mp also]

variable {scope : Outlook}

private theorem lowers_hollow {fields : List Tree}
    (each : ∀ field ∈ fields, ∀ (s s' : State) (v : Value), v.Hollow →
      run field.lower scope (s.push (.value v)) = .ok s' →
      field.slots = [] ∧ field.Admits v ∧ s' = s)
    {s s' : State} {items : List Value} (hollow : ∀ item ∈ items, item.Hollow)
    (count : items.length = fields.length)
    (ran : run (lowerAll 0 fields) scope (s.pushAll (items.map .value)) = .ok s') :
    slotsAll fields = [] ∧ AdmitsAll fields items ∧ s' = s := by
  induction fields generalizing items s s' with
  | nil =>
    cases items with
    | nil =>
      cases ran
      exact ⟨rfl, trivial, rfl⟩
    | cons v items => cases count
  | cons t rest ih =>
    cases items with
    | nil => cases count
    | cons v items =>
      have stack : (s.pushAll ((v :: items).map .value)).operands =
          (items.map Operand.value).reverse ++ .value v :: s.operands := by
        simp [State.pushAll_operands]
      have depth : rest.length + 0 = (items.map Operand.value).reverse.length := by
        simpa using count.symm
      have rolled := run_rollTo scope stack
      rw [← depth] at rolled
      have stacked : ({ s.pushAll ((v :: items).map .value) with
          operands := Operand.value v :: ((items.map Operand.value).reverse ++ s.operands) } : State) =
          (s.pushAll (items.map .value)).push (.value v) := by
        simp [State.pushAll, State.push]
      rw [lowerAll, List.append_assoc, run_append (rollTo_piece iterBasePointer _).balanced
        (t.lower_balanced.append (lowerAll_balanced rest _)), rolled, ok_bind, stacked,
        run_append t.lower_balanced (lowerAll_balanced rest _)] at ran
      obtain ⟨middle, first, ran⟩ := bind_eq_ok.mp ran
      obtain ⟨none, admits, rfl⟩ := each t (by simp) _ _ _ (hollow v (by simp)) first
      rw [none] at ran
      obtain ⟨others, all, rfl⟩ := ih (fun field member => each field (by simp [member]))
        (fun item member => hollow item (by simp [member])) (by simpa using count) ran
      exact ⟨by simp [slotsAll, none, others], ⟨admits, all⟩, rfl⟩

/-! A product is not lowered by code for anything else. -/

section
variable {s s' : State} {form : Form} {items : List Value}

theorem lower_prim_stuck (p : Primitive) :
    run (prim p).lower scope (s.push (.value (.product form items))) ≠ .ok s' := by
  intro ran
  by_cases text : p = .string
  · subst text
    rw [lower, run_single rfl] at ran
    obtain ⟨popped, taken, ran⟩ := bind_eq_ok.mp ran
    rw [State.popValue_push] at taken
    cases taken
    cases ran
  · have code : (prim p).lower = [.numericWiden p p.slot] := by
      cases p <;> first | rfl | exact absurd rfl text
    rw [code, run_single rfl] at ran
    obtain ⟨_, -, ran⟩ := bind_eq_ok.mp ran
    obtain ⟨popped, taken, ran⟩ := bind_eq_ok.mp ran
    rw [State.popValue_push] at taken
    cases taken
    cases ran

theorem lower_enumeration_stuck (id count : Nat) (extent : Layout.Extent) :
    run (enumeration id count extent).lower scope (s.push (.value (.product form items))) ≠ .ok s' := by
  intro ran
  rw [lower, run_single rfl] at ran
  obtain ⟨_, -, ran⟩ := bind_eq_ok.mp ran
  obtain ⟨popped, taken, ran⟩ := bind_eq_ok.mp ran
  rw [State.popValue_push] at taken
  cases taken
  cases ran

theorem lower_list_stuck (id : Nat) (element : Tree) :
    run (list id element).lower scope (s.push (.value (.product form items))) ≠ .ok s' := by
  intro ran
  by_cases canonical : element.isCanonical = true
  · rw [lower, lowerList, if_pos canonical, run_single rfl] at ran
    obtain ⟨access, -, ran⟩ := bind_eq_ok.mp ran
    cases ran
  · rw [lower, run_lowerLoop canonical
      (element.write_piece iterBasePointer_addresses 0).balanced] at ran
    cases ran

end

private theorem lower_product_hollow {form found : Form} {id : Nat} {fields : List Tree}
    {offsets : List Nat} {extent : Layout.Extent}
    (unfolds : (product form id fields offsets extent).Unfolds scope.arena)
    (lowers : ∀ field ∈ fields, ∀ (s s' : State) (v : Value), v.Hollow →
      run field.lower scope (s.push (.value v)) = .ok s' →
      field.slots = [] ∧ field.Admits v ∧ s' = s)
    {s s' : State} {items : List Value} (each : ∀ item ∈ items, item.Hollow)
    (ran : run (product form id fields offsets extent).lower scope
      (s.push (.value (.product found items))) = .ok s') :
    slotsAll fields = [] ∧ (found = form ∧ AdmitsAll fields items) ∧ s' = s := by
  have plain := lowering_bracket form id fields.length
  have lowered : step scope (s.push (.value (.product found items)))
      (form.lowering id fields.length) =
      productLower (s.push (.value (.product found items))) form fields.length := by
    cases form with
    | tuple => rfl
    | record =>
      simp only [Form.lowering, step, recordArity_of_mirrors unfolds, ok_bind]
  rw [lower, run_cons plain (lowerAll_balanced fields 0), lowered] at ran
  simp only [productLower, State.popValue_push, ok_bind, Machine.items] at ran
  split at ran
  · rename_i same
    obtain ⟨rfl, count⟩ := same
    obtain ⟨none, admits, rfl⟩ := lowers_hollow lowers each count ran
    exact ⟨none, ⟨rfl, admits⟩, rfl⟩
  · cases ran

/-- Code that lowers a value without information is code for the only type that has the value. -/
theorem lower_hollow {t : Tree} (unfolds : t.Unfolds scope.arena) {s s' : State} {v : Value}
    (hollow : v.Hollow) (ran : run t.lower scope (s.push (.value v)) = .ok s') :
    t.slots = [] ∧ t.Admits v ∧ s' = s := by
  obtain @⟨found, items, each⟩ := hollow
  induction t generalizing s s' found items with
  | prim p => exact absurd ran (lower_prim_stuck p)
  | product form id fields offsets extent ih =>
    refine lower_product_hollow unfolds (fun field member s s' v hollow ran => ?_) each ran
    obtain @⟨found, items, each⟩ := hollow
    exact ih field member (mirrorsAll_iff.mp unfolds.2.2 field member) each ran
  | enumeration id count extent => exact absurd ran (lower_enumeration_stuck id count extent)
  | option id payload start extent ih =>
    rw [run_lower_option] at ran
    cases ran
  | list id element ih => exact absurd ran (lower_list_stuck id element)
  | synonym id target ih => exact ih unfolds.2 each ran

theorem run_lift_unit {t : Tree} (unfolds : t.Unfolds scope.arena) {u : Value} (unit : t.IsUnit u)
    (s : State) : run t.lift scope s = .ok (s.push (.value u)) :=
  t.lifts scope s unfolds (unit.2 s.store.memory)

private theorem lifts_stuck {fields : List Tree}
    (each : ∀ field ∈ fields, ∀ (s : State) (v : Value) (below : List Operand),
      field.slots.length = 1 → s.operands = .value v :: below →
      ∀ s', run field.lift scope s ≠ .ok s')
    (unfolds : UnfoldsAll scope.arena fields) (one : (slotsAll fields).length = 1) {s s' : State}
    {v : Value} (above : List Operand) {below : List Operand} (stack : s.operands = above ++ .value v :: below) :
    run (liftAll above.length fields) scope s ≠ .ok s' := by
  induction fields generalizing above s with
  | nil => cases one
  | cons t rest ih =>
    simp only [slotsAll, List.length_append] at one
    rw [liftAll, List.append_assoc,
      run_append (rolls_balanced _ _) (t.lift_balanced.append (liftAll_balanced rest _))]
    rcases Nat.eq_zero_or_pos t.slots.length with none | some
    · obtain ⟨u, unit⟩ := exists_unit (List.eq_nil_of_length_eq_zero none)
      rw [none, List.replicate_zero, List.flatten_nil, run_nil, ok_bind,
        run_append t.lift_balanced (liftAll_balanced rest _), run_lift_unit unfolds.1 unit, ok_bind]
      exact ih (fun field member => each field (by simp [member])) unfolds.2 (by omega)
        (.value u :: above) (by simp [stack])
    · have first : t.slots.length = 1 := by omega
      have others : (slotsAll rest).length = 0 := by omega
      have depth : t.slots.length + (slotsAll rest).length - 1 + above.length = above.length := by
        omega
      rw [depth, first, List.replicate_one, List.flatten_singleton, run_rollTo scope stack, ok_bind,
        run_append t.lift_balanced (liftAll_balanced rest _)]
      intro ran
      obtain ⟨middle, lifted, -⟩ := bind_eq_ok.mp ran
      exact each t (by simp) _ v _ first rfl middle lifted

/-- Code that lifts one slot cannot start on a value. -/
theorem lift_stuck {t : Tree} (unfolds : t.Unfolds scope.arena) (one : t.slots.length = 1)
    {s : State} {v : Value} {below : List Operand} (stack : s.operands = .value v :: below)
    (s' : State) : run t.lift scope s ≠ .ok s' := by
  have unpopped : ∀ type, s.popSlot type = .error .stuck := fun type => by
    simp [State.popSlot, stack]
  induction t generalizing s v below s' with
  | prim p =>
    by_cases text : p = .string
    · subst text
      cases one
    · have code : (prim p).lift = [.numericNarrow p.slot p] := by
        cases p <;> first | rfl | exact absurd rfl text
      rw [code, run_single rfl]
      intro ran
      obtain ⟨_, -, ran⟩ := bind_eq_ok.mp ran
      rw [unpopped] at ran
      cases ran
  | product form id fields offsets extent ih =>
    intro ran
    rw [lift, run_append (liftAll_balanced fields 0)
      (.plain (lifting_bracket form id fields.length) .nil)] at ran
    obtain ⟨middle, lifted, -⟩ := bind_eq_ok.mp ran
    refine lifts_stuck (fun field member s v below one stack s' => ?_) unfolds.2.2 one [] stack
      lifted
    exact ih field member (mirrorsAll_iff.mp unfolds.2.2 field member) one stack s'
      fun type => by simp [State.popSlot, stack]
  | enumeration id count extent =>
    rw [lift, run_single rfl]
    intro ran
    obtain ⟨_, -, ran⟩ := bind_eq_ok.mp ran
    rw [unpopped] at ran
    cases ran
  | option id payload start extent ih =>
    have none : payload.slots.length = ([] : List Operand).length := by simpa [slots] using one
    intro ran
    rw [← State.pushAll_nil s, run_lift_option none] at ran
    have popped : step scope ((s.withBlock (blockOf false [] [] 0)).withBlock
        (blockOf false [] payload.lift 1)) (.optionLift payload.type) = .error .stuck := by
      simp only [step, Machine.optionLift, State.popBlock_withBlock, ok_bind, unpopped, error_bind]
    rw [popped] at ran
    cases ran
  | list id element ih => cases one
  | synonym id target ih => exact ih unfolds.2 one stack s' unpopped

end Tree

end ZigBindings
