import ZigBindings.Proofs.Crossing.Hollow

/-! Several values lifted or lowered one after another with nothing rolled in between. The order of
the operands is then right for one value, and for values without slots that read the same from both
ends. In all other cases such code cannot run to its end. -/

namespace ZigBindings.Tree
open Machine Instruction Crossing

theorem unrolled_balanced {fields : List Tree} {code : Tree → List Instruction}
    (each : ∀ t, Balanced (code t)) : Balanced (fields.map code).flatten := by
  induction fields with
  | nil => exact .nil
  | cons t rest ih => exact (each t).append ih

theorem run_unrolled {t : Tree} {rest : List Tree} {code : Tree → List Instruction}
    (each : ∀ t, Balanced (code t)) (scope : Outlook) (s : State) :
    run ((t :: rest).map code).flatten scope s =
      run (code t) scope s >>= run (rest.map code).flatten scope := by
  rw [List.map_cons, List.flatten_cons, run_append (each t) (unrolled_balanced each)]

variable {scope : Outlook} {fields : List Tree}

theorem run_lifts_units (unfolds : UnfoldsAll scope.arena fields) (none : slotsAll fields = [])
    (s : State) {values : List Value} (admits : AdmitsAll fields values) :
    run (fields.map lift).flatten scope s = .ok (s.pushAll (values.map .value)) := by
  induction fields generalizing s values with
  | nil =>
    cases values with
    | nil => rfl
    | cons v values => exact admits.elim
  | cons t rest ih =>
    cases values with
    | nil => exact admits.elim
    | cons v values =>
      obtain ⟨first, others⟩ := List.append_eq_nil_iff.mp none
      obtain ⟨u, unit⟩ := exists_unit first
      rw [run_unrolled lift_balanced, run_lift_unit unfolds.1 unit, ok_bind,
        ih unfolds.2 others _ admits.2, (unit.1 v).mp admits.1, List.map_cons, State.pushAll_cons]

theorem run_lifts (unfolds : UnfoldsAll scope.arena fields) {s : State} {slots : List Operand}
    {values : List Value} (admits : AdmitsAll fields values)
    (flats : FlatAll s.store.memory fields slots values)
    (few : fields.length ≤ 1 ∨ slotsAll fields = []) :
    run (fields.map lift).flatten scope (s.pushAll slots) = .ok (s.pushAll (values.map .value)) := by
  rcases few with single | none
  · match fields, values, unfolds, flats with
    | [], [], _, rfl => rfl
    | [t], [v], unfolds, ⟨first, others, same, flat, last⟩ =>
      cases last
      rw [List.append_nil] at same
      subst same
      have code : ([t].map lift).flatten = t.lift := by simp
      rw [code]
      exact t.lifts scope s unfolds.1 flat
    | t :: u :: rest, _, _, _ => simp at single
  · have types := congrArg List.length (flatAll_types flats)
    rw [none] at types
    have empty : slots = [] := by simpa using types
    subst empty
    exact run_lifts_units unfolds none s admits

theorem lifts_stuck_on (unfolds : UnfoldsAll scope.arena fields)
    (one : (slotsAll fields).length = 1) {s : State} {v : Value} {below : List Operand}
    (stack : s.operands = .value v :: below) (s' : State) :
    run (fields.map lift).flatten scope s ≠ .ok s' := by
  induction fields generalizing s v below with
  | nil => cases one
  | cons t rest ih =>
    simp only [slotsAll, List.length_append] at one
    rw [run_unrolled lift_balanced]
    rcases Nat.eq_zero_or_pos t.slots.length with none | some
    · obtain ⟨u, unit⟩ := exists_unit (List.eq_nil_of_length_eq_zero none)
      rw [run_lift_unit unfolds.1 unit, ok_bind]
      exact ih unfolds.2 (by omega) rfl
    · intro ran
      obtain ⟨middle, lifted, -⟩ := bind_eq_ok.mp ran
      exact lift_stuck unfolds.1 (by omega) stack middle lifted

theorem lifts_stuck_behind {t : Tree} {rest : List Tree}
    (unfolds : UnfoldsAll scope.arena (t :: rest)) (none : t.slots = [])
    (one : (slotsAll rest).length = 1) (s s' : State) :
    run ((t :: rest).map lift).flatten scope s ≠ .ok s' := by
  obtain ⟨u, unit⟩ := exists_unit none
  rw [run_unrolled lift_balanced, run_lift_unit unfolds.1 unit, ok_bind]
  exact lifts_stuck_on unfolds.2 one rfl s'

theorem pushAll_reverse_cons (s : State) (v : Value) (values : List Value) :
    s.pushAll ((v :: values).reverse.map .value) =
      (s.pushAll (values.reverse.map .value)).push (.value v) := by
  rw [List.reverse_cons, List.map_append, State.pushAll_append]
  rfl

theorem run_lowers_units (unfolds : UnfoldsAll scope.arena fields) (none : slotsAll fields = [])
    (s : State) {values : List Value} (admits : AdmitsAll fields values) :
    Reaches scope.allocator (AsksAll fields values)
      (run (fields.map lower).flatten scope (s.pushAll (values.reverse.map .value))) fun s' =>
      ∃ st, s' = s.withStore st ∧ Carried s.store st fun m => FlatAll m fields [] values := by
  induction fields generalizing s values with
  | nil =>
    cases values with
    | nil => exact ⟨s.store, rfl, .refl fun m => rfl⟩
    | cons v values => exact admits.elim
  | cons t rest ih =>
    cases values with
    | nil => exact admits.elim
    | cons v values =>
      obtain ⟨first, others⟩ := List.append_eq_nil_iff.mp none
      rw [run_unrolled lower_balanced, pushAll_reverse_cons]
      have lowered := t.lowers scope (s.pushAll (values.reverse.map .value)) unfolds.1 admits.1
      refine (lowered.widen fun size align => .inl).bind fun s' holds => ?_
      obtain ⟨slots, middle, result, carried⟩ := holds
      have empty : slots = [] := by
        have length := carried.kept.here.length
        rw [first] at length
        exact List.eq_nil_of_length_eq_zero length
      subst empty
      rw [result, State.pushAll_nil, State.pushAll_withStore]
      have behind := ih unfolds.2 others (s.withStore middle) admits.2
      refine (behind.widen fun size align => .inr).mono fun s' holds => ?_
      obtain ⟨st, result, also⟩ := holds
      refine ⟨st, result, (carried.trans also).changes, (carried.trans also).kept.imp
        fun m both => ⟨[], [], rfl, both.1, both.2⟩⟩

theorem run_lowers (unfolds : UnfoldsAll scope.arena fields) (s : State) {values : List Value}
    (admits : AdmitsAll fields values)
    (few : fields.length ≤ 1 ∨ slotsAll fields = [] ∧ values.reverse = values) :
    Reaches scope.allocator (AsksAll fields values)
      (run (fields.map lower).flatten scope (s.pushAll (values.map .value))) fun s' =>
      ∃ slots st, s' = (s.withStore st).pushAll slots ∧
        Carried s.store st fun m => FlatAll m fields slots values := by
  rcases few with single | ⟨none, same⟩
  · match fields, values, unfolds, admits with
    | [], [], _, _ => exact ⟨[], s.store, rfl, .refl fun m => rfl⟩
    | [t], [v], unfolds, admits =>
      have code : ([t].map lower).flatten = t.lower := by simp
      rw [code]
      have lowered := t.lowers scope s unfolds.1 admits.1
      refine (lowered.widen fun size align => .inl).mono fun s' holds => ?_
      obtain ⟨slots, st, result, carried⟩ := holds
      exact ⟨slots, st, result, carried.changes, carried.kept.imp fun m flat =>
        ⟨slots, [], by simp, flat, rfl⟩⟩
    | t :: u :: rest, _, _, _ => simp at single
  · have reached := run_lowers_units unfolds none s admits
    rw [same] at reached
    exact reached.mono fun s' left => ⟨[], left⟩

/-- Results without slots can be lowered only if they are right in the opposite order as well. -/
theorem lowers_units_ok (unfolds : UnfoldsAll scope.arena fields) {s s' : State}
    {values : List Value} (hollow : ∀ v ∈ values, v.Hollow) (count : values.length = fields.length)
    (ran : run (fields.map lower).flatten scope (s.pushAll (values.reverse.map .value)) = .ok s') :
    AdmitsAll fields values := by
  induction fields generalizing s values with
  | nil =>
    cases values with
    | nil => trivial
    | cons v values => cases count
  | cons t rest ih =>
    cases values with
    | nil => cases count
    | cons v values =>
      rw [run_unrolled lower_balanced, pushAll_reverse_cons] at ran
      obtain ⟨middle, first, ran⟩ := bind_eq_ok.mp ran
      obtain ⟨-, admits, rfl⟩ := lower_hollow unfolds.1 (hollow v (by simp)) first
      exact ⟨admits, ih unfolds.2 (fun u member => hollow u (by simp [member]))
        (by simpa using count) ran⟩

theorem lowers_stuck {t : Tree} {rest : List Tree} (unfolds : UnfoldsAll scope.arena (t :: rest))
    (some : t.slots ≠ []) {s s' : State} {v : Value} {values : List Value} (hollow : v.Hollow) :
    run ((t :: rest).map lower).flatten scope (s.pushAll ((values ++ [v]).map .value)) ≠ .ok s' := by
  rw [run_unrolled lower_balanced, List.map_append, State.pushAll_append]
  intro ran
  obtain ⟨middle, first, -⟩ := bind_eq_ok.mp ran
  exact some (lower_hollow unfolds.1 hollow first).1

/-- Several results with one slot in all are not lowered, or what is lowered is not lifted. -/
theorem one_slot_stuck {sender receiver : Outlook} (sent : UnfoldsAll sender.arena fields)
    (received : UnfoldsAll receiver.arena fields) (one : (slotsAll fields).length = 1)
    (several : 1 < fields.length) {values : List Value} (admits : AdmitsAll fields values)
    {s s' : State}
    (lowered : run (fields.map lower).flatten sender (s.pushAll (values.map .value)) = .ok s')
    (u u' : State) : run (fields.map lift).flatten receiver u ≠ .ok u' := by
  match fields, values, admits with
  | [], _, _ => cases one
  | t :: rest, [], admits => exact admits.elim
  | t :: rest, v :: values, admits =>
    simp only [slotsAll, List.length_append] at one
    rcases Nat.eq_zero_or_pos t.slots.length with first | slot
    · have none : t.slots = [] := List.eq_nil_of_length_eq_zero first
      exact lifts_stuck_behind received none (by omega) u u'
    · have others : slotsAll rest = [] := List.eq_nil_of_length_eq_zero (by omega)
      have count := admitsAll_length admits.2
      have more : values ≠ [] := by
        rintro rfl
        simp only [List.length_cons, List.length_nil] at several count
        omega
      obtain ⟨below, top, rfl⟩ : ∃ below top, values = below ++ [top] :=
        ⟨_, _, (List.dropLast_append_getLast more).symm⟩
      obtain ⟨field, inside, admits⟩ := exists_field_of_admits admits.2
        (List.mem_append_right below (List.mem_singleton_self top))
      have hollow := hollow_of_admits (slotsAll_nil.mp others field inside) admits
      have some : t.slots ≠ [] := List.ne_nil_of_length_pos slot
      rw [← List.cons_append] at lowered
      exact absurd lowered (lowers_stuck sent some hollow)

end ZigBindings.Tree
