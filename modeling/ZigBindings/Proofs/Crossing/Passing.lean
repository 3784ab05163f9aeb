import ZigBindings.Proofs.Crossing.Lowering
import ZigBindings.Proofs.Types.Group

/-! Values side by side, passed on in slots of their own or through one area of memory. -/

namespace ZigBindings.Tree
open Machine Instruction Crossing

def passAll (nth : Nat) : List Tree → List Instruction
  | [] => []
  | t :: rest => getArg nth :: t.lower ++ passAll (nth + 1) rest

def storeAll (area : Instruction) (nth : Nat) : List Tree → List Nat → List Instruction
  | t :: rest, o :: offsets => getArg nth :: t.write area o ++ storeAll area (nth + 1) rest offsets
  | _, _ => []

def receiveAll (nth : Nat) : List Tree → List Instruction
  | [] => []
  | t :: rest =>
    (List.range' nth t.slots.length).map getArg ++ t.lift ++ receiveAll (nth + t.slots.length) rest

section
variable {a : Arena}

theorem lowerArguments_eq {fields : List Tree} (unfolds : UnfoldsAll a fields) (nth : Nat) :
    lowerArguments a nth (fields.map type) = .ok (passAll nth fields) := by
  induction fields generalizing nth with
  | nil => rfl
  | cons t rest ih =>
    simp only [List.map_cons, lowerArguments, lower_eq unfolds.1, ih unfolds.2, ok_bind, passAll,
      pure_eq_ok]

theorem writeArguments_eq {fields : List Tree} (unfolds : UnfoldsAll a fields) (area : Instruction)
    (nth : Nat) (offsets : List Nat) :
    writeArguments a area nth ((fields.map type).zip offsets) =
      .ok (storeAll area nth fields offsets) := by
  induction fields generalizing nth offsets with
  | nil => simp [writeArguments, storeAll, pure_eq_ok]
  | cons t rest ih =>
    cases offsets with
    | nil => simp [writeArguments, storeAll, pure_eq_ok]
    | cons o offsets =>
      simp only [List.map_cons, List.zip_cons_cons, writeArguments, write_eq unfolds.1,
        ih unfolds.2, ok_bind, storeAll, pure_eq_ok]

theorem liftArguments_eq {fields : List Tree} (unfolds : UnfoldsAll a fields) (nth : Nat) :
    liftArguments a nth (fields.map type) = .ok (receiveAll nth fields) := by
  induction fields generalizing nth with
  | nil => rfl
  | cons t rest ih =>
    simp only [List.map_cons, liftArguments, flatten_slots unfolds.1, lift_eq unfolds.1,
      ih unfolds.2, ok_bind, receiveAll, pure_eq_ok]

end

theorem passAll_piece (address : Instruction) (fields : List Tree) (nth : Nat) :
    Piece address (passAll nth fields) := by
  induction fields generalizing nth with
  | nil => exact .nil
  | cons t rest ih =>
    have fetch : Piece address [getArg nth] := .of_plain rfl
    exact (fetch.append (t.lower_piece address)).append (ih (nth + 1))

theorem storeAll_piece {area : Instruction} (addresses : Addresses area) (fields : List Tree)
    (offsets : List Nat) (nth : Nat) : Piece area (storeAll area nth fields offsets) := by
  induction fields generalizing nth offsets with
  | nil => exact .nil
  | cons t rest ih =>
    cases offsets with
    | nil => exact .nil
    | cons o offsets =>
      have fetch : Piece area [getArg nth] := .of_plain rfl
      exact (fetch.append (t.write_piece addresses o)).append (ih offsets (nth + 1))

theorem fetch_piece (address : Instruction) (nth count : Nat) :
    Piece address ((List.range' nth count).map getArg) := by
  apply Piece.of_simple
  intro inst member
  obtain ⟨n, -, rfl⟩ := List.mem_map.mp member
  exact Instruction.simple_of_plain rfl

theorem receiveAll_piece (address : Instruction) (fields : List Tree) (nth : Nat) :
    Piece address (receiveAll nth fields) := by
  induction fields generalizing nth with
  | nil => exact .nil
  | cons t rest ih =>
    exact ((fetch_piece address nth _).append (t.lift_piece address)).append (ih _)

theorem lifts_piece (address : Instruction) (fields : List Tree) :
    Piece address (fields.map lift).flatten := .flatten fun code member => by
  obtain ⟨t, -, rfl⟩ := List.mem_map.mp member
  exact t.lift_piece address

theorem lowers_piece (address : Instruction) (fields : List Tree) :
    Piece address (fields.map lower).flatten := .flatten fun code member => by
  obtain ⟨t, -, rfl⟩ := List.mem_map.mp member
  exact t.lower_piece address

theorem step_getArg {scope : Outlook} {nth : Nat} {operand : Operand}
    (known : scope.args[nth]? = some operand) (s : State) :
    step scope s (getArg nth) = .ok (s.push operand) := by
  simp only [step, known, need_some, ok_bind, pure_eq_ok]

theorem split_drop {α : Type} {xs rest : List α} {n : Nat} {x : α} (split : xs.drop n = x :: rest) :
    xs[n]? = some x ∧ xs.drop (n + 1) = rest := by
  refine ⟨?_, ?_⟩
  · rw [← List.head?_drop, split, List.head?_cons]
  · rw [← List.drop_drop, split, List.drop_one, List.tail_cons]

theorem run_fetch {scope : Outlook} {nth : Nat} {operands others : List Operand}
    (args : scope.args.drop nth = operands ++ others) (s : State) :
    run ((List.range' nth operands.length).map getArg) scope s = .ok (s.pushAll operands) := by
  induction operands generalizing nth s with
  | nil => rfl
  | cons operand rest ih =>
    obtain ⟨first, next⟩ := split_drop args
    rw [List.length_cons, List.range'_succ, List.map_cons,
      run_cons rfl (fetch_piece iterBasePointer _ _).balanced, step_getArg first, ok_bind, ih next,
      State.pushAll_cons]

theorem run_passAll {fields : List Tree} {scope : Outlook} (unfolds : UnfoldsAll scope.arena fields)
    (s : State) {nth : Nat} {values : List Value} (admits : AdmitsAll fields values)
    (args : scope.args.drop nth = values.map .value) :
    Reaches scope.allocator (AsksAll fields values) (run (passAll nth fields) scope s) fun s' =>
      ∃ slots st, s' = (s.withStore st).pushAll slots ∧
        Carried s.store st fun m => FlatAll m fields slots values := by
  induction fields generalizing nth s values with
  | nil =>
    cases values with
    | nil => exact ⟨[], s.store, by simp, .refl fun m => rfl⟩
    | cons v values => exact admits.elim
  | cons t rest ih =>
    cases values with
    | nil => exact admits.elim
    | cons v values =>
      obtain ⟨first, next⟩ := split_drop args
      have code : passAll nth (t :: rest) =
          getArg nth :: (t.lower ++ passAll (nth + 1) rest) := rfl
      have others := (passAll_piece iterBasePointer rest (nth + 1)).balanced
      rw [code, run_cons rfl (t.lower_balanced.append others), step_getArg first, ok_bind,
        run_append t.lower_balanced others]
      have lowered := t.lowers scope s unfolds.1 admits.1
      refine (lowered.widen fun size align => .inl).bind fun s' holds => ?_
      obtain ⟨slots, middle, result, carried⟩ := holds
      subst result
      refine ((ih unfolds.2 _ admits.2 next).widen fun size align => .inr).mono fun s' holds => ?_
      obtain ⟨others, st, result, also⟩ := holds
      rw [State.pushAll_store, State.withStore_store] at also
      refine ⟨slots ++ others, st, ?_, (carried.trans also).changes, ?_⟩
      · rw [result, State.pushAll_withStore, State.withStore_withStore, State.pushAll_append]
      · exact (carried.trans also).kept.imp fun m both => ⟨slots, others, rfl, both.1, both.2⟩

theorem run_storeAll {fields : List Tree} {scope : Outlook} (unfolds : UnfoldsAll scope.arena fields)
    {area : Instruction} {base : Nat} (points : Points scope area base) {offsets : List Nat}
    {start stop : Nat} (placed : Layout.Placed start (fields.map Tree.extent) offsets stop)
    (bound : base + stop ≤ 2 ^ 32) (s : State) {nth : Nat} {values : List Value}
    (admits : AdmitsAll fields values) (args : scope.args.drop nth = values.map .value)
    (inside : ∀ x, Within (base + start) (base + stop) x → Covered s.store.taken x) :
    Reaches scope.allocator (AsksAll fields values) (run (storeAll area nth fields offsets) scope s) fun s' =>
      ∃ st, s' = s.withStore st ∧ Stored (TouchesAll fields offsets base values)
        (fun m => EncodedAll m fields offsets base values) s.store st := by
  induction fields generalizing offsets start nth s values with
  | nil =>
    cases values with
    | nil => exact ⟨s.store, rfl, .refl fun m => by cases offsets <;> exact trivial⟩
    | cons v values => exact admits.elim
  | cons t rest ih =>
    cases offsets with
    | nil => exact placed.elim
    | cons o offsets =>
      cases values with
      | nil => exact admits.elim
      | cons v values =>
        obtain ⟨own, later, apart⟩ := touches_cons base unfolds placed (by omega) v values
        obtain ⟨behind, others⟩ := placed
        have last := others.le
        have size_eq : t.size = t.extent.size := rfl
        obtain ⟨first, next⟩ := split_drop args
        have code : storeAll area nth (t :: rest) (o :: offsets) =
            getArg nth :: (t.write area o ++ storeAll area (nth + 1) rest offsets) := rfl
        have write := (t.write_piece points.1 o).balanced
        have stores := (storeAll_piece points.1 rest offsets (nth + 1)).balanced
        rw [code, run_cons rfl (write.append stores), step_getArg first, ok_bind,
          run_append write stores]
        have written := t.writes scope s o unfolds.1 points admits.1 (by omega) fun x within =>
          inside x (within.widen (by omega) (by omega))
        refine (written.widen fun size align => .inl).bind fun s' holds => ?_
        obtain ⟨middle, rfl, stored⟩ := holds
        have behind := ih unfolds.2 others (s.withStore middle) admits.2 next fun x within =>
          stored.changes.grows x (inside x (within.widen (by omega) le_rfl))
        refine (behind.widen fun size align => .inr).mono fun s' holds => ?_
        obtain ⟨st, result, also⟩ := holds
        rw [State.withStore_store] at also
        exact ⟨st, result, stored.trans also (fun x touches => inside x (own x touches))
          (fun x touches => inside x (later x touches)) apart⟩

theorem run_receiveAll {fields : List Tree} {scope : Outlook}
    (unfolds : UnfoldsAll scope.arena fields) (s : State) {nth : Nat} {slots : List Operand}
    {values : List Value} (flats : FlatAll s.store.memory fields slots values)
    (args : scope.args.drop nth = slots) :
    run (receiveAll nth fields) scope s = .ok (s.pushAll (values.map .value)) := by
  induction fields generalizing nth s slots values with
  | nil =>
    cases values with
    | nil => rfl
    | cons v values => exact flats.elim
  | cons t rest ih =>
    cases values with
    | nil => exact flats.elim
    | cons v values =>
      obtain ⟨first, others, rfl, flat, flats⟩ := flats
      have width := flat.length
      have next : scope.args.drop (nth + t.slots.length) = others := by
        rw [← List.drop_drop, args, ← width, List.drop_left]
      have fetch := (fetch_piece iterBasePointer nth t.slots.length).balanced
      have receive := (receiveAll_piece iterBasePointer rest (nth + t.slots.length)).balanced
      have fetched := run_fetch args s
      rw [width] at fetched
      rw [receiveAll, List.append_assoc, run_append fetch (t.lift_balanced.append receive), fetched,
        ok_bind, run_append t.lift_balanced receive, t.lifts scope s unfolds.1 flat, ok_bind,
        ih unfolds.2 (s.push (.value v)) flats next, List.map_cons, State.pushAll_cons]

end ZigBindings.Tree
