import ZigBindings.Crossing.Sequence
import ZigBindings.Proofs.Emission.Conversion

/-! Emission of whole sequences. Arguments are on the stack when a call asks for them, its results
are there when the function returns, and nothing else is left behind. -/

namespace ZigBindings

/-- Types that can be passed side by side. If they have no layout, values are huge. -/
structure Carried (a : Arena) (huge : Prop) (types : List Ty) : Prop where
  passable : ∀ ty ∈ types, Passable a ty
  large : ∀ ty ∈ types, a.Oversized ty → huge
  area : Layout.Overflows (Layout.recordLayout a types) → huge

theorem Carried.founded {a : Arena} {huge : Prop} {types : List Ty} (carried : Carried a huge types) :
    ∀ ty ∈ types, a.Founded ty := fun ty member => (carried.passable ty member).founded

/-- What a wrapper takes and gives where the types have so many slots. -/
structure Signature.Fits (sig : Signature) (direction : Direction) (params results : Nat) :
    Prop where
  params : sig.params.length = (if sig.indirectParams then 1 else params) +
    if sig.returnPointer ∧ direction = .outward then 1 else 0
  results : sig.results.length =
    if sig.returnPointer then (if direction = .outward then 0 else 1) else results
  single : sig.results.length ≤ 1

theorem Results.shape (results : Results) :
    (results.types = [] ∧ results.isNamed = false) ∨
      (∃ ty, results.types = [ty] ∧ results.isNamed = false) ∨
        (results.types = results.named.map (·.2) ∧ results.named ≠ [] ∧ results.isNamed = true) := by
  obtain ⟨anon, named⟩ := results
  cases anon with
  | some ty => exact .inr (.inl ⟨ty, rfl, rfl⟩)
  | none =>
    cases named with
    | nil => exact .inl ⟨rfl, rfl⟩
    | cons first rest => exact .inr (.inr ⟨rfl, List.cons_ne_nil _ _, rfl⟩)

theorem signature_fits {a : Arena} {f : Function} {huge : Prop}
    (params : Carried a huge (f.params.map (·.2))) (results : Carried a huge f.results.types)
    (direction : Direction) : ∃ sig, Crossing.signature a direction f = .ok sig ∧
      sig.Fits direction (a.row (f.params.map (·.2))).length (a.row f.results.types).length := by
  simp only [Crossing.signature, flattenAll_eq params.passable, flattenAll_eq results.passable,
    ok_bind]
  split
  · next few =>
    refine ⟨_, rfl, ?_, by simp, few⟩
    by_cases many : Crossing.maxFlatParams < (a.row (f.params.map (·.2))).length <;> simp [many]
  · cases direction with
    | outward =>
      refine ⟨_, rfl, ?_, by simp, by simp⟩
      by_cases many : Crossing.maxFlatParams < (a.row (f.params.map (·.2))).length <;> simp [many]
    | inward =>
      refine ⟨_, rfl, ?_, by simp, by simp⟩
      by_cases many : Crossing.maxFlatParams < (a.row (f.params.map (·.2))).length <;> simp [many]

namespace Emission
open Crossing

section
variable {setting : Setting} {given : Context → Prop} {huge : Prop}

theorem lowerArguments_computes {types : List Ty}
    (passable : ∀ ty ∈ types, Passable setting.arena ty)
    (large : ∀ ty ∈ types, setting.arena.Oversized ty → huge) (nth : Nat) :
    Computes huge (lowerArguments setting.arena nth types) fun code =>
      Emits setting (fun c => nth + types.length ≤ c.params) code 0
        (setting.arena.row types).length := by
  induction types generalizing nth with
  | nil => exact .of_ok rfl .nil
  | cons ty rest ih =>
    let room : Context → Prop := fun c => nth + (rest.length + 1) ≤ c.params
    refine (lower_computes (passable ty (by simp)) (large ty (by simp))).bind fun part
      (first : Emits setting room _ _ _) => ?_
    refine (ih (fun other member => passable other (by simp [member]))
      (fun other member => large other (by simp [member])) (nth + 1)).bind fun parts others => ?_
    have fetched : Emits setting room _ 0 1 := (getArg_emits nth).weaken
      fun c (inside : _ ≤ _) => by omega
    have behind : Emits setting room _ _ _ := others.weaken fun c (inside : _ ≤ _) => by omega
    rw [length_row_cons]
    exact ((fetched.append first).append behind).cast (by omega) (by omega)

theorem writeArguments_computes {area : Instruction} {fields : List (Ty × Nat)}
    (passable : ∀ field ∈ fields, Passable setting.arena field.1)
    (large : ∀ field ∈ fields, setting.arena.Oversized field.1 → huge) (nth : Nat) :
    Computes huge (writeArguments setting.arena area nth fields) fun code =>
      Emits setting (fun c => nth + fields.length ≤ c.params ∧ c.Offers area) code 0 0 := by
  induction fields generalizing nth with
  | nil => exact .of_ok rfl .nil
  | cons field rest ih =>
    let room : Context → Prop := fun c => nth + (rest.length + 1) ≤ c.params ∧ c.Offers area
    refine (write_computes (passable field (by simp)) (large field (by simp)) area field.2).bind
      fun part first => ?_
    refine (ih (fun other member => passable other (by simp [member]))
      (fun other member => large other (by simp [member])) (nth + 1)).bind fun parts others => ?_
    have fetched : Emits setting room _ 0 1 := (getArg_emits nth).weaken
      fun c inside => by have := inside.1; omega
    have written : Emits setting room _ 1 0 := first.weaken fun c inside => inside.2
    have behind : Emits setting room _ 0 0 := others.weaken fun c inside =>
      ⟨by have := inside.1; omega, inside.2⟩
    exact ((fetched.append written).append behind).cast (by omega) (by omega)

theorem getArgs_emits (nth count : Nat) :
    Emits setting (fun c => nth + count ≤ c.params) ((List.range' nth count).map .getArg) 0 count := by
  induction count generalizing nth with
  | zero => exact .nil
  | succ count ih =>
    let room : Context → Prop := fun c => nth + (count + 1) ≤ c.params
    rw [List.range'_succ, List.map_cons]
    have fetched : Emits setting room _ 0 1 := (getArg_emits nth).weaken
      fun c (inside : _ ≤ _) => by omega
    have behind : Emits setting room _ _ _ := (ih (nth + 1)).weaken
      fun c (inside : _ ≤ _) => by omega
    exact (fetched.append behind).cast (by omega) (by omega)

theorem liftArguments_computes {types : List Ty}
    (passable : ∀ ty ∈ types, Passable setting.arena ty)
    (large : ∀ ty ∈ types, setting.arena.Oversized ty → huge) (nth : Nat) :
    Computes huge (liftArguments setting.arena nth types) fun code =>
      Emits setting (fun c => nth + (setting.arena.row types).length ≤ c.params) code 0
        types.length := by
  induction types generalizing nth with
  | nil => exact .of_ok rfl .nil
  | cons ty rest ih =>
    rw [length_row_cons]
    let room : Context → Prop := fun c =>
      nth + ((setting.arena.slots ty).length + (setting.arena.row rest).length) ≤ c.params
    rw [liftArguments, (passable ty (by simp)).flatten_eq, ok_bind]
    refine (lift_computes (passable ty (by simp)) (large ty (by simp))).bind fun part
      (first : Emits setting room _ _ _) => ?_
    refine (ih (fun other member => passable other (by simp [member]))
      (fun other member => large other (by simp [member])) _).bind fun parts others => ?_
    have fetched : Emits setting room _ _ _ :=
      (getArgs_emits nth (setting.arena.slots ty).length).weaken fun c (inside : _ ≤ _) => by omega
    have behind : Emits setting room _ _ _ := others.weaken fun c (inside : _ ≤ _) => by omega
    exact ((fetched.append first).append behind).cast (by simp) (by omega)

theorem readAll_computes {types : List Ty} (carried : Carried setting.arena huge types)
    (address : Instruction) : Computes huge (readAll setting.arena address types) fun code =>
      Emits setting (·.Offers address) code 0 types.length :=
  readFields_computes carried.passable carried.area fun ty member =>
    read_computes (carried.passable ty member) (carried.large ty member) address

theorem passOut_computes {types : List Ty} (carried : Carried setting.arena huge types)
    (indirect : Bool) : Computes huge (passOut setting.arena indirect types) fun code =>
      Emits setting (fun c => types.length ≤ c.params) code 0
        (if indirect then 1 else (setting.arena.row types).length) := by
  cases indirect with
  | false =>
    refine (lowerArguments_computes carried.passable carried.large 0).mono fun code emits => ?_
    exact emits.weaken fun c inside => by omega
  | true =>
    refine ((recordLayout_computes carried.founded).widen carried.area).bind fun extent _ => ?_
    refine ((fieldOffsets_computes carried.founded).widen carried.area).bind fun offsets length => ?_
    have member : ∀ field ∈ types.zip offsets, field.1 ∈ types := fun field inside =>
      (List.of_mem_zip inside).1
    refine (writeArguments_computes (fun field inside => carried.passable _ (member field inside))
      (fun field inside => carried.large _ (member field inside)) 0).bind fun parts written => ?_
    let room : Context → Prop := fun c => types.length ≤ c.params
    have first : Emits setting room _ 0 0 := written.weaken fun c (inside : _ ≤ _) =>
      ⟨by simp [length, inside], trivial⟩
    have area : Emits setting room _ 0 1 :=
      (address_emits (.paramPointer extent.size extent.align)).weaken fun _ _ => trivial
    exact (first.append area).cast (by simp) (by omega)

theorem lowerResults_computes {types : List Ty} (carried : Carried setting.arena huge types) :
    Computes huge (types.mapM (Crossing.lower setting.arena)) fun parts =>
      Emits setting given parts.flatten types.length (setting.arena.row types).length := by
  have each : ∀ ty ∈ types, Computes huge (Crossing.lower setting.arena ty) fun code =>
      Emits setting given code 1 (setting.arena.slots ty).length := fun ty member =>
    lower_computes (carried.passable ty member) (carried.large ty member)
  refine (Computes.mapM each).mono fun parts lowered => ?_
  exact (flatten_emits _ _ lowered).cast (by simp [length_row]) (by simp)

theorem liftResults_computes {types : List Ty} (carried : Carried setting.arena huge types) :
    Computes huge (types.mapM (Crossing.lift setting.arena)) fun parts =>
      Emits setting given parts.flatten (setting.arena.row types).length types.length := by
  have each : ∀ ty ∈ types, Computes huge (Crossing.lift setting.arena ty) fun code =>
      Emits setting given code (setting.arena.slots ty).length 1 := fun ty member =>
    lift_computes (carried.passable ty member) (carried.large ty member)
  refine (Computes.mapM each).mono fun parts lifted => ?_
  exact (flatten_emits _ _ lifted).cast (by simp [length_row]) (by simp [length_row])

theorem callWasm_emits (outward : setting.direction = .outward) (name : String) {sig : Signature}
    (single : sig.results.length ≤ 1) :
    Emits setting given [.callWasm name sig] sig.params.length sig.results.length :=
  .single fun s _ enough => by
    simp only [emit, Emission.callWasm, outward, ne_eq, not_true, if_false,
      if_neg (Nat.not_lt.mpr single)]
    refine (popN_computes enough).bind fun moved took => ?_
    obtain ⟨args, below⟩ := moved
    have popped := took.2
    have called := fun stmt => popped.trans (below.fresh_write_moved "wasm_import" stmt)
    by_cases none : sig.results.isEmpty
    · have zero : sig.results.length = 0 := by simpa using none
      simp only [none, if_true, pure_eq_ok, Computes.ok]
      exact ((called _).trans (write_moved _ _)).cast (by omega)
    · have one : sig.results.length = 1 := by
        have some : sig.results.length ≠ 0 := by simpa using none
        omega
      simp only [none, pure_eq_ok]
      exact ((called _).trans ((fresh_write_moved _ "ret" _).trans (push_moved _ _))).cast (by omega)

theorem callInterface_emits (inward : setting.direction = .inward) {impl : String}
    (text : setting.implParam.text? = some impl) (f : Function) :
    Emits setting given [.callInterface f] f.params.length f.results.types.length :=
  .single fun s _ enough => by
    simp only [emit, Emission.callInterface, implementation, inward, text, reduceCtorEq, if_false]
    refine (popN_computes enough).bind fun moved took => ?_
    obtain ⟨args, below⟩ := moved
    have popped := took.2
    have kept := fun stmt => popped.trans (below.fresh_write_moved "ret" stmt)
    simp only [pure_eq_ok, ok_bind]
    rcases f.results.shape with ⟨types, plain⟩ | ⟨ty, types, plain⟩ | ⟨types, some, named⟩
    · simp only [types, List.isEmpty_nil, if_true, Computes.ok]
      exact popped.trans (write_moved _ _)
    · simp only [types, plain, List.isEmpty_cons, Bool.false_eq_true, if_false, Computes.ok]
      exact ((kept _).trans (push_moved _ _)).cast (by simp)
    · simp only [types, named, List.isEmpty_iff, List.map_eq_nil_iff, some, if_false, if_true,
        Computes.ok]
      exact ((kept _).trans (pushAll_moved _ _)).cast (by simp)

theorem ret_outward_emits (outward : setting.direction = .outward) :
    Emits setting given [.ret setting.function.results.types.length]
      setting.function.results.types.length 0 := .single fun s _ enough => by
  simp only [emit, Emission.ret]
  refine (popN_computes enough).bind fun moved took => ?_
  obtain ⟨values, below⟩ := moved
  obtain ⟨length, popped⟩ := took
  have left := fun stmt => popped.trans (below.write_moved stmt)
  dsimp only at length left ⊢
  rcases setting.function.results.shape with ⟨types, plain⟩ | ⟨ty, types, plain⟩ | ⟨types, _, named⟩
  · simp only [types, List.length_nil, List.length_eq_zero_iff] at length
    subst length
    simpa [plain, pure_eq_ok] using popped
  · rw [types] at length
    obtain ⟨value, rfl⟩ := List.length_eq_one_iff.mp length
    simpa [plain, pure_eq_ok] using left _
  · rw [types, List.length_map] at length
    simpa [outward, named, length, pure_eq_ok] using left _

theorem ret_inward_emits (inward : setting.direction = .inward) {amount : Nat}
    (single : amount ≤ 1) : Emits setting given [.ret amount] amount 0 :=
  .single fun s _ enough => by
    simp only [emit, Emission.ret, inward]
    refine (popN_computes enough).bind fun moved took => ?_
    obtain ⟨values, below⟩ := moved
    obtain ⟨length, popped⟩ := took
    have left := fun stmt => popped.trans (below.write_moved stmt)
    cases values with
    | nil => exact popped
    | cons value rest =>
      simp only [List.length_cons] at length
      obtain rfl : rest = [] := List.eq_nil_of_length_eq_zero (by omega)
      exact left _

theorem outward_computes (outward : setting.direction = .outward)
    (fits : setting.signature.Fits .outward
      (setting.arena.row (setting.function.params.map (·.2))).length
      (setting.arena.row setting.function.results.types).length)
    (signed : Crossing.signature setting.arena .outward setting.function = .ok setting.signature)
    (params : Carried setting.arena huge (setting.function.params.map (·.2)))
    (results : Carried setting.arena huge setting.function.results.types) :
    Computes huge (Crossing.outward setting.arena setting.function) fun code =>
      Emits setting (fun c => setting.function.params.length ≤ c.params) code 0 0 := by
  let room : Context → Prop := fun c => setting.function.params.length ≤ c.params
  simp only [Crossing.outward, signed, ok_bind]
  refine (passOut_computes params setting.signature.indirectParams).bind fun arguments passed => ?_
  rw [List.length_map] at passed
  have called : Emits setting room _ _ _ :=
    callWasm_emits outward setting.function.name fits.single
  have returned : Emits setting room _ _ _ := ret_outward_emits outward
  have taken := fits.params
  have given := fits.results
  by_cases pointer : setting.signature.returnPointer
  · simp only [pointer, if_true, true_and] at taken given ⊢
    refine ((recordLayout_computes results.founded).widen results.area).bind fun extent _ => ?_
    refine (readAll_computes results _).bind fun lifted read => ?_
    have area : Emits setting room _ 0 1 :=
      (address_emits (.returnPointer extent.size extent.align)).weaken fun _ _ => trivial
    have loads : Emits setting room _ _ _ := read.weaken fun _ _ => trivial
    have code := ((passed.append (area.append called)).append loads).append returned
    simp only [List.cons_append, List.nil_append, List.append_assoc] at code ⊢
    exact code.cast (by omega) (by omega)
  · simp only [pointer, Bool.false_eq_true, false_and, if_false, Nat.add_zero] at taken given ⊢
    refine (liftResults_computes results).bind fun parts
      (lifted : Emits setting room _ _ _) => ?_
    have code := ((passed.append called).append lifted).append returned
    simp only [List.append_assoc] at code ⊢
    exact code.cast (by omega) (by omega)

/-- Code of an entry point: operands for all parameters are there when the implementation is called,
and those for all results are gone at the end. -/
def Answers (setting : Setting) (given : Context → Prop) (code : List Instruction) : Prop :=
  ∃ before after, code = before ++ .callInterface setting.function :: after ∧
    Emits setting given before 0 setting.function.params.length ∧
    Emits setting given after setting.function.results.types.length 0

theorem Answers.emits {code : List Instruction} (answers : Answers setting given code)
    (inward : setting.direction = .inward) {impl : String}
    (text : setting.implParam.text? = some impl) : Emits setting given code 0 0 := by
  obtain ⟨before, after, rfl, fetched, returned⟩ := answers
  have called : Emits setting given _ _ _ := callInterface_emits inward text setting.function
  exact (fetched.append (called.append returned)).cast (by omega) (by omega)

/-- An implementation whose type has no name cannot be called. -/
theorem Answers.refused {code : List Instruction} (answers : Answers setting given code)
    (inward : setting.direction = .inward) (nameless : setting.implParam.text? = none)
    {s : Emission} (fits : given s.context) : emitAll setting code s = .error .wrongShape := by
  obtain ⟨before, after, rfl, fetched, _⟩ := answers
  have first := fetched s fits (Nat.zero_le _)
  rw [emitAll_append]
  cases emitted : emitAll setting before s with
  | error fault =>
    rw [emitted] at first
    exact first.2.elim
  | ok s' =>
    rw [emitted] at first
    have count := first.count
    have enough : ¬ s'.operands.length < setting.function.params.length := by omega
    have called : emit setting (.callInterface setting.function) s' = .error .wrongShape := by
      simp only [emit, Emission.callInterface, inward, reduceCtorEq, if_false, popN, if_neg enough,
        implementation, nameless, pure_eq_ok, ok_bind, throw_eq_error, error_bind]
    rw [ok_bind, emitAll, List.foldlM_cons, called, error_bind]

theorem answer_computes (inward : setting.direction = .inward) {params : Nat}
    (fits : setting.signature.Fits .inward params
      (setting.arena.row setting.function.results.types).length)
    (results : Carried setting.arena huge setting.function.results.types)
    {arguments : List Instruction}
    (fetched : Emits setting given arguments 0 setting.function.params.length) :
    Computes huge
      (if setting.signature.returnPointer then do
        let extent ← Layout.recordLayout setting.arena setting.function.results.types
        let area := Instruction.returnPointer extent.size extent.align
        let stored ← writeFields setting.arena (Crossing.write setting.arena)
          setting.function.results.types area 0
        pure (arguments ++ [.callInterface setting.function] ++ stored ++ [area, .ret 1])
      else do
        let parts ← setting.function.results.types.mapM (Crossing.lower setting.arena)
        pure (arguments ++ [.callInterface setting.function] ++ parts.flatten ++
          [.ret setting.signature.results.length]))
      (Answers setting given) := by
  have returns := fits.results
  by_cases pointer : setting.signature.returnPointer
  · simp only [pointer, if_true] at returns ⊢
    refine ((recordLayout_computes results.founded).widen results.area).bind fun extent _ => ?_
    refine (writeFields_computes results.passable results.area fun ty member =>
      write_computes (results.passable ty member) (results.large ty member) _).bind
        fun stored written => ?_
    have area : Emits setting given _ 0 1 :=
      (address_emits (.returnPointer extent.size extent.align)).weaken fun _ _ => trivial
    have stores : Emits setting given _ _ _ := written.weaken fun _ _ => trivial
    have left : Emits setting given _ 1 0 := ret_inward_emits inward le_rfl
    have code := stores.append (area.append left)
    exact ⟨arguments, _, by simp, fetched, code.cast (by omega) (by omega)⟩
  · simp only [pointer, Bool.false_eq_true, if_false] at returns ⊢
    refine (lowerResults_computes results).bind fun parts
      (lowered : Emits setting given _ _ _) => ?_
    have left : Emits setting given _ _ _ := ret_inward_emits inward fits.single
    have code := lowered.append left
    exact ⟨arguments, _, by simp, fetched, code.cast (by omega) (by omega)⟩

theorem inward_computes (inward : setting.direction = .inward)
    (fits : setting.signature.Fits .inward
      (setting.arena.row (setting.function.params.map (·.2))).length
      (setting.arena.row setting.function.results.types).length)
    (signed : Crossing.signature setting.arena .inward setting.function = .ok setting.signature)
    (params : Carried setting.arena huge (setting.function.params.map (·.2)))
    (results : Carried setting.arena huge setting.function.results.types) :
    Computes huge (Crossing.inward setting.arena setting.function)
      (Answers setting fun c => setting.signature.params.length ≤ c.params) := by
  have taken := fits.params
  simp only [Crossing.inward, signed, ok_bind]
  by_cases indirect : setting.signature.indirectParams
  · simp only [indirect, if_true, reduceCtorEq, and_false, if_false] at taken ⊢
    refine (readAll_computes params _).bind fun arguments read => ?_
    rw [List.length_map] at read
    exact answer_computes inward fits results <|
      read.weaken fun c (inside : _ ≤ _) => show 0 < c.params by omega
  · simp only [indirect, reduceCtorEq, and_false, if_false] at taken ⊢
    refine (liftArguments_computes params.passable params.large 0).bind fun arguments lifted => ?_
    rw [List.length_map] at lifted
    exact answer_computes inward fits results <|
      lifted.weaken fun c (inside : _ ≤ _) => by simp at taken; omega

end

end Emission

end ZigBindings
