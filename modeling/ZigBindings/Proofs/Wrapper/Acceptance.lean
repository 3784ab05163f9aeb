import ZigBindings.Wrapper
import ZigBindings.Proofs.Crossing.Aliases
import ZigBindings.Proofs.Emission.Sequence
import ZigBindings.Proofs.Types.Group

/-! Which functions have wrappers. The check in front of the generator refuses every function whose
types it does not accept, and all others are generated to the end. -/

namespace ZigBindings
open Zig

/-- Outward a type needs a spelling; inward it is enough that its values can be passed. -/
def Arena.Accepts (a : Arena) : Direction → Ty → Prop
  | .outward => Spellable a
  | .inward => Passable a

section
variable {a : Arena} {f : Function}

theorem carried_params (passable : ∀ ty ∈ f.types, Passable a ty) :
    Carried a (a.OversizedCall f) (f.params.map (·.2)) where
  passable ty member := passable ty (Function.param_mem member)
  large ty member many := .inr (.inr ⟨ty, Function.param_mem member, many⟩)
  area := .inl

theorem carried_results (passable : ∀ ty ∈ f.types, Passable a ty) :
    Carried a (a.OversizedCall f) f.results.types where
  passable ty member := passable ty (Function.result_mem member)
  large ty member many := .inr (.inr ⟨ty, Function.result_mem member, many⟩)
  area many := .inr (.inl many)

end

namespace Emission

structure Idle (s : Emission) : Prop where
  operands : s.operands = []
  frames : s.frames = []
  blocks : s.blocks = []

theorem Moved.idle {s s' : Emission} (moved : Moved 0 0 s s') (idle : s.Idle) : s'.Idle where
  operands := by
    have count := moved.count
    rw [idle.operands] at count
    exact List.eq_nil_of_length_eq_zero count
  frames := by
    have frames := moved.frames
    rw [idle.frames] at frames
    exact List.map_eq_nil_iff.mp frames
  blocks := moved.blocks.trans idle.blocks

theorem freshAll_moved (s : Emission) (names : List String) :
    (s.freshAll names).1.length = names.length ∧ Moved 0 0 s (s.freshAll names).2 := by
  induction names generalizing s with
  | nil => exact ⟨rfl, .refl s⟩
  | cons name rest ih =>
    obtain ⟨length, moved⟩ := ih (s.fresh name).2
    exact ⟨congrArg Nat.succ length, (s.fresh_moved name).trans moved⟩

theorem tmpAll_moved (s : Emission) (stem : String) (n : Nat) :
    (s.tmpAll stem n).1.length = n ∧ Moved 0 0 s (s.tmpAll stem n).2 := by
  induction n generalizing s with
  | zero => exact ⟨rfl, .refl s⟩
  | succ n ih =>
    obtain ⟨length, moved⟩ := ih (s.tmp stem).2
    exact ⟨congrArg Nat.succ length, (s.tmp_moved stem).trans moved⟩

theorem reserve_idle (names : List String) : (({} : Emission).reserve names).Idle :=
  (reserve_moved _ names).idle ⟨rfl, rfl, rfl⟩

theorem Idle.bindParams {s : Emission} (idle : s.Idle) (names : List String) :
    (s.bindParams names).Idle ∧ (s.bindParams names).context.params = names.length := by
  obtain ⟨length, moved⟩ := s.freshAll_moved names
  have after := moved.idle idle
  exact ⟨⟨after.operands, after.frames, after.blocks⟩, length⟩

theorem Idle.checkFinished {s : Emission} (idle : s.Idle) : s.checkFinished = .ok () := by
  simp only [Emission.checkFinished, idle.operands, idle.frames, idle.blocks, List.isEmpty_nil,
    Bool.not_true, Bool.false_eq_true, if_false, pure_eq_ok]

end Emission

namespace Wrapper
open Emission

section
variable {setting : Setting} {given : Context → Prop} {huge : Prop} {s : Emission}

theorem emitBody_computes (idle : s.Idle) (fits : given s.context)
    (code : Computes huge (Crossing.sequence setting.arena setting.direction setting.function)
      fun code => Emits setting given code 0 0) :
    Computes huge (emitBody setting s) fun _ => True := by
  refine code.bind fun instructions emits => ?_
  refine ((emits s fits (Nat.zero_le _)).widen False.elim).bind fun last moved => ?_
  rw [(moved.idle idle).checkFinished]
  trivial

theorem emitBody_refused {α : Type} {finish : Emission → Except Fault α}
    (inward : setting.direction = .inward) (nameless : setting.implParam.text? = none)
    (fits : given s.context)
    (code : Computes huge (Crossing.sequence setting.arena setting.direction setting.function)
      (Answers setting given)) :
    (emitBody setting s >>= finish) = .error .wrongShape ∨
      (emitBody setting s >>= finish) = .error .quotientRange ∧ huge := by
  unfold emitBody
  cases generated : Crossing.sequence setting.arena setting.direction setting.function with
  | error fault =>
    rw [generated] at code
    obtain ⟨rfl, many⟩ := code
    exact .inr ⟨rfl, many⟩
  | ok instructions =>
    rw [generated] at code
    rw [ok_bind, Answers.refused code inward nameless fits]
    exact .inl rfl

end

/-- The function on the other side has a name. The host's function always has one, and the
implementation's has one below the text that its type is given as. -/
def Shared.Names (shared : Shared) (direction : Direction) : Prop :=
  direction = .inward → ∃ impl, shared.options.implParam.text? = some impl

def Ends (shared : Shared) (direction : Direction) (f : Function)
    (compiled : Except Fault (List Char)) : Prop :=
  (∃ text, compiled = .ok text ∧ shared.Names direction) ∨
    (compiled = .error .wrongShape ∧ ¬ shared.Names direction) ∨
      compiled = .error .quotientRange ∧ shared.arena.OversizedCall f

section
variable {shared : Shared} {f : Function}

theorem Ends.of_computes {direction : Direction} {compiled : Except Fault (List Char)}
    (named : shared.Names direction)
    (computes : Computes (shared.arena.OversizedCall f) compiled fun _ => True) :
    Ends shared direction f compiled := by
  cases compiled with
  | ok text => exact .inl ⟨text, rfl, named⟩
  | error fault =>
    obtain ⟨rfl, many⟩ := computes
    exact .inr (.inr ⟨rfl, many⟩)

theorem spellParams_decides (tame : shared.arena.Tame) {params : List (String × Ty)}
    (inRange : ∀ p ∈ params, shared.arena.InRange p.2) :
    Decides (params.mapM fun p => spell shared.arena p.2) (∀ p ∈ params, Spellable shared.arena p.2)
      shared.arena.Unsupported :=
  .mapM fun p member => spell_decides tame (inRange p member)

theorem checkParams_decides (tame : shared.arena.Tame) {params : List (String × Ty)}
    (inRange : ∀ p ∈ params, shared.arena.InRange p.2) :
    Decides (params.forM fun p => check shared.arena p.2) (∀ p ∈ params, Passable shared.arena p.2)
      shared.arena.Unsupported :=
  .forM fun p member => check_decides tame (inRange p member)

theorem checkResults_decides (tame : shared.arena.Tame) {types : List Ty}
    (inRange : ∀ ty ∈ types, shared.arena.InRange ty) :
    Decides (types.forM (check shared.arena)) (∀ ty ∈ types, Passable shared.arena ty)
      shared.arena.Unsupported :=
  .forM fun ty member => check_decides tame (inRange ty member)

theorem spellResults_decides (tame : shared.arena.Tame) {results : Results}
    (inRange : ∀ ty ∈ results.types, shared.arena.InRange ty) :
    Decides (spellResults shared.arena results) (∀ ty ∈ results.types, Spellable shared.arena ty)
      shared.arena.Unsupported := by
  obtain ⟨anon, named⟩ := results
  cases anon with
  | some ty =>
    refine (spell_decides tame (inRange ty (by simp [Results.types]))).congr ?_
    simp [Results.types]
  | none =>
    have fields : Decides (named.mapM (spellField shared.arena))
        (∀ field ∈ named, Spellable shared.arena field.2) shared.arena.Unsupported :=
      .mapM fun field member => ((spell_decides tame (inRange field.2
        (List.mem_map_of_mem member))).bind fun type => .pure _).congr (and_true _).to_iff
    simp only [spellResults, Results.types]
    cases empty : named.isEmpty with
    | true =>
      rw [List.isEmpty_iff] at empty
      subst empty
      exact fun ty member => by cases member
    | false =>
      refine (fields.bind fun parts => .pure _).congr ?_
      rw [and_true, List.forall_mem_map]

theorem forall_types {motive : Ty → Prop} : (∀ ty ∈ f.types, motive ty) ↔
    (∀ p ∈ f.params, motive p.2) ∧ ∀ ty ∈ f.results.types, motive ty := by
  rw [Function.types, List.forall_mem_append, List.forall_mem_map]

theorem outward_ends (place : Place) {types : List String} {result : String}
    (spelled : f.params.mapM (fun p => spell shared.arena p.2) = .ok types)
    (answered : spellResults shared.arena f.results = .ok result)
    (spellable : ∀ ty ∈ f.types, Spellable shared.arena ty) :
    Ends shared .outward f (outward shared place f) := by
  have passable : ∀ ty ∈ f.types, Passable shared.arena ty := fun ty member =>
    (spellable ty member).passable
  have params := carried_params passable
  have results := carried_results passable
  obtain ⟨sig, signed, fits⟩ := signature_fits params results .outward
  refine .of_computes (fun inward => by cases inward) ?_
  simp only [outward, spelled, answered, Wrapper.setting, signed, ok_bind, pure_eq_ok]
  obtain ⟨idle, bound⟩ := (Emission.reserve_idle shared.reserved).bindParams
    (f.params.map fun p => Name.identifier p.1)
  refine Computes.bind (emitBody_computes idle ?_ (Emission.outward_computes rfl fits signed
    params results)) fun s _ => trivial
  simp [bound]

theorem outward_settles (tame : shared.arena.Tame)
    (inRange : ∀ ty ∈ f.types, shared.arena.InRange ty) (place : Place) :
    Settles (outward shared place f) (∀ ty ∈ f.types, Spellable shared.arena ty)
      (Ends shared .outward f) shared.arena.Unsupported := by
  have params := spellParams_decides tame (forall_types.mp inRange).1
  have results := spellResults_decides tame (forall_types.mp inRange).2
  constructor
  · intro spellable
    obtain ⟨types, spelled⟩ := params.exists_ok (forall_types.mp spellable).1
    obtain ⟨result, answered⟩ := results.exists_ok (forall_types.mp spellable).2
    exact outward_ends place spelled answered spellable
  · intro rejects
    cases spelled : f.params.mapM fun p => spell shared.arena p.2 with
    | error fault =>
      rw [spelled] at params
      exact ⟨fault, by rw [outward, spelled]; rfl, params.2⟩
    | ok types =>
      obtain ⟨fault, refused, faulty⟩ := results.exists_error fun second =>
        rejects (forall_types.mpr ⟨params.of_ok spelled, second⟩)
      exact ⟨fault, by rw [outward, spelled, refused]; rfl, faulty⟩

theorem inward_ends (place : Place)
    (checked : f.params.forM (fun p => check shared.arena p.2) = .ok ())
    (also : f.results.types.forM (check shared.arena) = .ok ())
    (passable : ∀ ty ∈ f.types, Passable shared.arena ty) :
    Ends shared .inward f (inward shared place f) := by
  have params := carried_params passable
  have results := carried_results passable
  obtain ⟨sig, signed, fits⟩ := signature_fits params results .inward
  obtain ⟨length, moved⟩ :=
    (({} : Emission).reserve shared.reserved).tmpAll_moved "arg" sig.params.length
  have after := moved.idle (Emission.reserve_idle shared.reserved)
  simp only [inward, checked, also, Wrapper.setting, signed, ok_bind, pure_eq_ok]
  cases found : shared.options.implParam.text? with
  | some impl =>
    refine .of_computes (fun _ => ⟨impl, found⟩) (Computes.bind (emitBody_computes
      ⟨after.operands, after.frames, after.blocks⟩ ?_
      ((Emission.inward_computes rfl fits signed params results).mono fun code answers =>
        answers.emits rfl found)) fun s _ => trivial)
    exact length.ge
  | none =>
    have nameless : ¬ shared.Names .inward := fun named => by
      obtain ⟨impl, some⟩ := named rfl
      rw [found] at some
      cases some
    refine .inr (Or.imp_left (fun refused => ⟨refused, nameless⟩) (emitBody_refused rfl found ?_
      (Emission.inward_computes rfl fits signed params results)))
    exact length.ge

theorem inward_settles (tame : shared.arena.Tame)
    (inRange : ∀ ty ∈ f.types, shared.arena.InRange ty) (place : Place) :
    Settles (inward shared place f) (∀ ty ∈ f.types, Passable shared.arena ty)
      (Ends shared .inward f) shared.arena.Unsupported := by
  have params := checkParams_decides tame (forall_types.mp inRange).1
  have results := checkResults_decides tame (forall_types.mp inRange).2
  constructor
  · intro passable
    obtain ⟨_, checked⟩ := params.exists_ok (forall_types.mp passable).1
    obtain ⟨_, also⟩ := results.exists_ok (forall_types.mp passable).2
    exact inward_ends place checked also passable
  · intro rejects
    cases checked : f.params.forM fun p => check shared.arena p.2 with
    | error fault =>
      rw [checked] at params
      exact ⟨fault, by rw [inward, checked]; rfl, params.2⟩
    | ok _ =>
      obtain ⟨fault, refused, faulty⟩ := results.exists_error fun second =>
        rejects (forall_types.mpr ⟨params.of_ok checked, second⟩)
      exact ⟨fault, by rw [inward, checked, ok_bind, refused]; rfl, faulty⟩

end

section
variable {other : Arena}

theorem emit_alike {setting : Setting} (alike : setting.arena.Alike other) (inst : Instruction)
    (s : Emission) : emit { setting with arena := other } inst s = emit setting inst s := by
  cases inst <;> simp only [emit, Emission.listCanonLift, Emission.listLift, Emission.optionLift,
    spell_alike alike] <;> rfl

theorem emitBody_alike (setting : Setting) (alike : setting.arena.Alike other)
    (passable : ∀ ty ∈ setting.function.types, Passable setting.arena ty) (s : Emission) :
    emitBody { setting with arena := other } s = emitBody setting s := by
  have params := fun ty member => passable ty (Function.param_mem member)
  have results := fun ty member => passable ty (Function.result_mem member)
  simp only [emitBody, emitAll, Crossing.sequence_alike alike params results, emit_alike alike]

variable {shared : Shared} {f : Function} (alike : shared.arena.Alike other)
  (tame : shared.arena.Tame) (inRange : ∀ ty ∈ f.types, shared.arena.InRange ty)
include alike

theorem spellResults_alike (results : Results) :
    spellResults other results = spellResults shared.arena results := by
  have fields : spellField other = spellField shared.arena := by
    funext field
    rw [spellField, spellField, spell_alike alike]
  rw [spellResults, spellResults, spell_alike alike, fields]

theorem setting_alike (passable : ∀ ty ∈ f.types, Passable shared.arena ty) (place : Place)
    (direction : Direction) : setting { shared with arena := other } place direction f =
      (setting shared place direction f).map fun s => { s with arena := other } := by
  have params := fun ty member => passable ty (Function.param_mem member)
  have results := fun ty member => passable ty (Function.result_mem member)
  rw [setting, setting, Crossing.signature_alike alike params results]
  cases Crossing.signature shared.arena direction f <;> rfl

theorem setting_bind_alike {α : Type} {work work' : Setting → Except Fault α}
    (passable : ∀ ty ∈ f.types, Passable shared.arena ty) (place : Place) (direction : Direction)
    (same : ∀ s : Setting, s.arena.Alike other → (∀ ty ∈ s.function.types, Passable s.arena ty) →
      work' { s with arena := other } = work s) :
    setting { shared with arena := other } place direction f >>= work' =
      setting shared place direction f >>= work := by
  rw [setting_alike alike passable]
  unfold setting
  cases Crossing.signature shared.arena direction f with
  | error fault => rfl
  | ok sig =>
    exact same ⟨shared.arena, f, direction, sig, place.path, place.linkName,
      shared.options.implParam⟩ alike passable

include tame inRange

/-- Where aliases lead makes no difference for a wrapper, so no alias is ever followed. -/
theorem outward_alike (place : Place) :
    outward { shared with arena := other } place f = outward shared place f := by
  unfold outward
  simp only [spell_alike alike, spellResults_alike alike]
  refine bind_congr_of_ok fun types first => bind_congr_of_ok fun result second => ?_
  have params := (spellParams_decides tame (forall_types.mp inRange).1).of_ok first
  have results := (spellResults_decides tame (forall_types.mp inRange).2).of_ok second
  have spellable := forall_types.mpr ⟨params, results⟩
  refine setting_bind_alike alike (fun ty member => (spellable ty member).passable) place .outward
    fun s alike passable => ?_
  rw [emitBody_alike s alike passable]

theorem inward_alike (place : Place) :
    inward { shared with arena := other } place f = inward shared place f := by
  unfold inward
  simp only [check_alike alike]
  refine bind_congr_of_ok fun types first => bind_congr_of_ok fun result second => ?_
  have params := (checkParams_decides tame (forall_types.mp inRange).1).of_ok first
  have results := (checkResults_decides tame (forall_types.mp inRange).2).of_ok second
  have passable := forall_types.mpr ⟨params, results⟩
  refine setting_bind_alike alike passable place .inward fun s alike passable => ?_
  rw [emitBody_alike s alike passable]

end

/-- The check in front of the generator decides. A function whose types it accepts has a wrapper,
unless the implementation's type has no name, or the layout of an area or of something in a type is
beyond all doubles; every other function is refused by a definition that it leads to.
Where the aliases of the arena lead makes no difference. -/
theorem source_settles {shared : Shared} {f : Function} (tame : shared.arena.Tame)
    (inRange : ∀ ty ∈ f.types, shared.arena.InRange ty) (place : Place) (direction : Direction) :
    ((∀ ty ∈ f.types, shared.arena.Accepts direction ty) →
      (∃ text, source shared place direction f = .ok text ∧ shared.Names direction) ∨
        (source shared place direction f = .error .wrongShape ∧ ¬ shared.Names direction) ∨
          source shared place direction f = .error .quotientRange ∧ shared.arena.OversizedCall f) ∧
    ((¬ ∀ ty ∈ f.types, shared.arena.Accepts direction ty) →
      ∃ id kind, shared.arena.kind id = .ok kind ∧
        source shared place direction f =
          .error (.generation (.unsupportedType kind.label id) (some ⟨f.name, direction⟩))) ∧
    ∀ other, shared.arena.Alike other →
      source { shared with arena := other } place direction f = source shared place direction f := by
  have settled : ∃ compiled, source shared place direction f =
      compiled.mapError (Fault.locate ⟨f.name, direction⟩) ∧
      Settles compiled (∀ ty ∈ f.types, shared.arena.Accepts direction ty)
        (Ends shared direction f) shared.arena.Unsupported := by
    cases direction with
    | outward => exact ⟨_, rfl, outward_settles tame inRange place⟩
    | inward => exact ⟨_, rfl, inward_settles tame inRange place⟩
  obtain ⟨compiled, source_eq, accepted, refused⟩ := settled
  rw [source_eq]
  refine ⟨fun accepts => ?_, fun rejects => ?_, fun other alike => ?_⟩
  · rcases accepted accepts with ⟨text, rfl, named⟩ | ⟨rfl, nameless⟩ | ⟨rfl, many⟩
    · exact .inl ⟨text, rfl, named⟩
    · exact .inr (.inl ⟨rfl, nameless⟩)
    · exact .inr (.inr ⟨rfl, many⟩)
  · obtain ⟨_, rfl, id, kind, found, rfl⟩ := refused rejects
    exact ⟨id, kind, found, rfl⟩
  · rw [← source_eq]
    cases direction with
    | outward => rw [source, source, outward_alike alike tame inRange]
    | inward => rw [source, source, inward_alike alike tame inRange]

def looped : Arena := #[⟨.alias (.ref 0), some "loop"⟩]

theorem looped_tame : looped.Tame where
  inRange id other refers := by
    obtain ⟨kind, found, member⟩ := refers
    match id with
    | 0 =>
      cases found
      cases List.mem_singleton.mp member
      decide
    | id + 1 => cases found
  apart id around := by
    obtain ⟨other, ⟨elements, found, _⟩, _⟩ := Relation.TransGen.head'_iff.mp around
    match id with
    | 0 => cases found
    | id + 1 => cases found

def double : Function where
  name := "double"
  params := [("value", .prim .u32)]
  results := { anon := some (.prim .u64) }

def follow : Function where
  name := "follow"
  params := [("loop", .ref 0)]

theorem double_numbers : ∀ ty ∈ double.types, ∃ p, ty = .prim p := by
  simp [double, Function.types, Results.types]

theorem double_inRange (ty : Ty) (member : ty ∈ double.types) : looped.InRange ty := fun id same => by
  obtain ⟨p, rfl⟩ := double_numbers ty member
  cases same

theorem double_accepted (direction : Direction) (ty : Ty) (member : ty ∈ double.types) :
    looped.Accepts direction ty := by
  obtain ⟨p, rfl⟩ := double_numbers ty member
  cases direction <;> exact .prim p

theorem double_not_oversized : ¬ looped.OversizedCall double := by
  rintro (many | many | ⟨ty, member, inner, contains, many⟩)
  · exact absurd many (by decide +kernel)
  · exact absurd many (by decide +kernel)
  · obtain ⟨p, rfl⟩ := double_numbers ty member
    cases contains.of_prim
    cases many

theorem looped_sources : looped.Tame ∧ (∀ ty ∈ double.types, looped.InRange ty) ∧
    (∀ ty ∈ follow.types, looped.InRange ty) ∧
    (∃ text, source { arena := looped } {} .inward double = .ok text) ∧
    ∃ id kind, looped.kind id = .ok kind ∧ source { arena := looped } {} .inward follow =
      .error (.generation (.unsupportedType kind.label id) (some ⟨"follow", .inward⟩)) := by
  have follows : ∀ ty ∈ follow.types, looped.InRange ty := fun ty member id same => by
    cases List.mem_singleton.mp member
    cases same
    decide
  refine ⟨looped_tame, double_inRange, follows, ?_,
    (@source_settles { arena := looped } follow looped_tame follows {} .inward).2.1 fun all => ?_⟩
  · rcases (@source_settles { arena := looped } double looped_tame double_inRange {} .inward).1
      (double_accepted .inward) with ⟨text, done, _⟩ | ⟨_, nameless⟩ | ⟨_, many⟩
    · exact ⟨text, done⟩
    · exact absurd (fun _ => ⟨"Impl", rfl⟩) nameless
    · exact absurd many double_not_oversized
  · cases all (.ref 0) (by decide) with
    | tuple found | option found | list found => cases found

/-- The type of the implementation is a number. -/
theorem source_nameless : looped.Tame ∧
    (∀ ty ∈ double.types, looped.InRange ty ∧ looped.Accepts .inward ty) ∧
    source { arena := looped, options := { implParam := .int 7 } } {} .inward double =
      .error .wrongShape := by
  refine ⟨looped_tame, fun ty member => ⟨double_inRange ty member, double_accepted .inward ty member⟩,
    ?_⟩
  rcases (@inward_settles { arena := looped, options := { implParam := .int 7 } } double
    looped_tame double_inRange {}).1 (double_accepted .inward) with
    ⟨_, _, named⟩ | ⟨refused, _⟩ | ⟨_, many⟩
  · obtain ⟨impl, found⟩ := named rfl
    cases found
  · rw [source, refused]
    rfl
  · exact absurd many double_not_oversized

end Wrapper

end ZigBindings
