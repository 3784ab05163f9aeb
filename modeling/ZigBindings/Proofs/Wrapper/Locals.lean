import ZigBindings.Proofs.Crossing.Fetching
import ZigBindings.Proofs.Emission.Weaving
import ZigBindings.Proofs.Wrapper.Acceptance

/-! Names flow through a whole wrapper, from its parameters to the end of its body. -/

namespace ZigBindings
open Zig Zig.Stmt

section
variable {a : Arena} {ty : Ty}

theorem spellWithin_spellable {depth : Nat} {text : String}
    (spelled : spellWithin a depth ty = .ok text) : Spellable a ty := by
  induction depth generalizing ty text with
  | zero =>
    cases ty with
    | prim p => exact .prim p
    | ref id => cases spelled
  | succ depth ih =>
    cases ty with
    | prim p => exact .prim p
    | ref id =>
      rw [spellWithin, bind_eq_ok] at spelled
      obtain ⟨kind, found, spelled⟩ := spelled
      cases kind with
      | tuple elements =>
        rw [bind_eq_ok] at spelled
        obtain ⟨parts, each, _⟩ := spelled
        refine .tuple found fun ty member => ?_
        obtain ⟨part, -, spelled⟩ := ok_of_mapM each ty member
        exact ih spelled
      | _ => cases spelled

theorem checkWithin_passable {depth : Nat} (checked : checkWithin a depth ty = .ok ()) :
    Passable a ty := by
  induction depth generalizing ty with
  | zero =>
    cases ty with
    | prim p => exact .prim p
    | ref id => cases checked
  | succ depth ih =>
    cases ty with
    | prim p => exact .prim p
    | ref id =>
      rw [checkWithin, bind_eq_ok] at checked
      obtain ⟨kind, found, checked⟩ := checked
      have inner : ∀ ty, discard (spell a ty) = .ok () → Spellable a ty := fun ty done => by
        cases spelled : spell a ty with
        | ok text => exact spellWithin_spellable spelled
        | error fault =>
          rw [spelled] at done
          cases done
      cases kind with
      | tuple elements => exact .tuple found fun ty member => ih (ok_of_forM checked ty member)
      | option payload => exact .option found (inner payload checked)
      | list element => exact .list found (inner element checked)
      | _ => cases checked

theorem spellResults_spellable {results : Results} {text : String}
    (spelled : spellResults a results = .ok text) : ∀ ty ∈ results.types, Spellable a ty := by
  obtain ⟨anon, named⟩ := results
  cases anon with
  | some ty => exact List.forall_mem_singleton.mpr (spellWithin_spellable spelled)
  | none =>
    intro ty member
    obtain ⟨field, inside, rfl⟩ := List.mem_map.mp member
    have some : named.isEmpty = false := by
      cases named with
      | nil => cases inside
      | cons => rfl
    simp only [spellResults, some, Bool.false_eq_true, if_false, bind_eq_ok, pure_eq_ok] at spelled
    obtain ⟨fields, each, _⟩ := spelled
    obtain ⟨text, -, spelled⟩ := ok_of_mapM each field inside
    rw [spellField, bind_eq_ok] at spelled
    obtain ⟨type, spelled, _⟩ := spelled
    exact spellWithin_spellable spelled

end

namespace Emission

theorem checkFinished_ok {s : Emission} (finished : s.checkFinished = .ok ()) : s.Idle := by
  rw [checkFinished] at finished
  split at finished
  case isTrue => cases finished
  case isFalse frames =>
    split at finished
    case isTrue => cases finished
    case isFalse blocks =>
      split at finished
      case isTrue => cases finished
      case isFalse operands =>
        exact ⟨by simpa using operands, by simpa using frames, by simpa using blocks⟩

structure Binds (s s' : Emission) (names : List String) : Prop where
  body : s'.body = s.body
  areas : s'.areas = s.areas
  grows : s.used ⊆ s'.used
  taken : names ⊆ s'.used
  apart : names.Nodup
  unused : ∀ x ∈ names, x ∉ s.used

theorem Binds.cons {s m s' : Emission} {name : String} {rest : List String}
    (body : m.body = s.body) (areas : m.areas = s.areas)
    (used : ∀ x, x ∈ m.used ↔ x ∈ s.used ∨ x = name) (unused : name ∉ s.used)
    (others : Binds m s' rest) : Binds s s' (name :: rest) where
  body := others.body.trans body
  areas := others.areas.trans areas
  grows x member := others.grows ((used x).mpr (.inl member))
  taken := List.cons_subset.mpr ⟨others.grows ((used name).mpr (.inr rfl)), others.taken⟩
  apart := List.nodup_cons.mpr ⟨fun member => others.unused name member ((used name).mpr (.inr rfl)),
    others.apart⟩
  unused := List.forall_mem_cons.mpr ⟨unused, fun x member known =>
    others.unused x member ((used x).mpr (.inl known))⟩

theorem freshAll_binds (s : Emission) (names : List String) :
    Binds s (s.freshAll names).2 (s.freshAll names).1 := by
  induction names generalizing s with
  | nil => exact ⟨rfl, rfl, fun _ => id, List.nil_subset _, .nil, by simp [freshAll]⟩
  | cons name rest ih =>
    exact .cons (s.fresh_same name).body (s.fresh_same name).areas (fun x => s.mem_fresh name) (s.fresh_unused name)
      (ih _)

theorem tmpAll_binds (s : Emission) (stem : String) (count : Nat) :
    Binds s (s.tmpAll stem count).2 (s.tmpAll stem count).1 := by
  induction count generalizing s with
  | zero => exact ⟨rfl, rfl, fun _ => id, List.nil_subset _, .nil, by simp [tmpAll]⟩
  | succ count ih =>
    exact .cons (s.tmp_same stem).body (s.tmp_same stem).areas (fun x => s.mem_tmp stem) (s.tmp_unused stem) (ih _)

theorem tmpAll_stem (s : Emission) {stem : String} (clear : Stem stem) (count : Nat) :
    ∀ x ∈ (s.tmpAll stem count).1, Stem x := by
  induction count generalizing s with
  | zero => simp [tmpAll]
  | succ count ih => exact List.forall_mem_cons.mpr ⟨s.tmp_stem clear, ih _⟩

theorem touched_mentioned {setting : Setting} {firm options : Prop} {code : List Instruction} {k : Nat}
    {start s : Emission} {name : String} (touches : Touches firm options (.getArg k) code) (strict : firm)
    (done : emitAll setting code start = .ok s) (param : start.params[k]? = some name)
    (bare : start.body = []) (idle : s.Idle) : name ∈ mentionsAll s.body := by
  obtain ⟨lead, part, rfl, before, after⟩ := touches
  obtain ⟨m, led, followed⟩ := append_ok done
  obtain ⟨n, led, fetched⟩ := append_ok led
  obtain ⟨first, one⟩ := woven_flows before _ _ led
  rw [emitAll_single, emit, getArg, one.params, param] at fetched
  cases fetched
  obtain ⟨second, two⟩ := woven_flows after _ _ followed
  have kept := (two.spends strict).operands
  have fetched : name ∈ Expr.namesAll (n.push (.name name)).operands := by simp [push]
  have left : name ∈ mentionsAll second := by
    simpa [pending, idle.operands] using kept fetched
  have body : s.body = first ++ second := by
    rw [two.body]
    exact congrArg (· ++ second) (one.body.trans (by rw [bare, List.nil_append]))
  rw [body, mentionsAll_append]
  exact List.mem_append_right _ left

end Emission

namespace Wrapper
open Emission

/-- How the declaration of a wrapper begins. -/
def opening : Direction → String
  | .outward => "pub fn "
  | .inward => "pub export fn "

/-- The identifier that a wrapper declares in its container. -/
def identifier (place : Place) (f : Function) : Direction → String
  | .outward => Name.identifier f.name
  | .inward => Name.escaped (exportSymbol place f)

/-- The state that the emission of a wrapper starts from. -/
def start (shared : Shared) (f : Function) (sig : Signature) : Direction → Emission
  | .outward =>
    (({} : Emission).reserve shared.reserved).bindParams (f.params.map fun p => Name.identifier p.1)
  | .inward =>
    let bound := (({} : Emission).reserve shared.reserved).tmpAll "arg" sig.params.length
    { bound.2 with params := bound.1 }

def emission (shared : Shared) (place : Place) (direction : Direction) (f : Function) :
    Except Fault Emission := do
  let setting ← setting shared place direction f
  emitBody setting (start shared f setting.signature direction)

/-- The wrapper's text is put together from this last state of its emission. The parameters stand in
the header, and the areas and the body below it. -/
def LaidOut (shared : Shared) (place : Place) (direction : Direction) (f : Function) (text : List Char)
    (s : Emission) : Prop :=
  emission shared place direction f = .ok s ∧ ∃ types result, types.length = s.params.length ∧
    text = assemble direction shared.options.width (opening direction ++ identifier place f direction ++
      "(" ++ parameters s.params types ++ ") " ++ result ++ " \x7b") s

/-- Nothing is written yet. Parameters have names that are in use from now on, like the reserved ones,
and those of an entry point start with a letter and are not like the names of slots. -/
structure Starts (shared : Shared) (direction : Direction) (start : Emission) : Prop where
  body : start.body = []
  idle : start.Idle
  areas : start.areas = []
  reserved : shared.reserved ⊆ start.used
  params : start.params ⊆ start.used
  apart : start.params.Nodup
  unreserved : ∀ x ∈ start.params, x ∉ shared.reserved
  stems : direction = .inward → ∀ x ∈ start.params, Stem x

variable {shared : Shared} {place : Place} {direction : Direction} {f : Function} {text : List Char}

theorem Starts.of_binds {s : Emission} {names : List String} (idle : s.Idle)
    (binds : Binds (({} : Emission).reserve shared.reserved) s names)
    (stems : direction = .inward → ∀ x ∈ names, Stem x) :
    Starts shared direction { s with params := names } where
  body := binds.body.trans (reserve_same _ _).body
  idle := ⟨idle.operands, idle.frames, idle.blocks⟩
  areas := binds.areas.trans (reserve_same _ _).areas
  reserved _ member := binds.grows ((mem_reserve _).mpr (.inr member))
  params := binds.taken
  apart := binds.apart
  unreserved x member known := binds.unused x member ((mem_reserve _).mpr (.inr known))
  stems := stems

theorem start_starts (shared : Shared) (direction : Direction) (f : Function) (sig : Signature) :
    Starts shared direction (start shared f sig direction) := by
  cases direction with
  | outward =>
    exact .of_binds ((freshAll_moved _ _).2.idle (reserve_idle _)) (freshAll_binds _ _) (by simp)
  | inward =>
    exact .of_binds ((tmpAll_moved _ _ _).2.idle (reserve_idle _)) (tmpAll_binds _ _ _)
      fun _ => tmpAll_stem _ (by decide) _

theorem start_arity (shared : Shared) (f : Function) (direction : Direction) (sig : Signature) :
    (start shared f sig direction).params.length = Crossing.paramCount sig f direction := by
  cases direction with
  | outward => exact (freshAll_moved _ _).1.trans (List.length_map _)
  | inward => exact (tmpAll_moved _ _ _).1

def Flows (shared : Shared) (direction : Direction) (f : Function) (firm : Prop) (s : Emission) : Prop :=
  ∃ sig, Flow firm (direction = .inward) (start shared f sig direction) s s.body ∧ s.Idle ∧
    (firm → s.params ⊆ mentionsAll s.body)

theorem emitBody_flows (firm : Prop) {made : Setting} {s : Emission}
    (known : setting shared place direction f = .ok made)
    (weaves : Crossing.Weaves shared.arena firm (direction = .inward) direction f)
    (done : emitBody made (start shared f made.signature direction) = .ok s) :
    emission shared place direction f = .ok s ∧
      s.params.length = Crossing.paramCount made.signature f direction ∧
      Flows shared direction f firm s := by
  have starts := start_starts shared direction f made.signature
  have arity := start_arity shared f direction made.signature
  have reached : emission shared place direction f = .ok s := by rw [emission, known, ok_bind, done]
  simp only [setting, bind_eq_ok, pure_eq_ok, Except.ok.injEq] at known
  obtain ⟨signature, signed, rfl⟩ := known
  simp only [emitBody, bind_eq_ok, pure_eq_ok, Except.ok.injEq] at done
  obtain ⟨code, generated, last, emitted, _, finished, rfl⟩ := done
  have idle := checkFinished_ok finished
  obtain ⟨woven, touches⟩ := Crossing.sequence_fetches weaves signed code generated
  obtain ⟨written, flow⟩ := woven_flows woven _ _ emitted
  have body : last.body = written := flow.body.trans (by rw [starts.body, List.nil_append])
  refine ⟨reached, by rw [flow.params]; exact arity, signature, body ▸ flow, idle,
    fun strict x member => ?_⟩
  rw [flow.params] at member
  obtain ⟨k, inside, rfl⟩ := List.getElem_of_mem member
  exact touched_mentioned (touches k (Nat.zero_le _) (arity ▸ inside)) strict emitted
    (List.getElem?_eq_getElem inside) starts.body idle

theorem outward_flows {firm : Prop} (compiled : outward shared place f = .ok text) :
    ∃ s, LaidOut shared place .outward f text s ∧ Flows shared .outward f firm s := by
  simp only [outward, bind_eq_ok, pure_eq_ok, Except.ok.injEq] at compiled
  obtain ⟨types, spelled, result, answered, made, known, s, done, rfl⟩ := compiled
  have spellable : ∀ ty ∈ f.params.map (·.2) ++ f.results.types, Spellable shared.arena ty := by
    refine List.forall_mem_append.mpr ⟨fun ty member => ?_, spellResults_spellable answered⟩
    obtain ⟨p, inside, rfl⟩ := List.mem_map.mp member
    obtain ⟨type, -, spelled⟩ := ok_of_mapM spelled p inside
    exact spellWithin_spellable spelled
  obtain ⟨reached, arity, flows⟩ := emitBody_flows firm known
    ⟨fun ty member => (spellable ty member).passable, fun ty member => (spellable ty member).lets,
      fun ty member => (spellable ty (List.mem_append_right _ member)).fills⟩ done
  have length : types.length = s.params.length :=
    (mapM_eq_ok.mp spelled).length_eq.symm.trans arity.symm
  exact ⟨s, ⟨reached, types, result, length, rfl⟩, flows⟩

theorem inward_flows {firm : Prop} (compiled : inward shared place f = .ok text)
    (fills : ∀ ty ∈ f.params.map (·.2), shared.arena.Fills firm ty) :
    ∃ s, LaidOut shared place .inward f text s ∧ Flows shared .inward f firm s := by
  simp only [inward, bind_eq_ok, pure_eq_ok, Except.ok.injEq] at compiled
  obtain ⟨_, checked, _, also, made, known, s, done, rfl⟩ := compiled
  have passable : ∀ ty ∈ f.params.map (·.2) ++ f.results.types, Passable shared.arena ty := by
    refine List.forall_mem_append.mpr ⟨fun ty member => ?_, fun ty member =>
      checkWithin_passable (ok_of_forM also ty member)⟩
    obtain ⟨p, inside, rfl⟩ := List.mem_map.mp member
    exact checkWithin_passable (ok_of_forM checked p inside)
  obtain ⟨reached, arity, flows⟩ := emitBody_flows firm known
    ⟨passable, fun _ _ _ _ _ _ => rfl, fills⟩ done
  have length : (made.signature.params.map Slot.name).length = s.params.length :=
    (List.length_map _).trans arity.symm
  exact ⟨s, ⟨reached, _, _, length, rfl⟩, flows⟩

/-- Where code is firm, the lists that an entry point takes have elements with slots. -/
theorem source_flows {firm : Prop} (compiled : source shared place direction f = .ok text)
    (fills : direction = .inward → ∀ ty ∈ f.params.map (·.2), shared.arena.Fills firm ty) :
    ∃ s, LaidOut shared place direction f text s ∧ Flows shared direction f firm s := by
  cases direction with
  | outward => exact outward_flows (mapError_eq_ok.mp compiled)
  | inward => exact inward_flows (mapError_eq_ok.mp compiled) (fills rfl)

end Wrapper

end ZigBindings
