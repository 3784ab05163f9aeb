import ZigBindings.Proofs.Generate.Reachability
import ZigBindings.Proofs.Name.Tokens
import ZigBindings.Proofs.Wrapper.Locals

/-! The names that parameters are bound to. A name that is taken gets a number behind it, which an
identifier does not always bear: not behind its quotes, and not where it comes to a type's name. -/

namespace ZigBindings
open Name (IsToken Bears identifier_isToken isToken_numbered)

namespace Emission

variable {s : Emission} {name : String}

/-- A new name is an identifier unless it was taken and does not bear its number. -/
theorem fresh_isToken (s : Emission) (raw : String) :
    IsToken (s.fresh (Name.identifier raw)).1.toList ↔
      (Name.identifier raw ∈ s.used → Bears (Name.identifier raw) (s.fresh (Name.identifier raw)).1) := by
  by_cases taken : Name.identifier raw ∈ s.used
  · obtain ⟨n, same⟩ := s.fresh_taken taken
    rw [same, isToken_numbered (identifier_isToken raw)]
    exact ⟨fun bears _ => bears, fun bears => bears taken⟩
  · rw [s.fresh_free taken]
    exact iff_of_true (identifier_isToken raw) fun never => absurd never taken

theorem freshAll_get (s : Emission) {names : List String} {i : Nat} (known : names[i]? = some name) :
    ∃ m : Emission, (s.freshAll names).1[i]? = some (m.fresh name).1 ∧
      ∀ x, x ∈ m.used ↔ x ∈ s.used ∨ x ∈ (s.freshAll names).1.take i := by
  induction names generalizing s i with
  | nil => cases known
  | cons first rest ih =>
    cases i with
    | zero =>
      cases known
      exact ⟨s, rfl, fun x => by simp⟩
    | succ i =>
      obtain ⟨m, bound, used⟩ := ih (s.fresh first).2 known
      refine ⟨m, bound, fun x => ?_⟩
      rw [used, mem_fresh, freshAll, List.take_succ_cons, List.mem_cons, or_assoc]

end Emission

namespace Wrapper
open Emission

variable {shared : Shared} {place : Place} {f : Function} {text : List Char}

theorem start_isToken (shared : Shared) (sig : Signature) {i : Nat} {raw : String} {ty : Ty}
    (known : f.params[i]? = some (raw, ty)) :
    ∃ bound, (start shared f sig .outward).params[i]? = some bound ∧
      (IsToken bound.toList ↔ (Name.identifier raw ∈ shared.reserved ∨
        Name.identifier raw ∈ (start shared f sig .outward).params.take i → Bears (Name.identifier raw) bound)) := by
  have named : (f.params.map fun p => Name.identifier p.1)[i]? = some (Name.identifier raw) := by
    rw [List.getElem?_map, known]
    rfl
  obtain ⟨m, bound, used⟩ := freshAll_get (({} : Emission).reserve shared.reserved) named
  have reserved : ∀ x, x ∈ (({} : Emission).reserve shared.reserved).used ↔ x ∈ shared.reserved := fun x =>
    (mem_reserve _).trans (or_iff_right List.not_mem_nil)
  refine ⟨_, bound, ?_⟩
  rw [fresh_isToken, used, reserved]
  rfl

theorem outward_header (compiled : source shared place .outward f = .ok text) :
    ∃ sig types result rest, types.length = (start shared f sig .outward).params.length ∧
      text = (opening .outward ++ identifier place f .outward ++ "(" ++
        parameters (start shared f sig .outward).params types ++ ") " ++ result ++ " \x7b").toList ++ '\n' :: rest := by
  obtain ⟨s, laid, sig, flow, -⟩ := @source_flows shared place .outward f text False compiled nofun
  obtain ⟨-, types, result, length, same⟩ := laid
  have params : s.params = (start shared f sig .outward).params := flow.params
  rw [params] at length same
  obtain ⟨rest, whole⟩ := assemble_header .outward shared.options.width _ s
  exact ⟨sig, types, result, rest, length, same.trans whole⟩

/-- Names are identifiers unless they were taken and do not bear the number that was put behind them: the
names handed out by an emission, and those that the parameters of a wrapper are bound to and that its
header lists. -/
theorem bound_isToken (s : Emission) (shared : Shared) (f : Function) :
    (∀ raw, IsToken (s.fresh (Name.identifier raw)).1.toList ↔
      (Name.identifier raw ∈ s.used → Bears (Name.identifier raw) (s.fresh (Name.identifier raw)).1)) ∧
    (∀ sig i raw ty, f.params[i]? = some (raw, ty) →
      ∃ bound, (start shared f sig .outward).params[i]? = some bound ∧
        (IsToken bound.toList ↔ (Name.identifier raw ∈ shared.reserved ∨
          Name.identifier raw ∈ (start shared f sig .outward).params.take i →
            Bears (Name.identifier raw) bound))) ∧
    ∀ place text, source shared place .outward f = .ok text →
      ∃ sig types result rest, (start shared f sig .outward).params.length = f.params.length ∧
        types.length = f.params.length ∧
        text = (opening .outward ++ identifier place f .outward ++ "(" ++
          parameters (start shared f sig .outward).params types ++ ") " ++ result ++ " \x7b").toList ++
            '\n' :: rest := by
  refine ⟨fresh_isToken s, fun sig i raw ty => start_isToken shared sig, fun place text compiled => ?_⟩
  obtain ⟨sig, types, result, rest, length, header⟩ := outward_header compiled
  have arity : (start shared f sig .outward).params.length = f.params.length := start_arity shared f .outward sig
  exact ⟨sig, types, result, rest, arity, length.trans arity, header⟩

def pick (first second : String) : Function where
  name := "pick"
  params := [(first, .prim .u8), (second, .prim .u8)]

theorem bound_key : ∃ text, source { arena := #[] } {} .outward (pick "key" "-key") = .ok text ∧
    (∃ types result rest, types.length = 2 ∧
      text = ("pub fn pick(" ++ parameters ["key", "key0"] types ++ ") " ++ result ++ " \x7b").toList ++
        '\n' :: rest) ∧
    IsToken "key0".toList := by
  obtain ⟨text, compiled⟩ : ∃ text, source { arena := #[] } {} .outward (pick "key" "-key") = .ok text := ⟨_, rfl⟩
  have params (sig : Signature) :
      (start { arena := #[] } (pick "key" "-key") sig .outward).params = ["key", "key0"] := rfl
  obtain ⟨-, bounds, headers⟩ := bound_isToken {} { arena := #[] } (pick "key" "-key")
  obtain ⟨sig, types, result, rest, -, length, header⟩ := headers _ _ compiled
  obtain ⟨bound, known, token⟩ := bounds sig 1 "-key" (.prim .u8) rfl
  rw [params] at header known
  cases known
  exact ⟨text, compiled, ⟨types, result, rest, length, header⟩, token.mpr fun _ => ⟨rfl, by decide, by decide⟩⟩

/-- A number stands behind the quotes, or makes a type of a letter. -/
theorem bound_not_token :
    (∃ text, source { arena := #[] } {} .outward (pick "type" "type") = .ok text ∧
      "pub fn pick(@\"type\": u8, @\"type\"0: u8) void \x7b".toList <+: text) ∧ ¬ IsToken "@\"type\"0".toList ∧
    (∃ text, source { arena := #[] } {} .outward (pick "u" "u") = .ok text ∧
      "pub fn pick(u: u8, u0: u8) void \x7b".toList <+: text) ∧ ¬ IsToken "u0".toList := by
  have quoted : ¬ IsToken "@\"type\"0".toList := fun token => absurd (Option.some.inj token.ends) (by decide)
  have letter : IsToken "u".toList := .bare (by decide) (by decide)
  have unsigned : ¬ IsToken "u0".toList := fun token => ((isToken_numbered letter 0).mp token).integer.2 rfl
  refine ⟨⟨_, rfl, ?_⟩, quoted, ⟨_, rfl, ?_⟩, unsigned⟩ <;> decide +kernel

end Wrapper

end ZigBindings
