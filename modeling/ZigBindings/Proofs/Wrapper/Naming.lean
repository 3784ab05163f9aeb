import ZigBindings.Proofs.Wrapper.Locals

/-! What the flow of names comes to in the text of a wrapper. Every local is declared once and
mentioned where it is in scope, and nothing is declared in vain, unless an entry point takes a list
whose elements have no slots. -/

namespace ZigBindings
open Zig Zig.Stmt

namespace Zig.Stmt

mutual
def choices : Stmt → List String
  | switchOption name _ _ absent present _ => name :: (choicesAll absent ++ choicesAll present)
  | ifSome _ _ _ present _ absent _ => choicesAll present ++ choicesAll absent
  | forEach _ _ _ _ _ body _ => choicesAll body
  | const _ _ _ | slotVar _ _ | assign _ _ | discard _ | run _ | onExit _ | ret _ => []

def choicesAll : List Stmt → List String
  | [] => []
  | s :: rest => s.choices ++ choicesAll rest
end

/-- The labels of the arms of all switches in a body. -/
def labelsAll (body : List Stmt) : List String :=
  (choicesAll body).flatMap fun name => [name ++ "_none", name ++ "_some"]

mutual
theorem choices_count (x : String) : ∀ s : Stmt, s.choices.count x ≤ s.locals.count x
  | switchOption name _ _ absent present _ => by
    have := choicesAll_count x absent
    have := choicesAll_count x present
    simp only [choices, locals, List.count_cons, List.count_append]
    omega
  | ifSome _ _ _ present _ absent _ => by
    have := choicesAll_count x absent
    have := choicesAll_count x present
    simp only [choices, locals, List.count_append]
    omega
  | forEach _ _ _ _ _ body _ => by
    have := choicesAll_count x body
    simp only [choices, locals, List.count_append]
    omega
  | const _ _ _ | slotVar _ _ | assign _ _ | discard _ | run _ | onExit _ | ret _ => by simp [choices]

theorem choicesAll_count (x : String) :
    ∀ body : List Stmt, (choicesAll body).count x ≤ (localsAll body).count x
  | [] => by simp [choicesAll]
  | s :: rest => by
    have := choices_count x s
    have := choicesAll_count x rest
    simp only [choicesAll, localsAll, List.count_append]
    omega
end

theorem label_injective {first second ending other : String} (length : ending.length = other.length)
    (same : first ++ ending = second ++ other) : first = second ∧ ending = other := by
  have letters := congrArg String.toList same
  rw [String.toList_append, String.toList_append] at letters
  obtain ⟨one, two⟩ := List.append_inj' letters length
  exact ⟨String.toList_injective one, String.toList_injective two⟩

theorem labelsAll_nodup {body : List Stmt} (apart : (localsAll body).Nodup) : (labelsAll body).Nodup := by
  have names : (choicesAll body).Nodup := List.nodup_iff_count_le_one.mpr fun x =>
    (choicesAll_count x body).trans (List.nodup_iff_count_le_one.mp apart x)
  have differ : ("_none" : String) ≠ "_some" := by decide
  have length : ("_none" : String).length = ("_some" : String).length := by decide
  refine List.nodup_flatMap.mpr ⟨fun name _ => ?_, names.imp fun different x first second => ?_⟩
  · refine List.nodup_cons.mpr ⟨fun member => ?_, List.nodup_singleton _⟩
    exact differ (label_injective length (List.mem_singleton.mp member)).2
  · simp only [List.mem_cons, List.not_mem_nil, or_false] at first second
    rcases first with rfl | rfl <;> rcases second with same | same
    · exact different (label_injective rfl same).1
    · exact different (label_injective length same).1
    · exact different (label_injective length.symm same).1
    · exact different (label_injective rfl same).1

end Zig.Stmt

namespace Wrapper
open Emission

variable {shared : Shared} {place : Place} {direction : Direction} {f : Function} {text : List Char}

section
variable {firm : Prop} {start s : Emission}

theorem handed (starts : Starts shared direction start)
    (flow : Flow firm (direction = .inward) start s s.body) (idle : s.Idle) :
    ∃ names, Hands (direction = .inward) start s names ∧ s.areas ++ localsAll s.body ⊆ names ∧
      (s.areas ++ localsAll s.body).Nodup := by
  obtain ⟨names, hands, fewer⟩ := flow.named
  have counts : ∀ x, (s.areas ++ localsAll s.body).count x ≤ names.count x := fun x => by
    have less := fewer x
    simp only [held, starts.areas, starts.idle.frames, idle.frames, List.flatMap_nil,
      List.nil_append, List.append_nil, List.count_append] at less ⊢
    omega
  refine ⟨names, hands, fun x member => ?_, List.nodup_iff_count_le_one.mpr fun x => ?_⟩
  · exact List.count_pos_iff.mp ((List.count_pos_iff.mpr member).trans_le (counts x))
  · exact (counts x).trans (List.nodup_iff_count_le_one.mp hands.apart x)

theorem distinct (starts : Starts shared direction start)
    (flow : Flow firm (direction = .inward) start s s.body) (idle : s.Idle) :
    (s.params ++ s.areas ++ localsAll s.body).Nodup := by
  obtain ⟨names, hands, given, apart⟩ := handed starts flow idle
  rw [List.append_assoc, flow.params]
  refine List.nodup_append.mpr ⟨starts.apart, apart, ?_⟩
  rintro x param _ member rfl
  obtain ⟨inward, option, slot⟩ := hands.unused x (given member) (starts.params param)
  exact (starts.stems inward x param).1 slot.mark_eq

theorem unreserved (starts : Starts shared direction start)
    (flow : Flow firm (direction = .inward) start s s.body) (idle : s.Idle) {x : String}
    (member : x ∈ s.params ++ s.areas ++ localsAll s.body) :
    (x ∈ shared.reserved → direction = .inward ∧ ∃ option, IsSlot option x) ∧
      (direction = .inward → lettered x = true) := by
  obtain ⟨names, hands, given, -⟩ := handed starts flow idle
  rw [List.append_assoc, flow.params] at member
  rcases List.mem_append.mp member with param | member
  · exact ⟨fun known => absurd known (starts.unreserved x param), fun inward =>
      (starts.stems inward x param).2⟩
  · exact ⟨fun known => hands.unused x (given member) (starts.reserved known), fun _ =>
      hands.letters x (given member)⟩

end

/-- Everything that a body declares is in scope where it is mentioned. -/
theorem source_scoped (compiled : source shared place direction f = .ok text) :
    ∃ s, LaidOut shared place direction f text s ∧ ScopedAll (s.params ++ s.areas) s.body ∧
      (s.params ++ s.areas ++ localsAll s.body).Nodup ∧ (labelsAll s.body).Nodup := by
  obtain ⟨s, laid, sig, flow, idle, -⟩ :=
    source_flows compiled fun _ _ _ _ _ _ _ (never : False) => never.elim
  have starts := start_starts shared direction f sig
  have apart := distinct starts flow idle
  obtain ⟨visible, -⟩ := flow.visible (s.params ++ s.areas)
    (fun x member => List.mem_append_left _ (flow.params ▸ member)) (List.subset_append_right _ _)
    (by simp [idle.frames, loopBase]) (List.nil_subset _) (by simp [starts.idle.operands])
  exact ⟨s, laid, visible, apart, labelsAll_nodup apart.of_append_right⟩

def board : Arena := #[⟨.tuple [], none⟩, ⟨.list (.ref 0), none⟩, ⟨.option (.prim .u16), none⟩,
  ⟨.list (.prim .u8), none⟩]

def post : Function where
  name := "post"
  params := [("bytes", .ref 3), ("level", .ref 2), ("mark", .ref 0)]

/-- A list of empty tuples comes in. -/
def count : Function where
  name := "count"
  params := [("marks", .ref 1)]

theorem post_scoped : ∃ text, source { arena := board } {} .inward post = .ok text ∧
    ∃ s, LaidOut { arena := board } {} .inward post text s ∧ ScopedAll (s.params ++ s.areas) s.body ∧
      (s.params ++ s.areas ++ localsAll s.body).Nodup ∧ (labelsAll s.body).Nodup := by
  obtain ⟨text, compiled⟩ : ∃ text, source { arena := board } {} .inward post = .ok text := ⟨_, rfl⟩
  exact ⟨text, compiled, source_scoped compiled⟩

/-- Nothing is declared in vain. Parameters and areas are mentioned by the body, every other name by
what follows its declaration, and captures by the bodies behind them. -/
theorem source_spent (compiled : source shared place direction f = .ok text)
    (filled : direction = .inward → ∀ p ∈ f.params, ∀ id element, shared.arena.Reaches p.2 (.ref id) →
      shared.arena.kind id = .ok (.list element) → shared.arena.slots element ≠ []) :
    ∃ s, LaidOut shared place direction f text s ∧ s.params ++ s.areas ⊆ mentionsAll s.body ∧
      SpentAll [] s.body := by
  have fills : direction = .inward → ∀ ty ∈ f.params.map (·.2), shared.arena.Fills True ty := by
    intro inward ty member id element reached found _
    obtain ⟨p, inside, rfl⟩ := List.mem_map.mp member
    exact filled inward p inside id element reached found
  obtain ⟨s, laid, sig, flow, idle, mentioned⟩ := source_flows compiled fills
  have starts := start_starts shared direction f sig
  have spends := flow.spends trivial
  have nothing : pending [] s = [] := by simp [pending, idle.operands]
  refine ⟨s, laid, List.append_subset.mpr ⟨mentioned trivial, ?_⟩, nothing ▸ spends.spent⟩
  simpa [starts.areas, nothing] using spends.areas

theorem board_parts {id : Nat} {kind : Kind} (found : board.kind id = .ok kind) :
    .ref 1 ∉ kind.parts := by
  rcases id with _ | _ | _ | _ | id <;> cases found <;> decide

theorem board_list {id : Nat} {element : Ty} (found : board.kind id = .ok (.list element))
    (other : id ≠ 1) : board.slots element ≠ [] := by
  rcases id with _ | _ | _ | _ | id <;> cases found
  · exact absurd rfl other
  · decide

theorem board_reaches {ty inner : Ty} (reached : board.Reaches ty inner) (other : ty ≠ .ref 1) :
    inner ≠ .ref 1 := by
  cases reached with
  | self => exact other
  | part _ found member => exact fun same => board_parts found (same ▸ member)

theorem post_filled : ∀ p ∈ post.params, ∀ id element, board.Reaches p.2 (.ref id) →
    board.kind id = .ok (.list element) → board.slots element ≠ [] := by
  intro p member id element reached found
  have others : ∀ p ∈ post.params, p.2 ≠ .ref 1 := by decide
  exact board_list found fun same => board_reaches reached (others p member) (same ▸ rfl)

theorem post_spent : ∃ text, source { arena := board } {} .inward post = .ok text ∧
    (∀ p ∈ post.params, ∀ id element, board.Reaches p.2 (.ref id) →
      board.kind id = .ok (.list element) → board.slots element ≠ []) ∧
    ∃ s, LaidOut { arena := board } {} .inward post text s ∧ s.params ++ s.areas ⊆ mentionsAll s.body ∧
      SpentAll [] s.body := by
  obtain ⟨text, compiled⟩ : ∃ text, source { arena := board } {} .inward post = .ok text := ⟨_, rfl⟩
  exact ⟨text, compiled, post_filled, source_spent compiled fun _ => post_filled⟩

theorem count_reached : ∃ s, emission { arena := board } {} .inward count = .ok s ∧
    "arg0" ∈ s.params ∧ "arg0" ∉ mentionsAll s.body :=
  ⟨_, rfl, by decide +kernel, by decide +kernel⟩

/-- No element of the list is ever read, so the list's address is not either. -/
theorem count_unspent : ∃ text, source { arena := board } {} .inward count = .ok text ∧
    (∃ s, LaidOut { arena := board } {} .inward count text s) ∧
    ∀ s, LaidOut { arena := board } {} .inward count text s →
      "arg0" ∈ s.params ∧ "arg0" ∉ mentionsAll s.body := by
  obtain ⟨text, compiled⟩ : ∃ text, source { arena := board } {} .inward count = .ok text := ⟨_, rfl⟩
  obtain ⟨s, laid, -⟩ := source_flows compiled fun _ _ _ _ _ _ _ (never : False) => never.elim
  obtain ⟨last, reached, param, unsaid⟩ := count_reached
  refine ⟨text, compiled, ⟨s, laid⟩, fun s laid => ?_⟩
  obtain rfl : last = s := Except.ok.inj (reached.symm.trans laid.1)
  exact ⟨param, unsaid⟩

end Wrapper

end ZigBindings
