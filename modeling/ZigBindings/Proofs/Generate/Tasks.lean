import ZigBindings.Generate
import ZigBindings.Proofs.Outcome

/-! The tasks of a world come from its items, one after another, and a run of them ends well exactly
if every wrapper compiles. -/

namespace ZigBindings

namespace Generate

variable {r : Registry} {w : World} {shared : Wrapper.Shared}

theorem mem_tasks {todo : List Task} (work : tasks r w = .ok todo) {task : Task} :
    task ∈ todo ↔
      (∃ entry ∈ w.imports, ∃ own, itemTasks r .outward entry = .ok own ∧ task ∈ own) ∨
        ∃ entry ∈ w.exports, ∃ own, itemTasks r .inward entry = .ok own ∧ task ∈ own := by
  simp only [tasks, bind_eq_ok, pure_eq_ok, Except.ok.injEq] at work
  obtain ⟨imports, incoming, exports, outgoing, rfl⟩ := work
  rw [List.mem_append, mem_flatten_of_mapM incoming, mem_flatten_of_mapM outgoing]

theorem itemTasks_wrap {direction way : Direction} {entry : Key × Item} {own : List Task}
    (made : itemTasks r direction entry = .ok own) {place : Wrapper.Place} {f : Function}
    (member : .wrap way place f ∈ own) :
    way = direction ∧ ((entry.2 = .function f ∧ place = {}) ∨
      ∃ id interface, entry.2 = .interface id ∧ r.scopePath entry.1 = .ok place.path ∧
        r.linkName entry.1 = .ok place.linkName ∧ Registry.at? r.interfaces id = .ok interface ∧
          f ∈ interface.functions.map (·.2)) := by
  rw [itemTasks.eq_def] at made
  split at made
  case h_1 _ found =>
    cases made
    cases List.mem_singleton.mp member
    exact ⟨rfl, .inl ⟨found, rfl⟩⟩
  case h_2 id found =>
    simp only [bind_eq_ok, pure_eq_ok, Except.ok.injEq] at made
    obtain ⟨path, filed, linkName, linked, interface, known, rfl⟩ := made
    obtain ⟨named, inside, same⟩ := List.mem_map.mp member
    cases same
    exact ⟨rfl, .inr ⟨id, interface, found, filed, linked, known, List.mem_map_of_mem inside⟩⟩
  case h_3 id found =>
    simp only [bind_eq_ok, pure_eq_ok, Except.ok.injEq] at made
    obtain ⟨_, _, rfl⟩ := made
    cases List.mem_singleton.mp member

theorem tasks_wrap {todo : List Task} (work : tasks r w = .ok todo) {way : Direction} {place : Wrapper.Place}
    {f : Function} (member : .wrap way place f ∈ todo) :
    ∃ entry ∈ w.imports ++ w.exports, (entry.2 = .function f ∧ place = {}) ∨
      ∃ id interface, entry.2 = .interface id ∧ r.scopePath entry.1 = .ok place.path ∧
        r.linkName entry.1 = .ok place.linkName ∧ Registry.at? r.interfaces id = .ok interface ∧
          f ∈ interface.functions.map (·.2) := by
  rcases (mem_tasks work).mp member with ⟨entry, listed, own, made, inside⟩ | ⟨entry, listed, own, made, inside⟩
  · exact ⟨entry, List.mem_append_left _ listed, (itemTasks_wrap made inside).2⟩
  · exact ⟨entry, List.mem_append_right _ listed, (itemTasks_wrap made inside).2⟩

theorem scopePath_ne_nil {key : Key} {path : List String} (filed : r.scopePath key = .ok path) :
    path ≠ [] := by
  cases key with
  | name name =>
    cases filed
    exact List.cons_ne_nil _ _
  | interface id =>
    simp only [Registry.scopePath, bind_eq_ok, pure_eq_ok, Except.ok.injEq] at filed
    obtain ⟨_, _, rfl⟩ := filed
    exact List.cons_ne_nil _ _

/-- The task's wrapper, if it has one, has a source. -/
def Task.Compiles (shared : Wrapper.Shared) : Task → Prop
  | wrap direction place f => ∃ code, Wrapper.source shared place direction f = .ok code
  | skipType _ _ => True

theorem runAll_cons {c : Module.Contents} {task : Task} {rest : List Task} {c' : Module.Contents} :
    (runAll shared c (task :: rest)).2 = .ok c' ↔
      ∃ middle, task.run shared c = .ok middle ∧ (runAll shared middle rest).2 = .ok c' := by
  rw [runAll]
  cases done : task.run shared c with
  | error fault => simp [throw_eq_error]
  | ok middle => simp

theorem runAll_ok {todo : List Task} (each : ∀ task ∈ todo, task.Compiles shared)
    (c : Module.Contents) : ∃ c', (runAll shared c todo).2 = .ok c' := by
  induction todo generalizing c with
  | nil => exact ⟨c, rfl⟩
  | cons task rest ih =>
    obtain ⟨middle, done⟩ : ∃ middle, task.run shared c = .ok middle := by
      cases task with
      | wrap direction place f =>
        obtain ⟨code, compiled⟩ := each _ List.mem_cons_self
        exact ⟨_, by rw [Task.run, compiled, ok_bind]; rfl⟩
      | skipType => exact ⟨c, rfl⟩
    obtain ⟨c', others⟩ := ih (fun other member => each other (by simp [member])) middle
    exact ⟨c', runAll_cons.mpr ⟨middle, done, others⟩⟩

end Generate

end ZigBindings
