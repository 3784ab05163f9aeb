import ZigBindings.Proofs.Emission.Fresh

/-! Requests for names. The search for a numbered name tries one number after the other and ends after
as many rounds as there are names in use, plus one, because different numbers make different names. What
one request hands out was not in use before and is in use from then on, so nothing is handed out twice
in a run of requests, whatever their order, and nothing that was reserved earlier. -/

namespace ZigBindings.Emission
open Zig

/-! ### The search for a number -/

/-- The number that comes next behind a stem. -/
def count (s : Emission) (stem : String) : Nat := (s.counters.lookup stem).getD 0

def counted (s : Emission) (stem : String) (n : Nat) : Emission :=
  { s with counters := setCounter stem (n + 1) s.counters }

/-- One round of a search: the stem's counter moves on, and the name with its number is taken if it is
free. -/
def attempt (s : Emission) (stem : String) : Option String × Emission :=
  let name := numbered stem (s.count stem)
  let next := s.counted stem (s.count stem)
  if name ∈ s.used then (none, next) else (some name, next.use name)

/-- A search goes on for some rounds until one of them takes a name. -/
inductive Search (stem : String) : Emission → Nat → String → Emission → Prop where
  | found {s s' : Emission} {name : String} (taken : s.attempt stem = (some name, s')) :
      Search stem s 1 name s'
  | again {s next s' : Emission} {rounds : Nat} {name : String}
      (missed : s.attempt stem = (none, next)) (rest : Search stem next rounds name s') :
      Search stem s (rounds + 1) name s'

theorem Search.unique {stem name other : String} {s s' t : Emission} {rounds more : Nat}
    (first : Search stem s rounds name s') (second : Search stem s more other t) :
    rounds = more ∧ name = other ∧ s' = t := by
  induction first generalizing more with
  | found taken =>
    cases second with
    | found also => simpa [taken] using also
    | again missed => simp [taken] at missed
  | again missed _ ih =>
    cases second with
    | found taken => simp [missed] at taken
    | again also rest =>
      obtain rfl : _ = _ := (Prod.mk.inj (missed.symm.trans also)).2
      obtain ⟨rfl, same⟩ := ih rest
      exact ⟨rfl, same⟩

theorem lookup_setCounter (stem : String) (n : Nat) (counters : List (String × Nat)) :
    (setCounter stem n counters).lookup stem = some n := by
  induction counters with
  | nil => simp [setCounter]
  | cons counter rest ih =>
    obtain ⟨other, m⟩ := counter
    rw [setCounter]
    split
    case isTrue => simp
    case isFalse differ => rw [List.lookup_cons, beq_false_of_ne (Ne.symm differ), ih]

theorem setCounter_setCounter (stem : String) (n m : Nat) (counters : List (String × Nat)) :
    setCounter stem m (setCounter stem n counters) = setCounter stem m counters := by
  induction counters with
  | nil => simp [setCounter]
  | cons counter rest ih =>
    obtain ⟨other, k⟩ := counter
    by_cases same : other = stem
    · simp [setCounter, same]
    · simp [setCounter, same, ih]

section
variable (s : Emission) (stem : String) (n : Nat)

@[simp] theorem counted_used : (s.counted stem n).used = s.used := rfl

@[simp] theorem count_counted : (s.counted stem n).count stem = n + 1 := by
  rw [count, counted, lookup_setCounter, Option.getD_some]

@[simp] theorem counted_counted (m : Nat) : (s.counted stem n).counted stem m = s.counted stem m := by
  simp only [counted, setCounter_setCounter]

end

theorem search_freeNumber (s : Emission) (stem : String) (tries : Nat) {n : Nat}
    (free : numbered stem (freeNumber s.used stem (s.count stem) tries) ∉ s.used)
    (number : freeNumber s.used stem (s.count stem) tries = n) :
    ∃ rounds ≤ tries + 1, Search stem s rounds (numbered stem n) ((s.counted stem n).use (numbered stem n)) := by
  induction tries generalizing s with
  | zero =>
    rw [freeNumber] at free number
    subst number
    exact ⟨1, Nat.le_refl 1, .found (if_neg free)⟩
  | succ tries ih =>
    rw [freeNumber] at free number
    split at free
    case isTrue taken =>
      have missed : s.attempt stem = (none, s.counted stem (s.count stem)) :=
        if_pos (List.contains_iff_mem.mp taken)
      have behind := ih (s.counted stem (s.count stem))
      simp only [counted_used, count_counted, counted_counted] at behind
      obtain ⟨rounds, few, rest⟩ := behind free (by rwa [if_pos taken] at number)
      exact ⟨rounds + 1, by omega, .again missed rest⟩
    case isFalse unused =>
      rw [if_neg unused] at number
      subst number
      exact ⟨1, by omega, .found (if_neg free)⟩

/-- A search ends, and with nothing else than the name and the state that are computed. -/
theorem search_iff (s : Emission) (stem : String) :
    ∃ rounds ≤ s.used.length + 1, ∀ k name s',
      Search stem s k name s' ↔ k = rounds ∧ s.tmp stem = (name, s') := by
  obtain ⟨rounds, few, search⟩ := s.search_freeNumber stem _ (s.tmp_unused stem) rfl
  refine ⟨rounds, few, fun k name s' => ⟨fun other => ?_, ?_⟩⟩
  · obtain ⟨rfl, rfl, rfl⟩ := search.unique other
    exact ⟨rfl, rfl⟩
  · rintro ⟨rfl, computed⟩
    obtain ⟨rfl, rfl⟩ := Prod.mk.inj computed
    exact search

/-- A name that is asked for is taken as it is, or a search for its number ends. -/
theorem fresh_searched (s : Emission) (name : String) :
    name ∉ s.used ∧ s.fresh name = (name, s.use name) ∨
      name ∈ s.used ∧ ∃ rounds ≤ s.used.length + 1, Search name s rounds (s.fresh name).1 (s.fresh name).2 := by
  by_cases taken : name ∈ s.used
  · obtain ⟨rounds, few, search⟩ := s.search_iff name
    have same : s.fresh name = s.tmp name := if_pos (List.contains_iff_mem.mpr taken)
    exact .inr ⟨taken, rounds, few, (search rounds _ _).mpr ⟨rfl, same.symm⟩⟩
  · exact .inl ⟨taken, if_neg (by rwa [List.contains_iff_mem])⟩

/-! ### Requests -/

/-- Names have been handed out between two states: each once, none of them in use before, and all of them
in use from then on. -/
structure Granted (s s' : Emission) (names : List String) : Prop where
  grows : s.used ⊆ s'.used
  taken : names ⊆ s'.used
  apart : names.Nodup
  unused : ∀ x ∈ names, x ∉ s.used

namespace Granted

variable {s s' s'' : Emission} {first second : List String} {name : String}

theorem none (grows : s.used ⊆ s'.used) : Granted s s' [] :=
  ⟨grows, List.nil_subset _, .nil, by simp⟩

theorem single (unused : name ∉ s.used) (used : ∀ x, x ∈ s'.used ↔ x ∈ s.used ∨ x = name) :
    Granted s s' [name] where
  grows x member := (used x).mpr (.inl member)
  taken x member := (used x).mpr (.inr (List.mem_singleton.mp member))
  apart := List.nodup_singleton name
  unused x member := by rwa [List.mem_singleton.mp member]

theorem trans (left : Granted s s' first) (right : Granted s' s'' second) :
    Granted s s'' (first ++ second) where
  grows _ member := right.grows (left.grows member)
  taken := List.append_subset.mpr ⟨fun _ member => right.grows (left.taken member), right.taken⟩
  apart := by
    refine List.nodup_append.mpr ⟨left.apart, right.apart, ?_⟩
    rintro x member _ again rfl
    exact right.unused x again (left.taken member)
  unused x member := (List.mem_append.mp member).elim (left.unused x) fun later known =>
    right.unused x later (left.grows known)

end Granted

theorem tmp_granted (s : Emission) (stem : String) : Granted s (s.tmp stem).2 [(s.tmp stem).1] :=
  .single (s.tmp_unused stem) fun _ => s.mem_tmp stem

theorem fresh_granted (s : Emission) (name : String) : Granted s (s.fresh name).2 [(s.fresh name).1] :=
  .single (s.fresh_unused name) fun _ => s.mem_fresh name

theorem freshAll_granted (s : Emission) (names : List String) :
    Granted s (s.freshAll names).2 (s.freshAll names).1 := by
  induction names generalizing s with
  | nil => exact .none fun _ => id
  | cons name rest ih => exact (s.fresh_granted name).trans (ih _)

theorem mem_freshAll (s : Emission) (names : List String) {x : String} :
    x ∈ (s.freshAll names).2.used ↔ x ∈ s.used ∨ x ∈ (s.freshAll names).1 := by
  induction names generalizing s with
  | nil => simp [freshAll]
  | cons name rest ih => rw [freshAll, ih, mem_fresh, List.mem_cons, or_assoc]

/-- What is asked of the names of an emission. -/
inductive Request where
  | reserve (names : List String)
  | fresh (name : String)
  | tmp (stem : String)
  | bindParams (names : List String)
  | materialize (value : Expr) (stem : String)

namespace Request

/-- The names that a request reserves. -/
def reserved : Request → List String
  | reserve names => names
  | fresh _ | tmp _ | bindParams _ | materialize _ _ => []

end Request

/-- The names that a request hands out, and the state after it. A value that is a plain name already
stays as it is and takes no other name. -/
def serve (s : Emission) : Request → List String × Emission
  | .reserve names => ([], s.reserve names)
  | .fresh name =>
    let (name, s) := s.fresh name
    ([name], s)
  | .tmp stem =>
    let (name, s) := s.tmp stem
    ([name], s)
  | .bindParams names =>
    let s := s.bindParams names
    (s.params, s)
  | .materialize value stem =>
    let (known, s) := s.materialize value stem
    (if Name.isPlain value.render.toList then [] else [known.render], s)

/-- The names that a run of requests hands out, in order. -/
def serveAll (s : Emission) : List Request → List String × Emission
  | [] => ([], s)
  | request :: rest =>
    let (names, s) := s.serve request
    let (others, s) := s.serveAll rest
    (names ++ others, s)

theorem serve_materialize (s : Emission) (value : Expr) (stem : String) :
    s.serve (.materialize value stem) = if Name.isPlain value.render.toList then ([], s)
      else ([(s.tmp stem).1], (s.tmp stem).2.write (.const (s.tmp stem).1 none value)) := by
  by_cases plain : Name.isPlain value.render.toList = true
  · simp only [serve, materialize, plain, if_true]
  · simp only [serve, materialize, plain]
    rfl

theorem serve_granted (s : Emission) (request : Request) :
    Granted s (s.serve request).2 (s.serve request).1 := by
  cases request with
  | reserve names => exact .none fun x member => (s.mem_reserve).mpr (.inl member)
  | fresh name => exact s.fresh_granted name
  | tmp stem => exact s.tmp_granted stem
  | bindParams names =>
    have bound := s.freshAll_granted names
    exact ⟨bound.grows, bound.taken, bound.apart, bound.unused⟩
  | materialize value stem =>
    rw [serve_materialize]
    split
    · exact .none fun _ => id
    · have named := s.tmp_granted stem
      exact ⟨named.grows, named.taken, named.apart, named.unused⟩

theorem mem_serve (s : Emission) (request : Request) {x : String} :
    x ∈ (s.serve request).2.used ↔
      x ∈ s.used ∨ x ∈ request.reserved ∨ x ∈ (s.serve request).1 := by
  cases request with
  | reserve names => simp [serve, Request.reserved, mem_reserve]
  | fresh name => simp [serve, Request.reserved, mem_fresh]
  | tmp stem => simp [serve, Request.reserved, mem_tmp]
  | bindParams names => simp [serve, Request.reserved, bindParams, mem_freshAll]
  | materialize value stem =>
    rw [serve_materialize]
    split
    · simp [Request.reserved]
    · simp [Request.reserved, write, mem_tmp]

theorem serveAll_granted (s : Emission) (requests : List Request) :
    Granted s (s.serveAll requests).2 (s.serveAll requests).1 := by
  induction requests generalizing s with
  | nil => exact .none fun _ => id
  | cons request rest ih => exact (s.serve_granted request).trans (ih _)

theorem mem_serveAll (s : Emission) (requests : List Request) {x : String} :
    x ∈ (s.serveAll requests).2.used ↔
      x ∈ s.used ∨ x ∈ requests.flatMap Request.reserved ∨ x ∈ (s.serveAll requests).1 := by
  induction requests generalizing s with
  | nil => simp [serveAll]
  | cons request rest ih =>
    rw [serveAll, ih, mem_serve, List.flatMap_cons, List.mem_append, List.mem_append]
    tauto

/-- Names are allotted without collisions. In every state a search ends, after no more rounds than names
are in use and one, and with what is computed for it; a name that is asked for is taken as it is, or the
search behind it begins. A run of requests keeps the names in use, hands out new ones only and none of
them twice, and takes nothing else into use but what is reserved. So it is with each request that follows,
and what it hands out was neither reserved nor handed out by the requests before it. -/
theorem names_allotted (s : Emission) (requests : List Request) :
    (∀ stem, ∃ rounds ≤ s.used.length + 1, ∀ k name s',
      Search stem s k name s' ↔ k = rounds ∧ s.tmp stem = (name, s')) ∧
    (∀ name, name ∉ s.used ∧ s.fresh name = (name, s.use name) ∨
      name ∈ s.used ∧ ∃ rounds ≤ s.used.length + 1, Search name s rounds (s.fresh name).1 (s.fresh name).2) ∧
    Granted s (s.serveAll requests).2 (s.serveAll requests).1 ∧
    (∀ x, x ∈ (s.serveAll requests).2.used ↔
      x ∈ s.used ∨ x ∈ requests.flatMap Request.reserved ∨ x ∈ (s.serveAll requests).1) ∧
    ∀ request, Granted (s.serveAll requests).2 ((s.serveAll requests).2.serve request).2
        ((s.serveAll requests).2.serve request).1 ∧
      ∀ x ∈ ((s.serveAll requests).2.serve request).1,
        x ∉ requests.flatMap Request.reserved ∧ x ∉ (s.serveAll requests).1 := by
  refine ⟨s.search_iff, s.fresh_searched, s.serveAll_granted requests, fun x => s.mem_serveAll requests,
    fun request => ?_⟩
  have granted := (s.serveAll requests).2.serve_granted request
  refine ⟨granted, fun x given => ?_⟩
  have unused := granted.unused x given
  rw [mem_serveAll] at unused
  exact ⟨fun reserved => unused (.inr (.inl reserved)), fun handed => unused (.inr (.inr handed))⟩

/-- Ten numbers of `arg` have been tried. The next one makes the same name as the first of `arg1`, and the
one behind it is reserved. -/
theorem names_allotted_across_stems :
    let s : Emission := { counters := [("arg", 10)] }
    let before : List Request := [.reserve ["arg11"], .tmp "arg1"]
    (s.serveAll before).1 = ["arg10"] ∧
      Granted (s.serveAll before).2 ((s.serveAll before).2.tmp "arg").2 ["arg12"] ∧
      ("arg12" : String) ∉ ["arg10"] ∧
      ∃ rounds ≤ 3, Search "arg" (s.serveAll before).2 rounds "arg12" ((s.serveAll before).2.tmp "arg").2 := by
  intro s before
  have handed : (s.serveAll before).1 = ["arg10"] := by decide
  have name : ((s.serveAll before).2.tmp "arg").1 = "arg12" := by decide
  have used : (s.serveAll before).2.used.length = 2 := by decide
  obtain ⟨-, -, -, -, next⟩ := names_allotted s before
  obtain ⟨granted, earlier⟩ := next (.tmp "arg")
  obtain ⟨searches, -⟩ := names_allotted (s.serveAll before).2 []
  obtain ⟨rounds, few, search⟩ := searches "arg"
  refine ⟨handed, ?_, ?_, rounds, by omega, (search rounds _ _).mpr ⟨rfl, Prod.ext name rfl⟩⟩
  · rw [← name]
    exact granted
  · rw [← handed]
    exact (earlier _ (List.mem_singleton.mpr name.symm)).2

end ZigBindings.Emission
