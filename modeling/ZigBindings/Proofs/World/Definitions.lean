import Mathlib.Algebra.BigOperators.Group.List.Basic
import ZigBindings.Proofs.World.Drafts

/-! Named types may be defined in any order. What a definition comes to depends on the declared names
only, so in the end the same definitions stand in both arenas, under other numbers. -/

namespace ZigBindings

/-! ### Runs -/

section
variable {σ ι : Type} {step : σ → ι → Except Fault σ} {stage : List ι → σ → Prop} {s t : σ} {xs : List ι}

/-- A run whose steps can all be made comes to an end. The stage may depend on the steps made so far. -/
theorem foldlM_ok (each : ∀ before x after, xs = before ++ x :: after → ∀ u, stage before u →
    ∃ v, step u x = .ok v ∧ stage (before ++ [x]) v) (start : stage [] s) : ∃ t, xs.foldlM step s = .ok t := by
  suffices from_here : ∀ before after, xs = before ++ after → ∀ u, stage before u →
      ∃ t, after.foldlM step u = .ok t from from_here [] xs rfl s start
  intro before after split u staged
  induction after generalizing before u with
  | nil => exact ⟨u, rfl⟩
  | cons x rest ih =>
    obtain ⟨v, first, next⟩ := each before x rest split u staged
    obtain ⟨t, others⟩ := ih (before ++ [x]) (by simp [split]) v next
    exact ⟨t, by rw [List.foldlM_cons, first, ok_bind, others]⟩

section
variable (keeps : ∀ before x after, xs = before ++ x :: after → ∀ u v, stage before u → step u x = .ok v →
  stage (before ++ [x]) v) (start : stage [] s) (done : xs.foldlM step s = .ok t)
include keeps start done

theorem foldlM_event : ∀ x ∈ xs, ∃ before after u v, xs = before ++ x :: after ∧ stage before u ∧
    step u x = .ok v ∧ after.foldlM step v = .ok t := by
  suffices from_here : ∀ before after, xs = before ++ after → ∀ u, stage before u → after.foldlM step u = .ok t →
      ∀ x ∈ after, ∃ before after u v, xs = before ++ x :: after ∧ stage before u ∧ step u x = .ok v ∧
        after.foldlM step v = .ok t from from_here [] xs rfl s start done
  intro before after split u staged done
  induction after generalizing before u with
  | nil => exact fun x member => by cases member
  | cons y rest ih =>
    rw [List.foldlM_cons, bind_eq_ok] at done
    obtain ⟨v, first, others⟩ := done
    refine List.forall_mem_cons.mpr ⟨⟨before, rest, u, v, split, staged, first, others⟩, ?_⟩
    exact ih (before ++ [y]) (by simp [split]) v (keeps before y rest split u v staged first) others

theorem foldlM_grows (measure : σ → Nat) (grow : ι → Nat) (each : ∀ before x after, xs = before ++ x :: after →
    ∀ u v, stage before u → step u x = .ok v → measure v = measure u + grow x) :
    measure t = measure s + (xs.map grow).sum := by
  suffices from_here : ∀ before after, xs = before ++ after → ∀ u, stage before u → after.foldlM step u = .ok t →
      measure t = measure u + (after.map grow).sum from from_here [] xs rfl s start done
  intro before after split u staged done
  induction after generalizing before u with
  | nil =>
    cases done
    rfl
  | cons x rest ih =>
    rw [List.foldlM_cons, bind_eq_ok] at done
    obtain ⟨v, first, others⟩ := done
    rw [ih (before ++ [x]) (by simp [split]) v (keeps before x rest split u v staged first) others,
      each before x rest split u v staged first, List.map_cons, List.sum_cons, Nat.add_assoc]

end

end

/-! ### Relations between arenas -/

variable {R₀ R S : Nat → Nat → Prop} {a b x y : Arena}

def Mirrors (R : Nat → Nat → Prop) (a b : Arena) : Prop :=
  ∀ i j, R i j → ∃ d e, a[i]? = some d ∧ b[j]? = some e ∧ d.Alike R e

theorem TypeDef.Alike.mono {d e : TypeDef} (alike : d.Alike R e) (wider : ∀ i j, R i j → S i j) : d.Alike S e :=
  ⟨alike.kind.mono wider, alike.name⟩

theorem Covers.appends (covers : Covers R₀ R a b) (left : a.Appends x) (right : b.Appends y) : Covers R₀ R x y :=
  fun i j same => (covers i j same).imp_right fun ⟨d, e, first, second, alike⟩ =>
    ⟨d, e, left.found first, right.found second, alike⟩

/-- All that can be related on the ground of the base relation. -/
def Covered (R₀ : Nat → Nat → Prop) (a b : Arena) (i j : Nat) : Prop :=
  ∃ S, Covers R₀ S a b ∧ S i j

theorem covers_covered (R₀ : Nat → Nat → Prop) (a b : Arena) : Covers R₀ (Covered R₀ a b) a b := by
  rintro i j ⟨S, covers, same⟩
  refine (covers i j same).imp_right ?_
  rintro ⟨d, e, left, right, alike⟩
  exact ⟨d, e, left, right, alike.mono fun _ _ same => ⟨S, covers, same⟩⟩

theorem covered_of_base {i j : Nat} (same : R₀ i j) : Covered R₀ a b i j :=
  ⟨R₀, fun _ _ same => .inl same, same⟩

theorem mirrors_covered (base : ∀ i j, R₀ i j → ∃ d e, a[i]? = some d ∧ b[j]? = some e ∧ d.Alike (Covered R₀ a b) e) :
    Mirrors (Covered R₀ a b) a b := fun i j same =>
  (covers_covered R₀ a b i j same).elim (base i j) id

theorem Mirrors.covered (mirrors : Mirrors R a b) (left : a.Appends x) (right : b.Appends y) :
    Mirrors (Covered R x y) x y := mirrors_covered fun i j same => by
  obtain ⟨d, e, first, second, alike⟩ := mirrors i j same
  exact ⟨d, e, left.found first, right.found second, alike.mono fun _ _ => covered_of_base⟩

theorem Mirrors.twins (mirrors : Mirrors R a b) (size : a.size = b.size) : Twins R a b where
  size := size
  kinds i j same := by
    obtain ⟨d, e, first, second, alike⟩ := mirrors i j same
    rw [Arena.kind, Arena.kind, Arena.typedef, Arena.typedef, first, second]
    exact .ok alike.kind

namespace World
open TypeExpr

/-! ### One definition -/

/-- A draft while its named types are defined. The first places of its arena are theirs. -/
structure Staged (declared : Declared) (bound : Nat) (d : Draft) : Prop where
  table : d.declared = declared
  tagged : Tagged declared d.registry.types
  bound : bound ≤ d.registry.types.size

theorem tables_shares {declared others : Declared}
    (names : ∀ name, (declared.lookup name).isSome = (others.lookup name).isSome) :
    Tables (Shares declared others) declared others := fun name => by
  have same := names name
  cases known : declared.lookup name with
  | none =>
    cases there : others.lookup name with
    | none => exact .none
    | some => simp [known, there] at same
  | some id =>
    cases there : others.lookup name with
    | none => simp [known, there] at same
    | some other => exact .some ⟨name, known, there⟩

def Draft.settle (d : Draft) (id : Nat) (definition : TypeDef) : Draft :=
  { d with registry := { d.registry with types := d.registry.types.setIfInBounds id definition } }

theorem Draft.settle_size (d : Draft) (id : Nat) (definition : TypeDef) :
    (d.settle id definition).registry.types.size = d.registry.types.size := Array.size_setIfInBounds

section
variable {declared others : Declared} {bound limit : Nat} {d e m k : Draft} {name : String} {id other : Nat}
  {kind : Kind} {body : Document}

theorem Staged.settle (staged : Staged declared bound d) (known : declared.lookup name = some id) (kind : Kind) :
    Staged declared bound (d.settle id ⟨kind, some name⟩) where
  table := staged.table
  tagged other number there := by
    obtain ⟨old, found⟩ := staged.tagged other number there
    by_cases same : id = number
    · subst same
      cases staged.tagged.injective known there
      exact ⟨kind, Array.getElem?_setIfInBounds_self_of_lt (staged.tagged.inside known)⟩
    · exact ⟨old, (Array.getElem?_setIfInBounds_ne same).trans found⟩
  bound := by
    rw [Draft.settle_size]
    exact staged.bound

theorem Staged.definition_alike (left : Staged declared bound d) (right : Staged others limit e)
    (names : ∀ name, (declared.lookup name).isSome = (others.lookup name).isSome)
    (known : declared.lookup name = some id) (there : others.lookup name = some other) (body : Document) :
    Agree (Along (Shares declared others) (Shares declared others) d e Kind.Alike)
      (d.definition name id body) (e.definition name other body) := by
  obtain ⟨rfl, tagged, -⟩ := left
  obtain ⟨rfl, also, -⟩ := right
  exact World.definition_alike (tables_shares names) tagged also known there body

theorem Staged.define (staged : Staged declared bound d) (known : declared.lookup name = some id)
    (done : d.define name body = .ok m) : ∃ kind v, d.definition name id body = .ok (kind, v) ∧
      d.registry.types.Appends v.registry.types ∧ Staged declared bound v ∧ m = v.settle id ⟨kind, some name⟩ := by
  rw [Draft.define, staged.table, known, Option.getD_some] at done
  obtain ⟨⟨kind, v⟩, read, done⟩ := bind_eq_ok.mp done
  obtain ⟨_, again, added, -, _, step, -⟩ :=
    (staged.definition_alike staged (fun _ => rfl) known known body).of_ok read
  cases read.symm.trans again
  cases done
  exact ⟨kind, v, read, step.left, ⟨added.declared.trans staged.table, staged.tagged.appends step.left,
    staged.bound.trans step.left.size⟩, rfl⟩

theorem define_alike (left : Staged declared bound d) (right : Staged others limit e)
    (names : ∀ name, (declared.lookup name).isSome = (others.lookup name).isSome)
    (known : declared.lookup name = some id) (there : others.lookup name = some other) (body : Document) :
    Agree (fun m k => d.registry.types.size ≤ m.registry.types.size ∧
        m.registry.types.size + e.registry.types.size = k.registry.types.size + d.registry.types.size)
      (d.define name body) (e.define name body) := by
  rw [Draft.define, Draft.define, left.table, right.table, known, there]
  refine (left.definition_alike right names known there body).bind fun _ _ ⟨_, _, S, step, _⟩ => .pure ?_
  simp only [Array.size_setIfInBounds]
  exact ⟨step.left.size, step.level⟩

end

/-! ### All definitions -/

def growth (step : Draft → Scalar × Document → Except Fault Draft) (d : Draft) (entry : Scalar × Document) : Nat :=
  ((step d entry).toOption.map (·.registry.types.size)).getD 0 - d.registry.types.size

theorem growth_eq {step : Draft → Scalar × Document → Except Fault Draft} {d e t : Draft} {entry : Scalar × Document}
    (alike : Agree (fun m k => d.registry.types.size ≤ m.registry.types.size ∧
      m.registry.types.size + e.registry.types.size = k.registry.types.size + d.registry.types.size)
      (step d entry) (step e entry)) (made : step e entry = .ok t) :
    t.registry.types.size = e.registry.types.size + growth step d entry := by
  obtain ⟨m, first, le, level⟩ := alike.symm.of_ok made
  rw [growth, first]
  simp only [Except.toOption, Option.map_some, Option.getD_some]
  omega

abbrev Draft.defineNext (d : Draft) (entry : Scalar × Document) : Except Fault Draft :=
  d.define entry.1.display entry.2

/-- Every entry has a place kept for its name, and no two of them have the same. -/
structure Reserves (declared : Declared) (entries : Entries) : Prop where
  apart : (entries.map (·.1.display)).Nodup
  names : ∀ name, (declared.lookup name).isSome ↔ name ∈ entries.map (·.1.display)

section
variable {declared others : Declared} {bound limit : Nat} {d e t : Draft} {entries shuffled : Entries}

theorem Reserves.known (reserves : Reserves declared entries) {entry : Scalar × Document} (member : entry ∈ entries) :
    ∃ id, declared.lookup entry.1.display = some id :=
  Option.isSome_iff_exists.mp ((reserves.names _).mpr (List.mem_map_of_mem member))

theorem Reserves.keeps (reserves : Reserves declared entries) {entry : Scalar × Document} (member : entry ∈ entries)
    {u v : Draft} (staged : Staged declared bound u) (made : u.defineNext entry = .ok v) : Staged declared bound v := by
  obtain ⟨id, place⟩ := reserves.known member
  obtain ⟨kind, w, -, -, next, rfl⟩ := staged.define place made
  exact next.settle place kind

theorem Reserves.keeps_all (reserves : Reserves declared entries) : ∀ before entry after,
    entries = before ++ entry :: after → ∀ u v, Staged declared bound u → u.defineNext entry = .ok v →
      Staged declared bound v :=
  fun _ _ _ split _ _ staged made => reserves.keeps (by simp [split]) staged made

theorem Staged.defines (staged : Staged declared bound d)
    (known : ∀ entry ∈ entries, ∃ id, declared.lookup entry.1.display = some id)
    (done : entries.foldlM Draft.defineNext d = .ok t) : Staged declared bound t ∧
      ∀ i, i < d.registry.types.size → (∀ entry ∈ entries, declared.lookup entry.1.display ≠ some i) →
        t.registry.types[i]? = d.registry.types[i]? := by
  induction entries generalizing d with
  | nil =>
    cases done
    exact ⟨staged, fun _ _ _ => rfl⟩
  | cons entry rest ih =>
    rw [List.foldlM_cons, bind_eq_ok] at done
    obtain ⟨m, first, others⟩ := done
    obtain ⟨id, place⟩ := known entry List.mem_cons_self
    obtain ⟨kind, v, -, appends, next, rfl⟩ := staged.define place first
    obtain ⟨ends, kept⟩ := ih (next.settle place kind)
      (fun other member => known other (List.mem_cons_of_mem _ member)) others
    refine ⟨ends, fun i inside free => ?_⟩
    have differ : id ≠ i := fun same => free entry List.mem_cons_self (same ▸ place)
    have within := v.settle_size id ⟨kind, some entry.1.display⟩ ▸ inside.trans_le appends.size
    rw [kept i within fun other member => free other (List.mem_cons_of_mem _ member)]
    exact (Array.getElem?_setIfInBounds_ne differ).trans (appends.kept i inside)

theorem Staged.defined (staged : Staged declared bound d) (reserves : Reserves declared entries)
    (inside : ∀ name id, declared.lookup name = some id → id < bound)
    (done : entries.foldlM Draft.defineNext d = .ok t) {entry : Scalar × Document} (member : entry ∈ entries)
    {id : Nat} (place : declared.lookup entry.1.display = some id) :
    ∃ u kind v, Staged declared bound u ∧
      u.definition entry.1.display id entry.2 = .ok (kind, v) ∧
      t.registry.types[id]? = some ⟨kind, some entry.1.display⟩ ∧
      ∀ i, bound ≤ i → i < v.registry.types.size → t.registry.types[i]? = v.registry.types[i]? := by
  obtain ⟨before, after, u, m, rfl, staged, made, ends⟩ := foldlM_event reserves.keeps_all staged done entry member
  obtain ⟨kind, v, read, -, next, rfl⟩ := staged.define place made
  have known : ∀ other ∈ after, ∃ id, declared.lookup other.1.display = some id :=
    fun other behind => reserves.known (by simp [behind])
  obtain ⟨-, kept⟩ := (next.settle place kind).defines known ends
  have size := v.settle_size id ⟨kind, some entry.1.display⟩
  have within := next.tagged.inside place
  refine ⟨u, kind, v, staged, read, ?_, fun i above below => ?_⟩
  · rw [kept id (size ▸ within) fun other behind there => ?_]
    · exact Array.getElem?_setIfInBounds_self_of_lt within
    · have same := next.tagged.injective place there
      have apart := reserves.apart
      rw [List.map_append, List.map_cons, List.nodup_append] at apart
      exact (List.nodup_cons.mp apart.2.1).1 (same ▸ List.mem_map_of_mem behind)
  · have other : ∀ name, declared.lookup name ≠ some i := fun name there => by
      have := inside name i there
      omega
    rw [kept i (size ▸ below) fun entry _ => other _]
    exact Array.getElem?_setIfInBounds_ne fun same => other _ (same ▸ place)

/-- A definition makes as many types wherever it is read. -/
theorem Staged.growth_eq (left : Staged declared bound d) (right : Staged others limit e)
    (names : ∀ name, (declared.lookup name).isSome = (others.lookup name).isSome) {entry : Scalar × Document}
    {id other : Nat} (known : declared.lookup entry.1.display = some id)
    (there : others.lookup entry.1.display = some other) (made : e.defineNext entry = .ok t) :
    t.registry.types.size = e.registry.types.size + growth Draft.defineNext d entry :=
  World.growth_eq (define_alike left right names known there entry.2) made

section
variable (left : Staged declared bound d) (right : Staged others limit e) (reserves : Reserves declared entries)
  (also : Reserves others shuffled) (perm : entries.Perm shuffled)
  (names : ∀ name, (declared.lookup name).isSome = (others.lookup name).isSome)
include left right reserves also perm names

/-- If all definitions can be read in one order, they can be read in the other. -/
theorem Staged.shuffled_ok (done : entries.foldlM Draft.defineNext d = .ok t) :
    ∃ k, shuffled.foldlM Draft.defineNext e = .ok k := by
  refine @foldlM_ok _ _ _ (fun _ => Staged others limit) _ _ (fun before entry after split u staged => ?_) right
  have member : entry ∈ shuffled := by simp [split]
  have listed := perm.mem_iff.mpr member
  obtain ⟨id, known⟩ := reserves.known listed
  obtain ⟨other, there⟩ := also.known member
  obtain ⟨-, -, v, m, -, before, made, -⟩ := foldlM_event reserves.keeps_all left done entry listed
  obtain ⟨n, again, -⟩ := (define_alike before staged names known there entry.2).of_ok made
  exact ⟨n, again, also.keeps member staged again⟩

variable {k : Draft} (done : entries.foldlM Draft.defineNext d = .ok t)
  (shuffles : shuffled.foldlM Draft.defineNext e = .ok k)
include done shuffles

theorem Staged.shuffled_size (size : d.registry.types.size = e.registry.types.size) :
    t.registry.types.size = k.registry.types.size := by
  have first := foldlM_grows reserves.keeps_all left done (fun d : Draft => d.registry.types.size)
    (growth Draft.defineNext d) fun before entry after split u v staged made => by
      have member : entry ∈ entries := by simp [split]
      obtain ⟨id, known⟩ := reserves.known member
      exact left.growth_eq staged (fun _ => rfl) known known made
  have second := foldlM_grows also.keeps_all right shuffles (fun d : Draft => d.registry.types.size)
    (growth Draft.defineNext d) fun before entry after split u v staged made => by
      have member : entry ∈ shuffled := by simp [split]
      obtain ⟨id, known⟩ := reserves.known (perm.mem_iff.mpr member)
      obtain ⟨other, there⟩ := also.known member
      exact left.growth_eq staged names known there made
  rw [first, second, size, (perm.map (growth Draft.defineNext d)).sum_eq]

/-- In the end the same definitions stand under the same names. -/
theorem Staged.shuffled_mirrors (inside : ∀ name id, declared.lookup name = some id → id < bound)
    (within : ∀ name id, others.lookup name = some id → id < limit) :
    Mirrors (Covered (Shares declared others) t.registry.types k.registry.types) t.registry.types k.registry.types := by
  refine mirrors_covered fun i j ⟨name, known, there⟩ => ?_
  obtain ⟨entry, member, rfl⟩ : ∃ entry ∈ entries, entry.1.display = name :=
    List.mem_map.mp ((reserves.names name).mp (by rw [known]; rfl))
  obtain ⟨u, kind, v, first, read, settled, kept⟩ := left.defined reserves inside done member known
  obtain ⟨w, kind', x, second, again, beside, stays⟩ :=
    right.defined also within shuffles (perm.mem_iff.mp member) there
  obtain ⟨_, same, -, -, S, step, alike⟩ := (first.definition_alike second names known there entry.2).of_ok read
  cases same.symm.trans again
  refine ⟨_, _, settled, beside, alike.mono fun p q same => ⟨S, fun p q same => ?_, same⟩, rfl⟩
  rcases step.new p q same with shared | ⟨behind, beyond⟩
  · exact .inl shared
  · refine (step.covers p q same).imp_right ?_
    rintro ⟨x, y, here, opposite, alike⟩
    refine ⟨x, y, ?_, ?_, alike⟩
    · rw [kept p (first.bound.trans behind) (Array.getElem?_eq_some_iff.mp here).1, here]
    · rw [stays q (second.bound.trans beyond) (Array.getElem?_eq_some_iff.mp opposite).1, opposite]

end

end

/-! ### Declarations -/

/-- The names are declared, each with a place in the arena, and nothing else is there. -/
structure Declares (names : List String) (d : Draft) : Prop where
  listed : ∀ name, (d.declared.lookup name).isSome ↔ name ∈ names
  tagged : Tagged d.declared d.registry.types
  size : d.registry.types.size = names.length

theorem Declares.declare {names : List String} {d : Draft} (declares : Declares names d) (name : String) :
    Declares (names ++ [name]) (d.declare name) where
  listed other := by
    simp only [Draft.declare, lookup_put, List.mem_append, List.mem_singleton, ← declares.listed other]
    by_cases same : other = name <;> simp [same]
  tagged other id known := by
    simp only [Draft.declare, Registry.addType, lookup_put] at known ⊢
    split at known
    case isTrue same =>
      cases known
      exact ⟨.resource, by rw [same, Array.getElem?_push_size]⟩
    case isFalse =>
      obtain ⟨kind, found⟩ := declares.tagged other id known
      exact ⟨kind, (Arena.Appends.push _ _).found found⟩
  size := by simp [Draft.declare, Registry.addType, declares.size]

theorem Declares.fold {before : List String} {d : Draft} (declares : Declares before d) (names : List String) :
    Declares (before ++ names) (names.foldl Draft.declare d) := by
  induction names generalizing before d with
  | nil => simpa using declares
  | cons name rest ih => simpa using ih (declares.declare name)

theorem Declares.start {d : Draft} (declared : d.declared = []) (types : d.registry.types = #[]) : Declares [] d where
  listed name := by simp [declared]
  tagged name id known := by
    rw [declared] at known
    cases known
  size := by simp [types]

/-! ### The types of a description -/

/-- The same entries in another order, under keys that are different texts; or no mapping at all. -/
inductive Shuffled : Option Document → Option Document → Prop where
  | same {part : Option Document} : (∀ entries, part ≠ some (.mapping entries)) → Shuffled part part
  | mapping {entries others : Entries} : entries.Perm others → (∀ entry ∈ entries, ∃ name, entry.1 = .text name) →
    (entries.map (·.1)).Nodup → Shuffled (some (.mapping entries)) (some (.mapping others))

theorem Shuffled.symm {part other : Option Document} (shuffled : Shuffled part other) : Shuffled other part := by
  cases shuffled with
  | same plain => exact .same plain
  | mapping perm texts apart =>
    exact .mapping perm.symm (fun entry member => texts entry (perm.mem_iff.mpr member))
      ((perm.map _).nodup_iff.mp apart)

theorem display_nodup {entries : Entries} (texts : ∀ entry ∈ entries, ∃ name, entry.1 = .text name)
    (apart : (entries.map (·.1)).Nodup) : (entries.map (·.1.display)).Nodup := by
  rw [List.Nodup, List.pairwise_map] at apart ⊢
  refine apart.imp_of_mem fun {entry other} here there differ same => differ ?_
  obtain ⟨name, text⟩ := texts entry here
  obtain ⟨others, also⟩ := texts other there
  rw [text, also] at same ⊢
  exact congrArg Scalar.text same

/-- The same names are declared, for the same definitions in arenas of one size. -/
structure Reflects (R : Nat → Nat → Prop) (d e : Draft) : Prop where
  tables : Tables R d.declared e.declared
  mirrors : Mirrors R d.registry.types e.registry.types
  size : d.registry.types.size = e.registry.types.size

theorem types_plain {d t : Draft} {part : Option Document} (plain : ∀ entries, part ≠ some (.mapping entries))
    (done : d.types part = .ok t) : t = d := by
  rw [Draft.types.eq_def] at done
  split at done
  · exact absurd rfl (plain _)
  case h_5 =>
    cases done
    rfl
  all_goals
    split at done
    · cases done
      rfl
    · cases done

section
variable {d t : Draft} (declared : d.declared = []) (empty : d.registry.types = #[])
include declared empty

theorem entries_shuffled {entries others : Entries} (perm : entries.Perm others)
    (names : (entries.map (·.1.display)).Nodup) (done : d.types (some (.mapping entries)) = .ok t) :
    ∃ k R, d.types (some (.mapping others)) = .ok k ∧ Reflects R t k := by
  have first := (Declares.start declared empty).fold (entries.map (·.1.display))
  have second := (Declares.start declared empty).fold (others.map (·.1.display))
  simp only [List.nil_append] at first second
  have same : ∀ name, (((entries.map (·.1.display)).foldl Draft.declare d).declared.lookup name).isSome =
      (((others.map (·.1.display)).foldl Draft.declare d).declared.lookup name).isSome := fun name => by
    rw [Bool.eq_iff_iff, first.listed, second.listed, (perm.map _).mem_iff]
  have left : Staged _ _ ((entries.map (·.1.display)).foldl Draft.declare d) := ⟨rfl, first.tagged, le_rfl⟩
  have right : Staged _ _ ((others.map (·.1.display)).foldl Draft.declare d) := ⟨rfl, second.tagged, le_rfl⟩
  have reserves : Reserves _ entries := ⟨names, first.listed⟩
  have reserved : Reserves _ others := ⟨(perm.map (·.1.display)).nodup_iff.mp names, second.listed⟩
  have done : entries.foldlM Draft.defineNext ((entries.map (·.1.display)).foldl Draft.declare d) = .ok t := done
  obtain ⟨k, shuffles⟩ := left.shuffled_ok right reserves reserved perm same done
  refine ⟨k, _, shuffles, ?_, left.shuffled_mirrors right reserves reserved perm same done shuffles
    (fun _ _ => first.tagged.inside) fun _ _ => second.tagged.inside, ?_⟩
  · obtain ⟨ends, -⟩ := left.defines (fun _ => reserves.known) done
    obtain ⟨closes, -⟩ := right.defines (fun _ => reserved.known) shuffles
    rw [ends.table, closes.table]
    exact (tables_shares same).mono fun _ _ => covered_of_base
  · refine left.shuffled_size right reserves reserved perm same done shuffles ?_
    rw [first.size, second.size, List.length_map, List.length_map, perm.length_eq]

theorem types_shuffled {part other : Option Document} (shuffled : Shuffled part other) (done : d.types part = .ok t) :
    ∃ k R, d.types other = .ok k ∧ Reflects R t k := by
  cases shuffled with
  | mapping perm texts apart => exact entries_shuffled declared empty perm (display_nodup texts apart) done
  | same plain =>
    cases types_plain plain done
    refine ⟨_, fun _ _ => False, done, fun name => ?_, fun _ _ never => never.elim, rfl⟩
    rw [declared]
    exact .none

end

end World

end ZigBindings
