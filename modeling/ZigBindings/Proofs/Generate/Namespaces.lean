import ZigBindings.Proofs.Generate.Closed
import ZigBindings.Proofs.Generate.Shadowing
import ZigBindings.Proofs.World.Qualified

/-! What stands side by side in the containers of a module. Names are normalised on their way into a
namespace or an import, so two of them may meet there; the symbols of entry points are not. -/

namespace ZigBindings

namespace Generate
open World ZigBindings.Module

variable {r : Registry} {names : List String} {w : World} {direction : Direction} {path : List String}
  {todo : List Task}

def Task.wrapped? (direction : Direction) : Task → Option Wrapped
  | wrap way place f => if way = direction then some (place, f) else none
  | skipType _ _ => none

def wraps (direction : Direction) (todo : List Task) : List Wrapped :=
  todo.filterMap (Task.wrapped? direction)

@[simp] theorem mem_wraps {place : Wrapper.Place} {f : Function} :
    (place, f) ∈ wraps direction todo ↔ .wrap direction place f ∈ todo := by
  simp only [wraps, List.mem_filterMap]
  constructor
  · rintro ⟨task, member, wrapped⟩
    cases task with
    | skipType => cases wrapped
    | wrap way place f =>
      rw [Task.wrapped?] at wrapped
      split at wrapped
      case isTrue same =>
        cases wrapped
        exact same ▸ member
      case isFalse => cases wrapped
  · exact fun member => ⟨_, member, if_pos rfl⟩

theorem filed_eq : filed direction path todo = (wraps direction todo).filter (path = ·.1.path) := by
  rw [filed, wraps, List.filter_filterMap]
  refine List.filterMap_congr fun task _ => ?_
  cases task with
  | skipType => rfl
  | wrap way place f =>
    rw [Task.filed?, Task.wrapped?]
    by_cases same : way = direction
    · by_cases here : path = place.path <;> simp [same, here, Option.filter]
    · simp [same]

/-- What tells functions apart: the place, with its link name, and the name. -/
def mark (wrapped : Wrapped) : Wrapper.Place × String := (wrapped.1, wrapped.2.name)

def placeOf (name : String) : Wrapper.Place := ⟨(spaces name).map Name.identifier, name⟩

theorem placeOf_path_ne_nil (name : String) : (placeOf name).path ≠ [] := by
  simpa [placeOf] using spaces_ne_nil name

/-- The key that an interface of the description is imported or exported under. -/
def keyOf (name : String) (id : Nat) : Key :=
  if (qualified? name).isSome then .interface id else .name name

/-- A function that comes of an item: the item itself, or one of an interface. -/
def Comes (names : List String) (key : Key) (wrapped : Wrapped) : Prop :=
  (key = .name wrapped.2.name ∧ wrapped.1 = {}) ∨
    ∃ id name, names[id]? = some name ∧ key = keyOf name id ∧ wrapped.1 = placeOf name

theorem Comes.key_eq (apart : names.Nodup) {key other : Key} {first second : Wrapped}
    (comes : Comes names key first) (also : Comes names other second) (same : mark first = mark second) :
    key = other := by
  obtain ⟨place, name⟩ := Prod.mk.inj same
  rcases comes with ⟨rfl, flat⟩ | ⟨id, _, known, rfl, nested⟩
  · rcases also with ⟨rfl, -⟩ | ⟨_, _, -, -, nested⟩
    · rw [name]
    · rw [flat, nested] at place
      exact absurd (congrArg Wrapper.Place.path place).symm (placeOf_path_ne_nil _)
  · rcases also with ⟨-, flat⟩ | ⟨_, _, found, rfl, behind⟩
    · rw [nested, flat] at place
      exact absurd (congrArg Wrapper.Place.path place) (placeOf_path_ne_nil _)
    · rw [nested, behind] at place
      have link := congrArg Wrapper.Place.linkName place
      dsimp only [placeOf] at link
      subst link
      obtain ⟨inside, known⟩ := List.getElem?_eq_some_iff.mp known
      obtain ⟨also, found⟩ := List.getElem?_eq_some_iff.mp found
      rw [(apart.getElem_inj_iff).mp (known.trans found.symm)]

section
variable (parsed : r.Parsed names w)
include parsed

theorem interface_placed (unbroken : ∀ name ∈ names, name.toList.getLast? ≠ some '\n') {key : Key}
    {id : Nat} (carried : r.Carries (key, .interface id)) :
    ∃ name i, names[id]? = some name ∧ r.interfaces[id]? = some i ∧ key = keyOf name id ∧
      r.scopePath key = .ok (placeOf name).path ∧ r.linkName key = .ok (placeOf name).linkName := by
  obtain ⟨i, found, goes⟩ := carried
  have inside : id < names.length := by
    rw [parsed.length]
    exact (Array.getElem?_eq_some_iff.mp found).1
  have known := List.getElem?_eq_getElem inside
  have described := parsed.described id i _ found known
  refine ⟨_, i, known, found, ?_⟩
  have ends := unbroken _ (List.getElem_mem inside)
  generalize names[id] = name at described ends
  rw [Registry.Describes] at described
  rw [keyOf, placeOf, spaces]
  cases read : qualified? name with
  | some qualified =>
    obtain ⟨package, short⟩ := qualified
    rw [read] at described
    obtain ⟨number, packaged, present, named⟩ := described
    obtain ⟨alone, -⟩ | ⟨-, rfl⟩ := goes
    · rw [packaged] at alone
      cases alone
    · have held : r.packaged id = .ok (package, short) := by
        simp only [Registry.packaged, Registry.at?, found, packaged, named, present, pure_eq_ok, ok_bind]
      refine ⟨rfl, ?_, ?_⟩
      · rw [Registry.scopePath, held]
        rfl
      · rw [Registry.linkName, held, ok_bind]
        exact congrArg Except.ok (qualifiedName_eq read ends)
  | none =>
    rw [read] at described
    obtain ⟨alone, named⟩ := described
    obtain ⟨-, _, given, rfl⟩ | ⟨packaged, -⟩ := goes
    · rw [named] at given
      cases given
      exact ⟨rfl, rfl, rfl⟩
    · rw [alone] at packaged
      cases packaged

theorem item_wraps (unbroken : ∀ name ∈ names, name.toList.getLast? ≠ some '\n') {entry : Key × Item}
    (carried : r.Carries entry) {own : List Task} (made : itemTasks r direction entry = .ok own) :
    ((wraps direction own).map mark).Nodup ∧ ∀ wrapped ∈ wraps direction own, Comes names entry.1 wrapped := by
  obtain ⟨key, item⟩ := entry
  cases item with
  | function f =>
    cases made
    have only : wraps direction [.wrap direction {} f] = [({}, f)] := by simp [wraps, Task.wrapped?]
    rw [only]
    exact ⟨List.nodup_singleton _, List.forall_mem_singleton.mpr (.inl ⟨carried.1, rfl⟩)⟩
  | type id =>
    rw [itemTasks, bind_eq_ok] at made
    obtain ⟨_, -, made⟩ := made
    cases made
    exact ⟨List.nodup_nil, List.forall_mem_nil _⟩
  | interface id =>
    obtain ⟨name, i, known, found, rfl, filed, linked⟩ := interface_placed parsed unbroken carried
    have held : Registry.at? r.interfaces id = .ok i := by
      rw [Registry.at?, found]
      rfl
    simp only [itemTasks, filed, linked, held, ok_bind, pure_eq_ok, Except.ok.injEq] at made
    have all : wraps direction own = i.functions.map fun f => (placeOf name, f.2) := by
      rw [← made, wraps, List.filterMap_map]
      refine List.filterMap_eq_map_iff_forall_eq_some.mpr fun f _ => ?_
      simp [Task.wrapped?, placeOf]
    have proper := (parsed.interfaces i (Array.mem_of_getElem? found)).functions
    rw [all]
    refine ⟨?_, ?_⟩
    · rw [List.map_map]
      have marks : i.functions.map (mark ∘ fun f => (placeOf name, f.2)) =
          (i.functions.map (·.1)).map (Prod.mk (placeOf name)) := by
        rw [List.map_map]
        refine List.map_congr_left fun entry member => ?_
        exact congrArg (Prod.mk _) (proper.named entry.1 entry.2 member).symm
      rw [marks]
      exact proper.apart.map fun _ _ same => (Prod.mk.inj same).2
    · intro wrapped member
      obtain ⟨f, -, rfl⟩ := List.mem_map.mp member
      exact .inr ⟨id, name, known, rfl, rfl⟩

theorem items_wraps (unbroken : ∀ name ∈ names, name.toList.getLast? ≠ some '\n')
    {entries : List (Key × Item)} (proper : r.ProperItems entries) {owns : List (List Task)}
    (made : entries.mapM (itemTasks r direction) = .ok owns) :
    ((wraps direction owns.flatten).map mark).Nodup ∧ ∀ wrapped ∈ wraps direction owns.flatten,
      ∃ entry ∈ entries, Comes names entry.1 wrapped := by
  have each := mapM_eq_ok.mp made
  clear made
  induction each with
  | nil => exact ⟨List.nodup_nil, List.forall_mem_nil _⟩
  | @cons entry own entries owns first _ ih =>
    obtain ⟨unlike, apart⟩ := List.nodup_cons.mp proper.apart
    obtain ⟨carried, others⟩ := List.forall_mem_cons.mp proper.carried
    obtain ⟨one, comes⟩ := item_wraps parsed unbroken carried first
    obtain ⟨rest, also⟩ := ih ⟨apart, others⟩
    have both : wraps direction (own :: owns).flatten = wraps direction own ++ wraps direction owns.flatten := by
      rw [wraps, List.flatten_cons, List.filterMap_append]
      rfl
    rw [both]
    constructor
    · rw [List.map_append]
      refine List.nodup_append.mpr ⟨one, rest, ?_⟩
      rintro _ left _ right rfl
      obtain ⟨here, inside, marked⟩ := List.mem_map.mp left
      obtain ⟨there, behind, same⟩ := List.mem_map.mp right
      obtain ⟨other, listed, origin⟩ := also there behind
      refine unlike (List.mem_map.mpr ⟨other, listed, ?_⟩)
      exact (origin.key_eq parsed.apart (comes here inside) (same.trans marked.symm))
    · intro wrapped member
      rcases List.mem_append.mp member with here | behind
      · exact ⟨entry, List.mem_cons_self, comes wrapped here⟩
      · obtain ⟨other, listed, origin⟩ := also wrapped behind
        exact ⟨other, List.mem_cons_of_mem _ listed, origin⟩

end

def entries (w : World) : Direction → List (Key × Item)
  | .outward => w.imports
  | .inward => w.exports

theorem wraps_of_other {way : Direction} (other : way ≠ direction) {entries : List (Key × Item)}
    {owns : List (List Task)} (made : entries.mapM (itemTasks r way) = .ok owns) :
    wraps direction owns.flatten = [] := by
  refine List.filterMap_eq_nil_iff.mpr fun task member => ?_
  obtain ⟨entry, -, own, done, inside⟩ := (mem_flatten_of_mapM made).mp member
  cases task with
  | skipType => rfl
  | wrap way' place f => rw [Task.wrapped?, if_neg fun same => other ((itemTasks_wrap done inside).1 ▸ same)]

theorem wraps_todo (works : tasks r w = .ok todo) (direction : Direction) :
    ∃ owns, (entries w direction).mapM (itemTasks r direction) = .ok owns ∧
      wraps direction todo = wraps direction owns.flatten := by
  simp only [tasks, bind_eq_ok, pure_eq_ok, Except.ok.injEq] at works
  obtain ⟨imports, incoming, exports, outgoing, rfl⟩ := works
  have both : wraps direction (imports.flatten ++ exports.flatten) =
      wraps direction imports.flatten ++ wraps direction exports.flatten := List.filterMap_append
  cases direction with
  | outward => exact ⟨imports, incoming, by rw [both, wraps_of_other (by decide) outgoing, List.append_nil]⟩
  | inward => exact ⟨exports, outgoing, by rw [both, wraps_of_other (by decide) incoming, List.nil_append]⟩

/-- The symbol of the entry point for a function. -/
def symbol (wrapped : Wrapped) : String := Wrapper.exportSymbol wrapped.1 wrapped.2

theorem symbol_flat {wrapped : Wrapped} (flat : wrapped.1 = {}) : symbol wrapped = wrapped.2.name := by
  rw [symbol, Wrapper.exportSymbol, flat]
  rfl

theorem toList_symbol {wrapped : Wrapped} {name : String} (nested : wrapped.1 = placeOf name) :
    (symbol wrapped).toList = name.toList ++ '#' :: wrapped.2.name.toList := by
  rw [symbol, Wrapper.exportSymbol, nested, if_neg (by simpa using placeOf_path_ne_nil name)]
  simp [placeOf]

/-- Symbols of interfaces whose names have as many number signs are told apart by their marks. -/
theorem mark_eq_of_symbol {first second : Wrapped} {name other : String} (nested : first.1 = placeOf name)
    (also : second.1 = placeOf other) (counts : name.toList.count '#' = other.toList.count '#')
    (same : symbol first = symbol second) : mark first = mark second := by
  have letters := congrArg String.toList same
  rw [toList_symbol nested, toList_symbol also] at letters
  obtain ⟨links, functions⟩ := Name.append_sign_injective counts letters
  rw [mark, mark, nested, also, String.toList_injective links, String.toList_injective functions]

theorem nodup_map_of_mark {α : Type} {wrapped : List Wrapped} {f : Wrapped → α}
    (marks : (wrapped.map mark).Nodup)
    (injective : ∀ a ∈ wrapped, ∀ b ∈ wrapped, f a = f b → mark a = mark b) : (wrapped.map f).Nodup := by
  rw [List.Nodup, List.pairwise_map] at marks ⊢
  exact marks.imp_of_mem fun here there differ same => differ (injective _ here _ there same)

/-- Interfaces share their path exactly if their names, without versions, are normalised alike. -/
theorem path_eq_iff {name other : String} : (placeOf name).path = (placeOf other).path ↔
    (spaces name).map Name.declaration = (spaces other).map Name.declaration := by
  have escapes : Function.Injective Name.escaped := fun _ _ => Name.escaped_injective
  have made : ∀ name, (placeOf name).path = ((spaces name).map Name.declaration).map Name.escaped :=
    fun name => by
      rw [List.map_map]
      rfl
  rw [made, made]
  exact (List.map_injective_iff.mpr escapes).eq_iff

theorem count_placeOf {name other : String} (unbroken : name.toList.getLast? ≠ some '\n')
    (also : other.toList.getLast? ≠ some '\n') (same : (placeOf name).path = (placeOf other).path) :
    name.toList.count '#' = other.toList.count '#' := by
  have counted : ∀ raw : List String, (raw.map fun space => space.toList.count '#') =
      (raw.map Name.declaration).map fun space => space.toList.count '#' := fun raw => by
    simp only [List.map_map, Function.comp_def, Name.count_declaration]
  have normal := path_eq_iff.mp same
  rw [← (count_spaces unbroken).1, ← (count_spaces also).1, counted (spaces name), normal, ← counted]

section
variable (unbroken : ∀ name ∈ names, name.toList.getLast? ≠ some '\n') {key other : Key}
  {first second : Wrapped} (comes : Comes names key first) (also : Comes names other second)
include unbroken comes also

/-- Under one path no two symbols are the same. -/
theorem Comes.mark_eq (paths : first.1.path = second.1.path) (same : symbol first = symbol second) :
    mark first = mark second := by
  rcases comes with ⟨-, flat⟩ | ⟨_, name, known, -, nested⟩
  · rcases also with ⟨-, level⟩ | ⟨_, _, -, -, behind⟩
    · rw [symbol_flat flat, symbol_flat level] at same
      rw [mark, mark, flat, level, same]
    · rw [flat, behind] at paths
      exact absurd paths.symm (placeOf_path_ne_nil _)
  · rcases also with ⟨-, level⟩ | ⟨_, other, found, -, behind⟩
    · rw [nested, level] at paths
      exact absurd paths (placeOf_path_ne_nil _)
    · rw [nested, behind] at paths
      exact mark_eq_of_symbol nested behind (count_placeOf (unbroken _ (List.mem_of_getElem? known))
        (unbroken _ (List.mem_of_getElem? found)) paths) same

omit unbroken in
/-- Where no name has a number sign, no two symbols are the same at all. -/
theorem Comes.mark_eq_of_unsigned
    (unsigned : ∀ wrapped ∈ [first, second], '#' ∉ wrapped.2.name.toList ∧ '#' ∉ wrapped.1.linkName.toList)
    (same : symbol first = symbol second) : mark first = mark second := by
  obtain ⟨⟨plain, link⟩, bare, joint⟩ : _ ∧ _ := by simpa using unsigned
  have signed : ∀ {wrapped : Wrapped} {name : String}, wrapped.1 = placeOf name →
      '#' ∈ (symbol wrapped).toList := fun nested => by
    rw [toList_symbol nested]
    simp
  rcases comes with ⟨-, flat⟩ | ⟨_, name, -, -, nested⟩
  · rcases also with ⟨-, level⟩ | ⟨_, _, -, -, behind⟩
    · rw [symbol_flat flat, symbol_flat level] at same
      rw [mark, mark, flat, level, same]
    · rw [symbol_flat flat] at same
      exact absurd (same ▸ signed behind) plain
  · rcases also with ⟨-, level⟩ | ⟨_, other, -, -, behind⟩
    · rw [symbol_flat level] at same
      exact absurd (same ▸ signed nested) bare
    · rw [nested] at link
      rw [behind] at joint
      exact mark_eq_of_symbol nested behind
        ((List.count_eq_zero.mpr link).trans (List.count_eq_zero.mpr joint).symm) same

end

variable {id : Nat} {o : Options}

/-- What is declared in a container: the functions that are filed there, and the namespaces inside. -/
def Generation.declared (g : Generation r id o) (direction : Direction) (path : List String) : List String :=
  (filed direction path g.todo).map (fun wrapped => Wrapper.identifier wrapped.1 wrapped.2 direction) ++
    ((g.contents.tree direction).under path).segments

/-- What is declared twice in a module, and what never is. Functions are declared as their fragments
begin. Imports meet where their names are normalised alike, and an entry point outside all namespaces
may meet one of these; nothing else does. Paths are shared by interfaces whose names are normalised alike, and symbols
of entry points under different paths by functions whose names have number signs. -/
structure Generation.Apart (g : Generation r id o) (names : List String) : Prop where
  opens : ∀ direction path, List.Forall₂ (fun wrapped code => ∃ rest, code =
      (Wrapper.opening direction ++ Wrapper.identifier wrapped.1 wrapped.2 direction ++ "(").toList ++ rest)
    (filed direction path g.todo) ((g.contents.tree direction).under path).fragments
  imports : ∀ path, (g.declared .outward path).Nodup ↔
    ((filed .outward path g.todo).map fun wrapped => Name.declaration wrapped.2.name).Nodup ∧
      ∀ wrapped ∈ filed .outward path g.todo,
        Name.identifier wrapped.2.name ∉ ((g.contents.tree .outward).under path).segments
  nested : ∀ path, path ≠ [] → (g.declared .inward path).Nodup
  flat : (g.declared .inward []).Nodup ↔ ∀ wrapped ∈ filed .inward [] g.todo,
    Name.escaped wrapped.2.name ∉ ((g.contents.tree .inward).under []).segments
  root : o.exportsType.display.toList.any Name.isCapital = true → o.exportsType.display ≠ verifyFunction →
    ((g.declared .outward [] ++ [o.exportsType.display, verifyFunction]).Nodup ↔ (g.declared .outward []).Nodup)
  places : ∀ direction place f, .wrap direction place f ∈ g.todo →
    place = {} ∨ ∃ name ∈ names, place = placeOf name
  paths : ∀ direction place f other h, .wrap direction place f ∈ g.todo → .wrap direction other h ∈ g.todo →
    place.path ≠ [] → other.path ≠ [] → (place.path = other.path ↔
      (spaces place.linkName).map Name.declaration = (spaces other.linkName).map Name.declaration)
  symbols : ∀ path, ((g.contents.symbols.filter (path = ·.1)).map (·.2)).Nodup
  unsigned : (∀ place f, .wrap .inward place f ∈ g.todo → '#' ∉ f.name.toList ∧ '#' ∉ place.linkName.toList) →
    (g.contents.symbols.map (·.2)).Nodup

section
variable {g : Generation r id o}

theorem Generation.segments_nodup (direction : Direction) (path : List String) :
    ((g.contents.tree direction).under path).segments.Nodup :=
  (g.files.sorted direction path).imp fun less => less.ne

theorem Generation.opens (direction : Direction) (path : List String) :
    List.Forall₂ (fun wrapped code => ∃ rest, code =
      (Wrapper.opening direction ++ Wrapper.identifier wrapped.1 wrapped.2 direction ++ "(").toList ++ rest)
      (filed direction path g.todo) ((g.contents.tree direction).under path).fragments := by
  refine (g.fragments direction path).imp fun wrapped code source => ?_
  obtain ⟨s, laid, -⟩ := Wrapper.source_flows source fun _ _ _ _ _ _ _ (never : False) => never.elim
  obtain ⟨-, types, result, -, same⟩ := laid
  obtain ⟨rest, whole⟩ := Wrapper.assemble_header direction g.shared.options.width _ s
  refine ⟨(Wrapper.parameters s.params types ++ ") " ++ result ++ " \x7b").toList ++ '\n' :: rest,
    (same.trans whole).trans ?_⟩
  simp only [String.toList_append, List.append_assoc]

theorem nodup_append_iff {α : Type} {first second : List α} (apart : second.Nodup) :
    (first ++ second).Nodup ↔ first.Nodup ∧ ∀ x ∈ first, x ∉ second := by
  rw [List.nodup_append]
  constructor
  · rintro ⟨one, -, differ⟩
    exact ⟨one, fun x here there => differ x here x there rfl⟩
  · rintro ⟨one, differ⟩
    exact ⟨one, apart, fun x here y there same => differ x here (same ▸ there)⟩

theorem Generation.declared_nodup (direction : Direction) (path : List String) :
    (g.declared direction path).Nodup ↔
      ((filed direction path g.todo).map fun wrapped => Wrapper.identifier wrapped.1 wrapped.2 direction).Nodup ∧
        ∀ wrapped ∈ filed direction path g.todo, Wrapper.identifier wrapped.1 wrapped.2 direction ∉
          ((g.contents.tree direction).under path).segments := by
  rw [Generation.declared, nodup_append_iff (g.segments_nodup direction path), List.forall_mem_map]

theorem Generation.imports_nodup (path : List String) : (g.declared .outward path).Nodup ↔
    ((filed .outward path g.todo).map fun wrapped => Name.declaration wrapped.2.name).Nodup ∧
      ∀ wrapped ∈ filed .outward path g.todo,
        Name.identifier wrapped.2.name ∉ ((g.contents.tree .outward).under path).segments := by
  have escapes : Function.Injective Name.escaped := fun _ _ => Name.escaped_injective
  have made : (filed .outward path g.todo).map (fun wrapped => Wrapper.identifier wrapped.1 wrapped.2 .outward) =
      ((filed .outward path g.todo).map fun wrapped => Name.declaration wrapped.2.name).map Name.escaped := by
    rw [List.map_map]
    rfl
  rw [g.declared_nodup, made, List.nodup_map_iff escapes]
  exact Iff.rfl

section
variable (parsed : r.Parsed names g.world) (unbroken : ∀ name ∈ names, name.toList.getLast? ≠ some '\n')
include parsed unbroken

theorem Generation.wraps_marked (direction : Direction) :
    ((wraps direction g.todo).map mark).Nodup ∧
      ∀ wrapped ∈ wraps direction g.todo, ∃ key, Comes names key wrapped := by
  obtain ⟨owns, made, same⟩ := wraps_todo g.works direction
  have proper : r.ProperItems (entries g.world direction) := by
    cases direction with
    | outward => exact parsed.imports
    | inward => exact parsed.exports
  obtain ⟨marks, comes⟩ := items_wraps parsed unbroken proper made
  rw [same]
  refine ⟨marks, fun wrapped member => ?_⟩
  obtain ⟨entry, -, origin⟩ := comes wrapped member
  exact ⟨entry.1, origin⟩

theorem Generation.placed {direction : Direction} {place : Wrapper.Place} {f : Function}
    (member : .wrap direction place f ∈ g.todo) : place = {} ∨ ∃ name ∈ names, place = placeOf name := by
  obtain ⟨key, ⟨-, flat⟩ | ⟨id, name, known, -, nested⟩⟩ :=
    (g.wraps_marked parsed unbroken direction).2 (place, f) (mem_wraps.mpr member)
  · exact .inl flat
  · exact .inr ⟨name, List.mem_of_getElem? known, nested⟩

theorem Generation.paths_eq {direction : Direction} {place other : Wrapper.Place} {f h : Function}
    (member : .wrap direction place f ∈ g.todo) (also : .wrap direction other h ∈ g.todo)
    (nested : place.path ≠ []) (behind : other.path ≠ []) : place.path = other.path ↔
      (spaces place.linkName).map Name.declaration = (spaces other.linkName).map Name.declaration := by
  obtain rfl | ⟨name, -, rfl⟩ := g.placed parsed unbroken member
  · exact absurd rfl nested
  obtain rfl | ⟨other, -, rfl⟩ := g.placed parsed unbroken also
  · exact absurd rfl behind
  exact path_eq_iff

theorem Generation.filed_symbols (path : List String) : ((filed .inward path g.todo).map symbol).Nodup := by
  obtain ⟨marks, comes⟩ := g.wraps_marked parsed unbroken .inward
  rw [filed_eq]
  refine nodup_map_of_mark ((List.filter_sublist.map mark).nodup marks) fun a here b there same => ?_
  obtain ⟨here, left⟩ := List.mem_filter.mp here
  obtain ⟨there, right⟩ := List.mem_filter.mp there
  obtain ⟨_, first⟩ := comes a here
  obtain ⟨_, second⟩ := comes b there
  exact first.mark_eq unbroken second ((of_decide_eq_true left).symm.trans (of_decide_eq_true right)) same

theorem Generation.filed_entryPoints (path : List String) : ((filed .inward path g.todo).map fun wrapped =>
    Wrapper.identifier wrapped.1 wrapped.2 .inward).Nodup := by
  have escapes : Function.Injective Name.escaped := fun _ _ => Name.escaped_injective
  have symbols := (g.filed_symbols parsed unbroken path).map escapes
  rwa [List.map_map] at symbols

theorem Generation.segment_identifier {direction : Direction} {path : List String} {segment : String}
    (member : segment ∈ ((g.contents.tree direction).under path).segments) :
    ∃ name ∈ names, path ++ [segment] <+: (placeOf name).path ∧
      ∃ space ∈ spaces name, segment = Name.identifier space := by
  obtain ⟨place, f, task, below⟩ := g.segments member
  obtain rfl | ⟨name, listed, rfl⟩ := g.placed parsed unbroken task
  · exact absurd (List.prefix_nil.mp below) (by simp)
  have inside := below.subset (List.mem_append_right _ (List.mem_singleton_self segment))
  obtain ⟨space, known, same⟩ := List.mem_map.mp inside
  exact ⟨name, listed, below, space, known, same.symm⟩

/-- The signs in a symbol keep it apart from the namespaces of a package. -/
theorem Generation.nested_nodup {path : List String} (deep : path ≠ []) : (g.declared .inward path).Nodup := by
  refine (g.declared_nodup .inward path).mpr ⟨g.filed_entryPoints parsed unbroken path, ?_⟩
  rintro ⟨place, f⟩ member segment
  obtain ⟨task, rfl⟩ := mem_filed.mp member
  obtain rfl | ⟨name, -, rfl⟩ := g.placed parsed unbroken task
  · exact deep rfl
  obtain ⟨other, listed, below, space, inside, same⟩ := g.segment_identifier parsed unbroken segment
  have several : spaces other ≠ [other] := fun alone => by
    have length := below.length_le
    simp only [placeOf, alone, List.length_append, List.length_map, List.length_singleton] at length
    exact deep (List.length_eq_zero_iff.mp (by simpa [placeOf] using length))
  have none := (count_spaces (unbroken other listed)).2 several space inside
  have counts := Name.count_declaration space
  rw [← Name.escaped_injective same, none] at counts
  have letters := @toList_symbol (placeOf name, f) name rfl
  rw [symbol] at letters
  simp only [letters, List.count_append, List.count_cons_self] at counts
  omega

theorem Generation.root_nodup (capital : o.exportsType.display.toList.any Name.isCapital = true)
    (other : o.exportsType.display ≠ verifyFunction) :
    (g.declared .outward [] ++ [o.exportsType.display, verifyFunction]).Nodup ↔
      (g.declared .outward []).Nodup := by
  have made : ∀ x ∈ g.declared .outward [], ∃ raw, x = Name.identifier raw := fun x member => by
    rcases List.mem_append.mp member with function | segment
    · obtain ⟨wrapped, -, rfl⟩ := List.mem_map.mp function
      exact ⟨_, rfl⟩
    · obtain ⟨_, -, -, space, -, same⟩ := g.segment_identifier parsed unbroken segment
      exact ⟨space, same⟩
  rw [nodup_append_iff (by simpa using other)]
  refine and_iff_left_of_imp fun _ x member last => ?_
  obtain ⟨raw, rfl⟩ := made x member
  rcases List.mem_cons.mp last with same | last
  · exact Name.identifier_ne capital same
  · exact Name.identifier_ne (by decide) (List.mem_singleton.mp last)

omit parsed unbroken in
theorem Generation.symbols_eq : g.contents.symbols =
    (wraps .inward g.todo).map fun wrapped => (wrapped.1.path, symbol wrapped) := by
  rw [(runAll_backed g.runs fun _ member => by cases member).1, wraps, List.map_filterMap]
  refine (List.nil_append _).trans (List.filterMap_congr fun task _ => ?_)
  cases task with
  | skipType => rfl
  | wrap direction place f => cases direction <;> rfl

theorem Generation.path_symbols (path : List String) :
    ((g.contents.symbols.filter (path = ·.1)).map (·.2)).Nodup := by
  have same : (g.contents.symbols.filter (path = ·.1)).map (·.2) = (filed .inward path g.todo).map symbol := by
    rw [g.symbols_eq, filed_eq, List.filter_map, List.map_map]
    rfl
  rw [same]
  exact g.filed_symbols parsed unbroken path

theorem Generation.all_symbols (unsigned : ∀ place f, .wrap .inward place f ∈ g.todo →
    '#' ∉ f.name.toList ∧ '#' ∉ place.linkName.toList) : (g.contents.symbols.map (·.2)).Nodup := by
  obtain ⟨marks, comes⟩ := g.wraps_marked parsed unbroken .inward
  have same : g.contents.symbols.map (·.2) = (wraps .inward g.todo).map symbol := by
    rw [g.symbols_eq, List.map_map]
    rfl
  rw [same]
  refine nodup_map_of_mark marks fun a here b there symbols => ?_
  obtain ⟨_, first⟩ := comes a here
  obtain ⟨_, second⟩ := comes b there
  refine first.mark_eq_of_unsigned second (fun wrapped member => ?_) symbols
  rcases List.mem_cons.mp member with rfl | member
  · exact unsigned _ _ (mem_wraps.mp here)
  · exact unsigned _ _ (mem_wraps.mp (List.mem_singleton.mp member ▸ there))

theorem Generation.apart : g.Apart names where
  opens := g.opens
  imports := g.imports_nodup
  nested _ deep := g.nested_nodup parsed unbroken deep
  flat := by
    rw [g.declared_nodup, and_iff_right (g.filed_entryPoints parsed unbroken [])]
    refine forall₂_congr fun wrapped member => ?_
    rw [Wrapper.identifier, Wrapper.exportSymbol, if_pos]
    rw [List.isEmpty_iff]
    exact (mem_filed.mp member).2.symm
  root := g.root_nodup parsed unbroken
  places _ _ _ := g.placed parsed unbroken
  paths _ _ _ _ _ := g.paths_eq parsed unbroken
  symbols := g.path_symbols parsed unbroken
  unsigned := g.all_symbols parsed unbroken

end

end

/-- In the module of a description declarations meet only where their names are normalised alike. -/
theorem files_apart {description : Entries} (parsed : parse description = .ok (r, id))
    (unbroken : ∀ name ∈ interfaceNames description, name.toList.getLast? ≠ some '\n')
    {outputs : List Output} (done : (files r id o).2 = .ok outputs) :
    ∃ g : Generation r id o, outputs = [g.output] ∧ g.Apart (interfaceNames description) := by
  obtain ⟨g, made⟩ := files_eq_ok done
  obtain ⟨rfl, w, closed⟩ := parse_parsed parsed
  obtain rfl : w = g.world := by
    have found := g.found
    rw [Registry.at?, closed.world] at found
    exact Except.ok.inj found
  exact ⟨g, made, g.apart closed unbroken⟩

/-- Two versions of one interface come in. Beside an interface that goes out stand two functions, one
with the name of its namespace and one with the symbol of its own function. -/
def crowded : Entries :=
  [(.text "world", .text "crowded"),
    (.text "interfaces", .mapping (["ns:pkg/iface@1.0.0", "ns:pkg/iface@2.0.0", "host-api"].map fun name =>
      (.text name, .mapping [(.text "functions", .mapping [(.text "f", .mapping [])])]))),
    (.text "imports", .list [.mapping [(.text "interface", .text "ns:pkg/iface@1.0.0")],
      .mapping [(.text "interface", .text "ns:pkg/iface@2.0.0")]]),
    (.text "exports", .list [.mapping [(.text "interface", .text "host-api")],
      .mapping [(.text "function", .text "host_api")], .mapping [(.text "function", .text "host-api#f")]])]

def todoOf (description : Entries) : Except Fault (List Task) := do
  let (r, id) ← parse description
  let w ← Registry.at? r.worlds id
  tasks r w

theorem crowded_todo : todoOf crowded = .ok
    [.wrap .outward ⟨["ns", "pkg", "iface"], "ns:pkg/iface@1.0.0"⟩ { name := "f" },
      .wrap .outward ⟨["ns", "pkg", "iface"], "ns:pkg/iface@2.0.0"⟩ { name := "f" },
      .wrap .inward ⟨["host_api"], "host-api"⟩ { name := "f" },
      .wrap .inward {} { name := "host_api" }, .wrap .inward {} { name := "host-api#f" }] := by
  decide +kernel

theorem crowded_made : ∃ r id outputs, parse crowded = .ok (r, id) ∧ (files r id {}).2 = .ok outputs := by
  have made : (parse crowded >>= fun result => (files result.1 result.2 {}).2).isOk = true := by decide +kernel
  obtain ⟨outputs, done⟩ := isOk_iff.mp made
  obtain ⟨⟨r, id⟩, parsed, done⟩ := bind_eq_ok.mp done
  exact ⟨r, id, outputs, parsed, done⟩

theorem crowded_apart : ∃ r id outputs, parse crowded = .ok (r, id) ∧
    (∀ name ∈ interfaceNames crowded, name.toList.getLast? ≠ some '\n') ∧ (files r id {}).2 = .ok outputs ∧
      ∃ g : Generation r id {}, outputs = [g.output] ∧ g.Apart (interfaceNames crowded) := by
  obtain ⟨r, id, outputs, parsed, done⟩ := crowded_made
  have unbroken : ∀ name ∈ interfaceNames crowded, name.toList.getLast? ≠ some '\n' := by decide +kernel
  exact ⟨r, id, outputs, parsed, unbroken, done, files_apart parsed unbroken done⟩

/-- Functions of two link names are declared under one name in one container, an entry point and a
namespace share a name, and two entry points a symbol. -/
theorem crowded_meets : ∃ r id, parse crowded = .ok (r, id) ∧ ∃ g : Generation r id {},
    (files r id {}).2 = .ok [g.output] ∧
      (∃ place other f h, .wrap .outward place f ∈ g.todo ∧ .wrap .outward other h ∈ g.todo ∧
        place.linkName ≠ other.linkName ∧ place.path = other.path ∧
          ¬ (g.declared .outward place.path).Nodup) ∧
      ¬ (g.declared .inward []).Nodup ∧ ¬ (g.contents.symbols.map (·.2)).Nodup := by
  obtain ⟨r, id, outputs, parsed, done⟩ := crowded_made
  obtain ⟨g, rfl⟩ := files_eq_ok done
  have todo : todoOf crowded = .ok g.todo := by
    simp only [todoOf, parsed, ok_bind, g.found, g.works]
  have todo := Except.ok.inj (todo.symm.trans crowded_todo)
  refine ⟨r, id, parsed, g, done, ⟨⟨["ns", "pkg", "iface"], "ns:pkg/iface@1.0.0"⟩,
    ⟨["ns", "pkg", "iface"], "ns:pkg/iface@2.0.0"⟩, { name := "f" }, { name := "f" }, by simp [todo],
    by simp [todo], by decide, rfl, fun apart => ?_⟩, fun apart => ?_, fun apart => ?_⟩
  · have twice := ((g.declared_nodup .outward _).mp apart).1
    rw [todo] at twice
    exact absurd twice (by decide +kernel)
  · have member : (({}, { name := "host_api" }) : Wrapped) ∈ filed .inward [] g.todo := by simp [todo]
    refine ((g.declared_nodup .inward []).mp apart).2 _ member ((g.files.segments .inward [] _).mpr (.inl ?_))
    refine ⟨⟨["host_api"], "host-api"⟩, { name := "f" }, by simp [todo], ?_⟩
    decide +kernel
  · rw [g.symbols_eq, todo] at apart
    exact absurd apart (by decide +kernel)

end Generate

end ZigBindings
