import ZigBindings.Proofs.World.Parsing

/-! How reading a description can fail. Either the fault is one of the format, with a message, or some
place that is walked as a mapping or a list holds another kind of value, and the walk itself fails. -/

namespace ZigBindings

/-- The places that a computation walks have the shape that it takes for granted, unless it has
ended before with a fault of the format. Where one has another shape, the walk fails. -/
inductive Walks {α : Type} (shaped : Prop) : Except Fault α → Prop where
  | done (a : α) : shaped → Walks shaped (.ok a)
  | refused (cause : FormatFault) : Walks shaped (.error (.format cause))
  | stumbled {fault : Fault} : ¬ shaped → fault = .notMapping ∨ fault = .wrongShape → Walks shaped (.error fault)

namespace Walks

variable {α β : Type} {shaped other : Prop} {x : Except Fault α}

theorem pure (a : α) : Walks True (Pure.pure a : Except Fault α) := .done a trivial

theorem throw (cause : FormatFault) : Walks shaped (throw (.format cause) : Except Fault α) := .refused cause

theorem congr (walks : Walks shaped x) (same : shaped ↔ other) : Walks other x := by
  cases walks with
  | done a holds => exact .done a (same.mp holds)
  | refused cause => exact .refused cause
  | stumbled fails fault => exact .stumbled (fun holds => fails (same.mpr holds)) fault

theorem bind {f : α → Except Fault β} (first : Walks shaped x) (next : ∀ a, x = .ok a → Walks other (f a)) :
    Walks (shaped ∧ other) (x >>= f) := by
  cases first with
  | done a holds => exact (next a rfl).congr ⟨fun also => ⟨holds, also⟩, And.right⟩
  | refused cause => exact .refused cause
  | stumbled fails fault => exact .stumbled (fun both => fails both.1) fault

theorem and_then {f : α → Except Fault β} (first : Walks True x) (next : ∀ a, x = .ok a → Walks shaped (f a)) :
    Walks shaped (x >>= f) :=
  (first.bind next).congr (by rw [true_and])

theorem then_any {f : α → Except Fault β} (first : Walks shaped x) (next : ∀ a, x = .ok a → Walks True (f a)) :
    Walks shaped (x >>= f) :=
  (first.bind next).congr (by rw [and_true])

end Walks

namespace TypeExpr

variable {declared : Declared} {text : String}

theorem apply_walks (head : String) (args : List (Option Ty)) (types : Arena) :
    Walks True (apply declared text head args types) := by
  rw [apply.eq_def]
  dsimp only
  split
  case h_1 =>
    split
    · exact .pure _
    · split
      · exact .pure _
      · exact .pure _
      · exact .throw _
  case h_7 =>
    split
    · exact .pure _
    · exact .pure _
    · exact .throw _
  all_goals exact .pure _

theorem read_walks_within (depth : Nat) :
    (∀ types tokens, Walks True (readType declared text depth types tokens)) ∧
    (∀ types tokens, Walks True (readArgs declared text depth types tokens)) ∧
    ∀ types tokens, Walks True (readArg declared text depth types tokens) := by
  induction depth with
  | zero =>
    refine ⟨fun types tokens => ?_, fun types tokens => ?_, fun types tokens => ?_⟩
    · rw [readType.eq_def]
      exact .throw _
    · rw [readArgs.eq_def]
      exact .throw _
    · rw [readArg.eq_def]
      split
      · exact .pure _
      · exact .throw _
      · cases ‹0 = _ + 1›
  | succ depth ih =>
    obtain ⟨type, args, arg⟩ := ih
    refine ⟨fun types tokens => ?_, fun types tokens => ?_, fun types tokens => ?_⟩
    · rw [readType.eq_def]
      split
      · cases ‹depth + 1 = _›
        exact (args _ _).and_then fun _ _ => (apply_walks _ _ _).and_then fun _ _ => .pure _
      · cases ‹depth + 1 = _›
        exact (apply_walks _ _ _).and_then fun _ _ => .pure _
      · exact .throw _
    · rw [readArgs.eq_def]
      refine (arg types tokens).and_then ?_
      rintro ⟨given, types, rest⟩ -
      dsimp only
      split
      · exact .throw _
      · exact .pure _
      · exact (args _ _).and_then fun _ _ => .pure _
      · exact .throw _
    · rw [readArg.eq_def]
      split
      · exact .pure _
      · cases ‹depth + 1 = 0›
      · cases ‹depth + 1 = _›
        exact (type _ _).and_then fun _ _ => .pure _

/-- Whatever text stands for a type, it is read or refused. -/
theorem read_walks (text : String) (types : Arena) : Walks True (read declared text types) := by
  rw [read.eq_def]
  dsimp only
  split
  · exact .throw _
  · refine ((read_walks_within _).1 types _).and_then ?_
    rintro ⟨ty, types, rest⟩ -
    dsimp only
    split
    · exact .pure _
    · exact .throw _

end TypeExpr

namespace World
open Document

/-! ### The shape of a description -/

/-- A mapping, or something that stands for an empty one. -/
def keyed : Option Document → Bool
  | none | some (.mapping _) => true
  | some d => d.isEmpty

def entriesIn : Option Document → Entries
  | some (.mapping entries) => entries
  | _ => []

def listed : Option Document → Bool
  | some (.scalar (.text _)) => true
  | some (.scalar s) => s.isEmpty
  | _ => true

def itemsIn : Option Document → List Document
  | some (.list items) => items
  | some (.mapping entries) => entries.map fun e => .scalar e.1
  | some (.scalar (.text text)) => text.toList.map fun c => .text (String.singleton c)
  | _ => []

/-- Results are looked at only in the absence of a single one. -/
def callable (body : Entries) : Bool :=
  keyed (find? body "params") && ((find? body "result").isSome || keyed (find? body "results"))

def interfaceShaped (body : Document) : Bool :=
  keyed (some body) && keyed (find? (entriesIn (some body)) "functions") &&
    (entriesIn (find? (entriesIn (some body)) "functions")).all fun entry =>
      keyed (some entry.2) && callable (entriesIn (some entry.2))

def itemShaped : Document → Bool
  | .mapping body => (find? body "function").isNone || callable body
  | _ => true

/-- Every place of the description that is walked as a mapping or a list can be. -/
def shaped (description : Entries) : Bool :=
  keyed (find? description "types") && keyed (find? description "interfaces") &&
    ((entriesIn (find? description "interfaces")).all fun entry => interfaceShaped entry.2) &&
    listed (find? description "imports") && (itemsIn (find? description "imports")).all itemShaped &&
    listed (find? description "exports") && (itemsIn (find? description "exports")).all itemShaped

/-! ### Walking it -/

variable {d : Draft}

theorem entriesOf_walks (given : Option Document) : Walks (keyed given = true) (entriesOf given) := by
  rw [entriesOf.eq_def]
  split
  · exact .done _ rfl
  · exact .done _ rfl
  case h_3 document other =>
    have same : keyed (some document) = document.isEmpty := by
      cases document with
      | mapping entries => exact absurd rfl (other entries)
      | scalar | list => rfl
    rw [same]
    split
    case isTrue empty => exact .done _ empty
    case isFalse full => exact .stumbled full (.inl rfl)

theorem entriesOf_ok {given : Option Document} {entries : Entries} (found : entriesOf given = .ok entries) :
    entries = entriesIn given := by
  rw [entriesOf.eq_def] at found
  split at found
  · cases found
    rfl
  · cases found
    rfl
  case h_3 document other =>
    split at found
    · cases found
      cases document with
      | mapping entries => exact absurd rfl (other entries)
      | scalar | list => rfl
    · cases found

theorem itemsOf_walks (given : Option Document) : Walks (listed given = true) (itemsOf given) := by
  rw [itemsOf.eq_def]
  split
  · exact .done _ rfl
  · exact .done _ rfl
  · exact .done _ rfl
  · exact .done _ rfl
  case h_5 s other =>
    have same : listed (some (.scalar s)) = s.isEmpty := by
      cases s with
      | text text => exact absurd rfl (other text)
      | _ => rfl
    rw [same]
    split
    case isTrue empty => exact .done _ empty
    case isFalse full => exact .stumbled full (.inr rfl)

theorem itemsOf_ok {given : Option Document} {items : List Document} (found : itemsOf given = .ok items) :
    items = itemsIn given := by
  rw [itemsOf.eq_def] at found
  split at found
  · cases found
    rfl
  · cases found
    rfl
  · cases found
    rfl
  · cases found
    rfl
  case h_5 s other =>
    split at found
    · cases found
      cases s with
      | text text => exact absurd rfl (other text)
      | _ => rfl
    · cases found

theorem typeExpr_walks (d : Draft) (text : String) : Walks True (d.typeExpr text) :=
  (TypeExpr.read_walks text _).and_then fun _ _ => .pure _

theorem typed_walks (d : Draft) (entries : Entries) : Walks True (d.typed entries) := by
  induction entries generalizing d with
  | nil => exact .pure _
  | cons entry rest ih =>
    refine (typeExpr_walks d _).and_then ?_
    rintro ⟨_, m⟩ -
    exact (ih m).and_then fun _ _ => .pure _

theorem cases_walks (d : Draft) (entries : Entries) : Walks True (d.cases entries) := by
  induction entries generalizing d with
  | nil => exact .pure _
  | cons entry rest ih =>
    rw [Draft.cases]
    split
    · exact (ih d).and_then fun _ _ => .pure _
    · refine (typeExpr_walks d _).and_then ?_
      rintro ⟨_, m⟩ -
      exact (ih m).and_then fun _ _ => .pure _

theorem synonym_walks (typed : d.Typed) (name : String) (id : Nat) (text : String) :
    Walks True (d.synonym name id text) := by
  refine (typeExpr_walks d text).and_then ?_
  rintro ⟨target, m⟩ read
  obtain ⟨-, after, inside⟩ := typeExpr_reads typed text _ read
  dsimp only
  split
  · exact .throw _
  · cases target with
    | prim p => exact .pure _
    | ref made =>
      have known := Arena.inRange_ref.mp inside
      have held : m.registry.types.typedef made = .ok m.registry.types[made] := by
        rw [Arena.typedef, Array.getElem?_eq_getElem known]
        rfl
      dsimp only
      rw [held, ok_bind]
      split
      · exact .pure _
      · exact .pure _

theorem definition_walks (typed : d.Typed) (name : String) (id : Nat) (body : Document) :
    Walks True (d.definition name id body) := by
  rw [Draft.definition.eq_def]
  split
  · exact synonym_walks typed name id _
  · split
    · exact (typed_walks d _).and_then fun _ _ => .pure _
    · exact (cases_walks d _).and_then fun _ _ => .pure _
    · exact .pure _
    · exact .pure _
    · exact .pure _
    all_goals exact .throw _
  · exact .throw _

theorem results_walks (d : Draft) (name : String) (body : Entries) :
    Walks ((find? body "result").isSome = true ∨ keyed (find? body "results") = true) (d.results name body) := by
  rw [Draft.results]
  dsimp only
  split
  · exact .throw _
  · cases single : find? body "result" with
    | some result =>
      have known : (some result).isSome = true ∨ keyed (find? body "results") = true := .inl rfl
      dsimp only
      split
      · exact .done _ known
      · exact ((typeExpr_walks d _).and_then fun _ _ => .pure _).congr (iff_of_true trivial known)
    | none =>
      dsimp only
      refine Walks.congr ((entriesOf_walks _).then_any fun entries _ => ?_) (by simp)
      exact (typed_walks d entries).and_then fun _ _ => .pure _

theorem function_walks (d : Draft) (name : String) (body : Entries) :
    Walks (callable body = true) (d.function name body) := by
  rw [callable, Bool.and_eq_true, Bool.or_eq_true]
  refine (entriesOf_walks _).bind fun entries _ => ?_
  refine (typed_walks d entries).and_then ?_
  rintro ⟨_, m⟩ -
  exact (results_walks m name body).then_any fun _ _ => .pure _

theorem functions_walks (d : Draft) (done : List (String × Function)) (entries : Entries) :
    Walks ((entries.all fun entry => keyed (some entry.2) && callable (entriesIn (some entry.2))) = true)
      (d.functions done entries) := by
  induction entries generalizing d done with
  | nil => exact .done _ rfl
  | cons entry rest ih =>
    rw [List.all_cons, Bool.and_eq_true, Bool.and_eq_true, and_assoc]
    refine (entriesOf_walks _).bind fun body found => ?_
    rw [← entriesOf_ok found]
    refine (function_walks d _ body).bind ?_
    rintro ⟨_, m⟩ -
    exact ih m _

theorem interface_walks (d : Draft) (name : String) (body : Document) :
    Walks (interfaceShaped body = true) (d.interface name body) := by
  rw [Draft.interface, interfaceShaped, Bool.and_eq_true, Bool.and_eq_true, and_assoc]
  split
  · exact .throw _
  · refine Walks.bind (entriesOf_walks _) fun entries found => ?_
    rw [← entriesOf_ok found]
    refine Walks.bind (entriesOf_walks _) fun functions given => ?_
    rw [← entriesOf_ok given]
    exact (functions_walks _ [] functions).then_any fun _ _ => .pure _

theorem interfaces_walks (d : Draft) (entries : Entries) :
    Walks ((entries.all fun entry => interfaceShaped entry.2) = true)
      (entries.foldlM (fun d (name, body) => d.interface name.display body) d) := by
  induction entries generalizing d with
  | nil => exact .done _ rfl
  | cons entry rest ih =>
    rw [List.all_cons, Bool.and_eq_true]
    exact (interface_walks d _ _).bind fun m _ => ih m

theorem define_walks (typed : d.Typed) (name : String) (body : Document) : Walks True (d.define name body) :=
  (definition_walks typed name _ body).and_then fun _ _ => .pure _

theorem types_walks (sound : d.Sound) (types : Option Document) : Walks (keyed types = true) (d.types types) := by
  have each : ∀ (entries : Entries) {d : Draft}, d.Sound →
      Walks True (entries.foldlM (fun d (name, body) => d.define name.display body) d) := by
    intro entries
    induction entries with
    | nil => exact fun _ => .pure _
    | cons entry rest ih =>
      exact fun sound => (define_walks sound.typed _ _).and_then fun m defined =>
        ih (define_sound sound _ _ m defined).1
  have declared : ∀ (names : List String) {d : Draft}, d.Sound → (names.foldl Draft.declare d).Sound := by
    intro names
    induction names with
    | nil => exact id
    | cons name rest ih => exact fun sound => ih (sound.declare name).1
  rw [Draft.types.eq_def]
  split
  case h_1 entries => exact (each entries (declared _ sound)).congr (by simp [keyed])
  case h_2 text =>
    change Walks (text.isEmpty = true) _
    split
    case isTrue empty => exact .done _ empty
    case isFalse full => exact .stumbled full (.inl rfl)
  case h_3 items =>
    change Walks (items.isEmpty = true) _
    split
    case isTrue empty => exact .done _ empty
    case isFalse full => exact .stumbled full (.inl rfl)
  case h_4 document mapping text list =>
    have same : keyed (some document) = document.isEmpty := by
      cases document with
      | mapping entries => exact absurd rfl (mapping entries)
      | scalar | list => rfl
    rw [same]
    split
    case isTrue empty => exact .done _ empty
    case isFalse full => exact .stumbled full (.inr rfl)
  case h_5 => exact .done _ rfl

theorem item_walks (sound : d.Sound) (part : String) (entry : Document) :
    Walks (itemShaped entry = true) (d.item part entry) := by
  rw [Draft.item.eq_def]
  split
  case h_2 => exact .throw _
  case h_1 body =>
    split
    case h_1 name _ _ found =>
      rw [itemShaped, found]
      exact (function_walks d _ body).then_any fun _ _ => .pure _
    case h_2 name _ none _ =>
      have free : itemShaped (.mapping body) = true := by
        rw [itemShaped, none]
        rfl
      split
      case h_1 => exact .throw _
      case h_2 id found =>
        obtain ⟨i, known, -⟩ := sound.described _ id (mem_of_lookup found)
        have held : Registry.at? d.registry.interfaces id = .ok i := by
          rw [Registry.at?, known]
          rfl
        rw [held, ok_bind]
        exact .done _ free
    case h_3 name none _ _ =>
      have free : itemShaped (.mapping body) = true := by
        rw [itemShaped, none]
        rfl
      split
      · exact .throw _
      · exact .done _ free
    case h_4 => exact .throw _

theorem items_walks (sound : d.Sound) (part : String) (done : List (Key × Item)) (entries : List Document) :
    Walks (entries.all itemShaped = true) (d.items part done entries) := by
  induction entries generalizing d done with
  | nil => exact .done _ rfl
  | cons entry rest ih =>
    rw [List.all_cons, Bool.and_eq_true]
    refine (item_walks sound part entry).bind ?_
    rintro ⟨name, key, item, m⟩ found
    obtain ⟨added, typed, -⟩ := item_carries sound part entry _ found
    dsimp only
    split
    · exact .throw _
    · exact ih (sound.extend added typed) _

theorem worldPackage_walks (d : Draft) (package : Option Document) : Walks True (d.worldPackage package) := by
  rw [Draft.worldPackage.eq_def]
  split
  · exact .pure _
  · split
    · exact .throw _
    · exact .pure _

/-- A description that has the shape its places ask for is read, or refused for its format. Any other
is refused for its format as well, or else the walk fails at one of these places. -/
theorem parse_walks (description : Entries) : Walks (shaped description = true) (parse description) := by
  rw [parse.eq_def, shaped]
  simp only [Bool.and_eq_true, and_assoc]
  split
  · exact .throw _
  · refine (worldPackage_walks _ _).and_then ?_
    rintro ⟨package, d₁⟩ packaged
    obtain ⟨sound₁, -⟩ := worldPackage_sound empty_sound _ _ packaged
    refine (types_walks sound₁ _).bind fun d₂ typed => ?_
    obtain ⟨sound₂, -⟩ := types_sound sound₁ _ _ typed
    refine (entriesOf_walks _).bind fun entries given => ?_
    rw [← entriesOf_ok given]
    refine (interfaces_walks d₂ entries).bind fun d₃ entered => ?_
    obtain ⟨sound₃, -⟩ := interfaces_sound sound₂ entries _ entered
    refine (itemsOf_walks _).bind fun incoming found => ?_
    rw [← itemsOf_ok found]
    refine (items_walks sound₃ _ _ incoming).bind ?_
    rintro ⟨imports, d₄⟩ imported
    obtain ⟨added, types₄, -⟩ := items_proper sound₃ _ (.nil _) incoming _ imported
    refine (itemsOf_walks _).bind fun outgoing sent => ?_
    rw [← itemsOf_ok sent]
    exact (items_walks (sound₃.extend added types₄) _ _ outgoing).then_any fun _ _ => .pure _

end World

end ZigBindings
