import ZigBindings.Proofs.World.Expressions
import ZigBindings.Proofs.World.Reading
import ZigBindings.Proofs.World.Shapes

/-! What is read of a type expression stands for the term that the text is derived for. One definition is
made for each form in the term, inner ones first, behind those that are there. -/

namespace ZigBindings.TypeExpr

variable {declared : Declared}

theorem read_refuses (declared : Declared) (text : String) (types : Arena) :
    (∃ made, read declared text types = .ok made) ∨
      ∃ cause, read declared text types = .error (.format cause) := by
  generalize walked : read declared text types = result
  have walks : Walks True (read declared text types) := read_walks text types
  rw [walked] at walks
  cases walks with
  | done made _ => exact .inl ⟨made, rfl⟩
  | refused cause => exact .inr ⟨cause, rfl⟩
  | stumbled fails => exact absurd trivial fails

/-- The type stands for the term in the arena. Definitions that were made for a term are nameless. -/
inductive Denotes (declared : Declared) (a : Arena) : Term → Ty → Prop where
  | prim (p : Primitive) : Denotes declared a (.prim p) (.prim p)
  | declared {name : String} {id : Nat} (known : declared.lookup name = some id) :
    Denotes declared a (.declared name) (.ref id)
  | made {former : Former} {args : List (Option Term)} {values : List (Option Ty)} {id : Nat}
    (found : a[id]? = some ⟨former.kind values, none⟩)
    (same : values.map Option.isSome = args.map Option.isSome)
    (each : ∀ t ty, (some t, some ty) ∈ args.zip values → Denotes declared a t ty) :
    Denotes declared a (.made former args) (.ref id)

/-- The arena has these definitions from a place on. -/
def Holds (a : Arena) (start : Nat) (entries : List TypeDef) : Prop :=
  ∀ k d, entries[k]? = some d → a[start + k]? = some d

theorem Holds.append {a : Arena} {start : Nat} {first others : List TypeDef}
    (holds : Holds a start (first ++ others)) :
    Holds a start first ∧ Holds a (start + first.length) others := by
  constructor
  · intro k d found
    have inside := (List.getElem?_eq_some_iff.mp found).1
    exact holds k d (by rw [List.getElem?_append_left inside, found])
  · intro k d found
    rw [Nat.add_assoc]
    refine holds _ d ?_
    rw [List.getElem?_append_right (Nat.le_add_right _ _), Nat.add_sub_cancel_left, found]

theorem holds_append (types : Arena) (entries : List TypeDef) :
    Holds (types ++ entries.toArray) types.size entries := by
  intro k d found
  rw [Array.getElem?_append_right (Nat.le_add_right _ _), Nat.add_sub_cancel_left]
  simpa using found

theorem length_enterArgs {args : List (Option Term)} (n : Nat)
    (each : ∀ t, some t ∈ args → ∀ n, (t.enter declared n).2.length = t.forms.length) :
    (Term.enterArgs declared args n).2.length = (Term.formsArgs args).length := by
  induction args generalizing n with
  | nil => rfl
  | cons arg rest ih =>
    have first : (Term.enterArg declared arg n).2.length = (Term.formsArg arg).length := by
      cases arg with
      | none => rfl
      | some t => exact each t (by simp) n
    rw [Term.enterArgs, Term.formsArgs, List.length_append, List.length_append, first,
      ih _ fun t member => each t (by simp [member])]

theorem length_enter (declared : Declared) (t : Term) (n : Nat) : (t.enter declared n).2.length = t.forms.length := by
  induction t generalizing n with
  | prim | declared => rfl
  | made former args ih =>
    have inner := length_enterArgs n ih
    rw [Term.enter, Term.forms, List.length_append, List.length_append, inner]
    rfl

def Listed (declared : Declared) (a : Arena) (start : Nat) (forms : List Term) : Prop :=
  ∀ k form, forms[k]? = some form → Denotes declared a form (.ref (start + k))

theorem Listed.append {a : Arena} {start : Nat} {first others : List Term}
    (listed : Listed declared a start first) (behind : Listed declared a (start + first.length) others) :
    Listed declared a start (first ++ others) := by
  intro k form found
  by_cases inside : k < first.length
  · exact listed k form (by rwa [List.getElem?_append_left inside] at found)
  · rw [List.getElem?_append_right (by omega)] at found
    have later := behind _ form found
    rwa [Nat.add_assoc, Nat.add_sub_cancel' (by omega)] at later

structure MadeArgs (declared : Declared) (a : Arena) (start : Nat) (args : List (Option Term)) : Prop where
  each : ∀ t ty, (some t, some ty) ∈ args.zip (Term.enterArgs declared args start).1 → Denotes declared a t ty
  listed : Listed declared a start (Term.formsArgs args)

structure MadeType (declared : Declared) (a : Arena) (start : Nat) (term : Term) : Prop where
  denotes : Denotes declared a term (term.enter declared start).1
  listed : Listed declared a start term.forms

def Piece.Stands (declared : Declared) (a : Arena) : Piece → Prop
  | .type term => ∀ start, Holds a start (term.enter declared start).2 → MadeType declared a start term
  | .arg given => ∀ term, given = some term → ∀ start, Holds a start (term.enter declared start).2 →
    MadeType declared a start term
  | .args given => ∀ start, Holds a start (Term.enterArgs declared given start).2 → MadeArgs declared a start given

theorem Names.stands {name : String} {args : List (Option Term)} {term : Term} {a : Arena}
    (names : Names declared name args term) (inner : (Piece.args args).Stands declared a) :
    (Piece.type term).Stands declared a := by
  intro start holds
  cases names with
  | prim p => exact ⟨.prim p, nofun⟩
  | declared known free =>
    refine ⟨?_, nofun⟩
    rw [Term.enter, known]
    exact .declared known
  | @made former _ takes =>
    obtain ⟨before, own⟩ := holds.append
    obtain ⟨each, listed⟩ := inner start before
    have found := own 0 _ rfl
    have whole : Denotes declared a (.made former args)
        (.ref (start + (Term.enterArgs declared args start).2.length)) :=
      .made found (enterArgs_isSome declared args start) each
    refine ⟨whole, listed.append fun k form found => ?_⟩
    rw [length_enterArgs start fun t _ => length_enter declared t] at whole
    cases k with
    | zero =>
      cases found
      exact whole
    | succ k => cases found

theorem stands_cons {arg : Option Term} {rest : List (Option Term)} {a : Arena}
    (first : (Piece.arg arg).Stands declared a) (others : (Piece.args rest).Stands declared a) :
    (Piece.args (arg :: rest)).Stands declared a := by
  intro start holds
  rw [Term.enterArgs] at holds
  obtain ⟨own, behind⟩ := holds.append
  have later := others _ behind
  cases arg with
  | none =>
    refine ⟨fun t ty member => ?_, later.listed⟩
    rcases List.mem_cons.mp member with same | member
    · cases same
    · exact later.each t ty member
  | some term =>
    have made := first term rfl start own
    refine ⟨fun t ty member => ?_, made.listed.append ?_⟩
    · rcases List.mem_cons.mp member with same | member
      · cases same
        exact made.denotes
      · exact later.each t ty member
    · rw [← length_enter declared term start]
      exact later.listed

theorem stands_nil (declared : Declared) (a : Arena) : (Piece.args []).Stands declared a :=
  fun _ _ => ⟨nofun, nofun⟩

/-- What is made for a piece stands for it. -/
theorem Derives.stands {tokens rest : List Token} {piece : Piece} (a : Arena)
    (derives : Derives declared tokens piece rest) : piece.Stands declared a := by
  induction derives with
  | bare names => exact names.stands (stands_nil declared a)
  | applied _ names ih => exact names.stands ih
  | hole => exact nofun
  | given _ _ ih => exact fun term same => Option.some.inj same ▸ ih
  | last _ ih => exact stands_cons ih (stands_nil declared a)
  | more _ _ ih next => exact stands_cons ih next

/-- Texts are read as types exactly if they are derived for a term, and there is no other term that they
are derived for. What is read stands for this term. One definition is made for each form in it, inner ones
first, behind those that are there, which stay as they are. Every other text is refused with a message.
Terms over primitives and declared names are read back from what is printed for them. -/
theorem read_exactly (declared : Declared) (types : Arena) :
    (∀ text made, read declared text types = .ok made ↔
      ∃ term, Means declared text term ∧ placed types (term.enter declared types.size) = made) ∧
    (∀ text, (∃ made, read declared text types = .ok made) ∨
      ∃ cause, read declared text types = .error (.format cause)) ∧
    (∀ text term other, Means declared text term → Means declared text other → term = other) ∧
    (∀ text term ty b, Means declared text term → placed types (term.enter declared types.size) = (ty, b) →
      Denotes declared b term ty ∧ types.Appends b ∧ b.size = types.size + term.forms.length ∧
        ∀ k form, term.forms[k]? = some form → Denotes declared b form (.ref (types.size + k))) ∧
    ∀ term, Printable declared term → Means declared term.print term := by
  refine ⟨fun text made => read_eq_ok, fun text => read_refuses declared text types,
    fun text term other first second => first.unique second, ?_,
    fun term printable => ⟨_, printable.derives⟩⟩
  rintro text term ty b ⟨tokens, -, derives⟩ made
  obtain ⟨rfl, rfl⟩ := Prod.mk.inj made
  obtain ⟨denotes, listed⟩ := derives.stands _ types.size (holds_append types _)
  refine ⟨denotes, ⟨by simp, fun i inside => Array.getElem?_append_left inside⟩, ?_, listed⟩
  rw [Array.size_append]
  exact congrArg (types.size + ·) (length_enter declared term types.size)

def located : Term := .made .result [some (.made .tuple [some (.declared "point"), some (.prim .u8)]), none]

theorem located_read : read [("point", 0)] "result<tuple<point, u8>, _>" #[⟨.resource, some "point"⟩] =
    .ok (.ref 2, #[⟨.resource, some "point"⟩, ⟨.tuple [.ref 0, .prim .u8], none⟩,
      ⟨.result (some (.ref 1)) none, none⟩]) := by
  have free : ¬ Reserved "point" := by
    rintro (⟨p, same⟩ | same | same)
    · cases p <;> exact absurd same (by decide)
    · exact absurd same (by decide)
    · exact absurd same (by decide)
  have point : Printable [("point", 0)] (.declared "point") :=
    .declared rfl free ⟨'p', ['o', 'i', 'n', 't'], rfl, by decide, by decide⟩ (by decide)
  have pair : Printable [("point", 0)] (.made .tuple [some (.declared "point"), some (.prim .u8)]) := by
    refine .made (by simp [Former.Takes]) fun t member => ?_
    rcases List.mem_cons.mp member with same | member
    · exact Option.some.inj same ▸ point
    · exact Option.some.inj (List.mem_singleton.mp member) ▸ .prim .u8
  have printable : Printable [("point", 0)] located := by
    refine .made (by simp [Former.Takes]) fun t member => ?_
    rcases List.mem_cons.mp member with same | member
    · exact Option.some.inj same ▸ pair
    · cases List.mem_singleton.mp member
  obtain ⟨exactly, -, -, -, printed⟩ := read_exactly [("point", 0)] #[⟨.resource, some "point"⟩]
  have text : located.print = "result<tuple<point, u8>, _>" := by decide
  exact (exactly _ _).mpr ⟨located, text ▸ printed located printable, by decide⟩

end ZigBindings.TypeExpr
