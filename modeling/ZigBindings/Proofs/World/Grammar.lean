import ZigBindings.Proofs.World.Lexing

/-! The grammar of type expressions. A type is a name, or a name with arguments in angle brackets; what
it stands for is a term, and no tokens are derived from two terms. -/

namespace ZigBindings.TypeExpr

inductive Former where
  | tuple | list | option | result
deriving DecidableEq, Inhabited

namespace Former

def name : Former → String
  | tuple => "tuple"
  | list => "list"
  | option => "option"
  | result => "result"

/-- A tuple takes any types, a list or an option one type, and a result two arguments at most, of which
each may be no type. -/
def Takes {α : Type} : Former → List (Option α) → Prop
  | tuple, args => none ∉ args
  | list, args | option, args => ∃ arg, args = [some arg]
  | result, args => args.length ≤ 2

/-- The definition that is made. A result has no type for an argument that is not there. -/
def kind : Former → List (Option Ty) → Kind
  | tuple, args => .tuple (args.filterMap fun arg => arg)
  | list, args => .list (args.head?.join.getD default)
  | option, args => .option (args.head?.join.getD default)
  | result, args => .result args[0]?.join args[1]?.join

end Former

inductive Term where
  | prim (primitive : Primitive)
  | declared (name : String)
  | made (former : Former) (args : List (Option Term))
deriving Inhabited

namespace Term

@[induction_eliminator]
theorem ind {motive : Term → Prop} (prim : ∀ p, motive (.prim p))
    (declared : ∀ name, motive (.declared name))
    (made : ∀ former args, (∀ t, some t ∈ args → motive t) → motive (.made former args)) :
    ∀ t, motive t := fun t =>
  Term.rec (motive_1 := motive) (motive_2 := fun args => ∀ t, some t ∈ args → motive t)
    (motive_3 := fun arg => ∀ t, some t = arg → motive t)
    prim declared made
    (fun _ absent => nomatch absent)
    (fun _ _ first others t member => by
      rcases List.mem_cons.mp member with same | later
      · exact first t same
      · exact others t later)
    (fun _ absent => nomatch absent)
    (fun _ inner _ same => Option.some.inj same ▸ inner)
    t

mutual
/-- The type that a term stands for and the definitions that are made for it in an arena of this size,
those of its arguments first. -/
def enter (declared : Declared) : Term → Nat → Ty × List TypeDef
  | .prim p, _ => (.prim p, [])
  | .declared name, _ => (.ref ((declared.lookup name).getD 0), [])
  | .made former args, size =>
    let (values, inner) := enterArgs declared args size
    (.ref (size + inner.length), inner ++ [⟨former.kind values, none⟩])

def enterArgs (declared : Declared) : List (Option Term) → Nat → List (Option Ty) × List TypeDef
  | [], _ => ([], [])
  | arg :: rest, size =>
    let (value, first) := enterArg declared arg size
    let (values, others) := enterArgs declared rest (size + first.length)
    (value :: values, first ++ others)

def enterArg (declared : Declared) : Option Term → Nat → Option Ty × List TypeDef
  | none, _ => (none, [])
  | some t, size =>
    let (ty, entries) := t.enter declared size
    (some ty, entries)
end

mutual
/-- The terms that a definition is made for, inner ones first. -/
def forms : Term → List Term
  | .prim _ | .declared _ => []
  | .made former args => formsArgs args ++ [.made former args]

def formsArgs : List (Option Term) → List Term
  | [] => []
  | arg :: rest => formsArg arg ++ formsArgs rest

def formsArg : Option Term → List Term
  | none => []
  | some t => t.forms
end

mutual
def tokens : Term → List Token → List Token
  | .prim p, rest => .name p.name :: rest
  | .declared name, rest => .name name :: rest
  | .made former [], rest => .name former.name :: rest
  | .made former (arg :: args), rest => .name former.name :: .opening :: argTokens arg (argsTokens args (.closing :: rest))

def argsTokens : List (Option Term) → List Token → List Token
  | [], rest => rest
  | arg :: args, rest => .comma :: argTokens arg (argsTokens args rest)

def argTokens : Option Term → List Token → List Token
  | none, rest => .name "_" :: rest
  | some t, rest => t.tokens rest
end

end Term

/-- What tokens are read as. -/
inductive Piece where
  | type (term : Term)
  | arg (arg : Option Term)
  | args (args : List (Option Term))

/-- Spellings that win over declared names. -/
def Reserved (name : String) : Prop :=
  (∃ p : Primitive, name = p.name) ∨ name = Former.tuple.name ∨ name = Former.result.name

/-- The name stands for the term when it has these arguments. -/
inductive Names (declared : Declared) : String → List (Option Term) → Term → Prop where
  | prim (p : Primitive) : Names declared p.name [] (.prim p)
  | declared {name : String} {id : Nat} (known : declared.lookup name = some id) (free : ¬ Reserved name) :
    Names declared name [] (.declared name)
  | made {former : Former} {args : List (Option Term)} (takes : former.Takes args) :
    Names declared former.name args (.made former args)

/-- The piece is derived from the tokens in front of the rest. -/
inductive Derives (declared : Declared) : List Token → Piece → List Token → Prop where
  | bare {name : String} {term : Term} {rest : List Token} (names : Names declared name [] term) :
    Derives declared (.name name :: rest) (.type term) rest
  | applied {name : String} {args : List (Option Term)} {term : Term} {tokens rest : List Token}
    (inner : Derives declared tokens (.args args) (.closing :: rest)) (names : Names declared name args term) :
    Derives declared (.name name :: .opening :: tokens) (.type term) rest
  | hole {rest : List Token} : Derives declared (.name "_" :: rest) (.arg none) rest
  | given {name : String} {term : Term} {tokens rest : List Token} (other : name ≠ "_")
    (inner : Derives declared (.name name :: tokens) (.type term) rest) :
    Derives declared (.name name :: tokens) (.arg (some term)) rest
  | last {arg : Option Term} {tokens rest : List Token} (only : Derives declared tokens (.arg arg) rest) :
    Derives declared tokens (.args [arg]) rest
  | more {arg : Option Term} {args : List (Option Term)} {tokens behind rest : List Token}
    (first : Derives declared tokens (.arg arg) (.comma :: behind))
    (others : Derives declared behind (.args args) rest) : Derives declared tokens (.args (arg :: args)) rest

variable {declared : Declared}

theorem Derives.argument {term : Term} {tokens rest : List Token}
    (inner : Derives declared tokens (.type term) rest) (other : ∀ behind, tokens ≠ .name "_" :: behind) :
    Derives declared tokens (.arg (some term)) rest := by
  cases inner with
  | bare names =>
    exact .given (by rintro rfl; exact other _ rfl) (.bare names)
  | applied inner names =>
    exact .given (by rintro rfl; exact other _ rfl) (.applied inner names)

theorem Derives.shorter {tokens rest : List Token} {piece : Piece}
    (derives : Derives declared tokens piece rest) : rest.length < tokens.length := by
  induction derives with
  | bare | hole => exact Nat.lt_succ_self _
  | applied _ _ ih =>
    rw [List.length_cons] at ih
    rw [List.length_cons, List.length_cons]
    omega
  | given _ _ ih | last _ ih => exact ih
  | more _ _ first others =>
    rw [List.length_cons] at first
    omega

/-! ### One derivation only -/

theorem ofName?_eq_some {name : String} {p : Primitive} :
    Primitive.ofName? name = some p ↔ name = p.name := by
  constructor
  · intro found
    have same := List.find?_some (p := fun q : Primitive => q.name == name) found
    exact (eq_of_beq same).symm
  · rintro rfl
    cases p <;> rfl

theorem Former.name_injective {former other : Former} (same : former.name = other.name) : former = other := by
  cases former <;> cases other <;> first | rfl | exact absurd same (by decide)

theorem Former.name_ne (former : Former) (p : Primitive) : former.name ≠ p.name := by
  cases former <;> cases p <;> decide

theorem Former.reserved {former : Former} (takes : former.Takes ([] : List (Option Term))) :
    Reserved former.name := by
  cases former with
  | tuple => exact .inr (.inl rfl)
  | result => exact .inr (.inr rfl)
  | list | option =>
    obtain ⟨arg, alone⟩ := takes
    cases alone

theorem Names.unique {name : String} {args : List (Option Term)} {term other : Term}
    (first : Names declared name args term) (second : Names declared name args other) : term = other := by
  cases first with
  | prim p =>
    generalize named : p.name = name at second
    cases second with
    | prim q => rw [Option.some.inj ((ofName?_eq_some.mpr named).symm.trans (ofName?_eq_some.mpr rfl))]
    | declared known free => exact absurd (.inl ⟨p, named.symm⟩) free
    | @made former takes => exact absurd named.symm (former.name_ne p)
  | declared known free =>
    cases second with
    | prim p => exact absurd (.inl ⟨p, rfl⟩) free
    | declared => rfl
    | made takes => exact absurd (Former.reserved takes) free
  | @made former _ takes =>
    generalize named : former.name = name at second
    cases second with
    | prim p => exact absurd named (former.name_ne p)
    | declared known free => exact absurd (named ▸ Former.reserved takes) free
    | made => rw [Former.name_injective named]

/-- Tokens that may follow a piece. A name goes on if arguments follow, and arguments end where their
bracket is closed. -/
def Piece.Before : Piece → List Token → Prop
  | .type _, rest | .arg _, rest => rest.head? ≠ some .opening
  | .args _, rest => rest.head? = some .closing

theorem Piece.Before.last {args : List (Option Term)} {rest : List Token}
    (ends : (Piece.args args).Before rest) (arg : Option Term) : (Piece.arg arg).Before rest := by
  intro opened
  rw [Piece.Before.eq_def] at ends
  rw [ends] at opened
  cases opened

def Piece.Alike : Piece → Piece → Prop
  | .type _, .type _ | .arg _, .arg _ | .args _, .args _ => True
  | _, _ => False

theorem Derives.unique {tokens rest behind : List Token} {piece other : Piece}
    (first : Derives declared tokens piece rest) (second : Derives declared tokens other behind)
    (alike : piece.Alike other) (ends : piece.Before rest) (also : other.Before behind) :
    piece = other ∧ rest = behind := by
  induction first generalizing other behind with
  | bare names =>
    cases second with
    | bare names' => exact ⟨congrArg _ (names.unique names'), rfl⟩
    | applied => exact absurd rfl ends
    | hole | given | last | more => exact alike.elim
  | applied inner names ih =>
    cases second with
    | bare => exact absurd rfl also
    | applied inner' names' =>
      obtain ⟨same, closed⟩ := ih inner' trivial rfl rfl
      cases same
      cases closed
      exact ⟨congrArg _ (names.unique names'), rfl⟩
    | hole | given | last | more => exact alike.elim
  | hole =>
    cases second with
    | hole => exact ⟨rfl, rfl⟩
    | given different => exact absurd rfl different
    | bare | applied | last | more => exact alike.elim
  | given different inner ih =>
    cases second with
    | hole => exact absurd rfl different
    | given _ inner' =>
      obtain ⟨same, rfl⟩ := ih inner' trivial ends also
      cases same
      exact ⟨rfl, rfl⟩
    | bare | applied | last | more => exact alike.elim
  | last only ih =>
    cases second with
    | last only' =>
      obtain ⟨same, rfl⟩ := ih only' trivial (ends.last _) (also.last _)
      cases same
      exact ⟨rfl, rfl⟩
    | more first' others' =>
      obtain ⟨-, rfl⟩ := ih first' trivial (ends.last _) nofun
      cases ends
    | bare | applied | hole | given => exact alike.elim
  | more first others ih next =>
    cases second with
    | last only' =>
      obtain ⟨-, rfl⟩ := ih only' trivial nofun (also.last _)
      cases also
    | more first' others' =>
      obtain ⟨same, later⟩ := ih first' trivial nofun nofun
      cases same
      cases later
      obtain ⟨same, rfl⟩ := next others' trivial ends also
      cases same
      exact ⟨rfl, rfl⟩
    | bare | applied | hole | given => exact alike.elim

/-! ### Printed terms -/

def Token.chars : Token → List Char
  | .name text => text.toList
  | .opening => ['<']
  | .closing => ['>']
  | .comma => [',', ' ']

def Term.print (t : Term) : String := String.ofList ((t.tokens []).flatMap Token.chars)

def Identifier (name : String) : Prop :=
  ∃ c rest, name.toList = c :: rest ∧ Name.startsIdentifier c = true ∧ rest.all continuesName = true

/-- Terms over primitives and declared names that can be written. -/
inductive Printable (declared : Declared) : Term → Prop where
  | prim (p : Primitive) : Printable declared (.prim p)
  | declared {name : String} {id : Nat} (known : declared.lookup name = some id) (free : ¬ Reserved name)
    (identifier : Identifier name) (other : name ≠ "_") : Printable declared (.declared name)
  | made {former : Former} {args : List (Option Term)} (takes : former.Takes args)
    (inner : ∀ t, some t ∈ args → Printable declared t) : Printable declared (.made former args)

def Parted (tokens : List Token) : Prop := ∀ name, tokens.head? ≠ some (.name name)

/-- Names are identifiers, and no two of them are side by side. -/
def Spaced : List Token → Prop
  | [] => True
  | .name name :: rest => Identifier name ∧ Parted rest ∧ Spaced rest
  | .opening :: rest | .closing :: rest | .comma :: rest => Spaced rest

theorem Primitive.identifier (p : Primitive) : Identifier p.name ∧ p.name ≠ "_" := by
  cases p <;> exact ⟨⟨_, _, rfl, by decide, by decide⟩, by decide⟩

theorem Former.identifier (former : Former) : Identifier former.name ∧ former.name ≠ "_" := by
  cases former <;> exact ⟨⟨_, _, rfl, by decide, by decide⟩, by decide⟩

theorem hole_identifier : Identifier "_" := ⟨'_', [], rfl, by decide, rfl⟩

theorem Parted.stops {tokens : List Token} (parted : Parted tokens) :
    (tokens.flatMap Token.chars).takeWhile continuesName = [] ∧
      (tokens.flatMap Token.chars).dropWhile continuesName = tokens.flatMap Token.chars := by
  cases tokens with
  | nil => exact ⟨rfl, rfl⟩
  | cons token rest =>
    cases token with
    | name text => exact absurd rfl (parted text)
    | opening | closing | comma => exact ⟨rfl, rfl⟩

theorem lexed_of_spaced {tokens : List Token} (spaced : Spaced tokens) :
    Lexed (tokens.flatMap Token.chars) tokens := by
  induction tokens with
  | nil => exact .done
  | cons token rest ih =>
    cases token with
    | opening => exact .sign .opening (ih spaced)
    | closing => exact .sign .closing (ih spaced)
    | comma => exact .sign .comma (.blank (by decide) (ih spaced))
    | name text =>
      obtain ⟨⟨c, more, same, starts, continues⟩, parted, spaced⟩ := spaced
      have continues := List.all_eq_true.mp continues
      obtain ⟨none, all⟩ := parted.stops
      have taken : (more ++ rest.flatMap Token.chars).takeWhile continuesName = more := by
        rw [List.takeWhile_append_of_pos continues, none, List.append_nil]
      have dropped : (more ++ rest.flatMap Token.chars).dropWhile continuesName = rest.flatMap Token.chars := by
        rw [List.dropWhile_append_of_pos continues, all]
      have named : Token.name text = .name (String.ofList (c :: (more ++ rest.flatMap Token.chars).takeWhile
          continuesName)) := by
        rw [taken, ← same, String.ofList_toList]
      rw [List.flatMap_cons, Token.chars, same, List.cons_append, named]
      exact .name starts (dropped.symm ▸ ih spaced)

structure Printed (declared : Declared) (tokens : List Token) (piece : Piece) (rest : List Token) : Prop where
  spaced : Spaced tokens
  derives : Derives declared tokens piece rest

theorem Printable.head {t : Term} (printable : Printable declared t) (rest : List Token) :
    ∃ name others, t.tokens rest = .name name :: others ∧ name ≠ "_" := by
  cases printable with
  | prim p => exact ⟨_, _, rfl, (Primitive.identifier p).2⟩
  | declared known free identifier other => exact ⟨_, _, rfl, other⟩
  | @made former args takes inner =>
    cases args with
    | nil => exact ⟨_, _, rfl, former.identifier.2⟩
    | cons arg args => exact ⟨_, _, rfl, former.identifier.2⟩

theorem printed_arg {arg : Option Term} (inner : ∀ t, some t = arg → Printable declared t ∧
      ∀ rest, Spaced rest → Parted rest → Printed declared (t.tokens rest) (.type t) rest)
    {rest : List Token} (spaced : Spaced rest) (parted : Parted rest) :
    Printed declared (Term.argTokens arg rest) (.arg arg) rest := by
  cases arg with
  | none => exact ⟨⟨hole_identifier, parted, spaced⟩, .hole⟩
  | some t =>
    obtain ⟨printable, printed⟩ := inner t rfl
    obtain ⟨name, others, begins, other⟩ := printable.head rest
    have whole := printed rest spaced parted
    rw [begins] at whole
    rw [Term.argTokens, begins]
    exact ⟨whole.spaced, .given other whole.derives⟩

theorem printed_args {args : List (Option Term)} (arg : Option Term)
    (each : ∀ arg' ∈ arg :: args, ∀ rest, Spaced rest → Parted rest →
      Printed declared (Term.argTokens arg' rest) (.arg arg') rest)
    {rest : List Token} (spaced : Spaced rest) :
    Printed declared (Term.argTokens arg (Term.argsTokens args (.closing :: rest))) (.args (arg :: args))
      (.closing :: rest) := by
  obtain ⟨first, others⟩ := List.forall_mem_cons.mp each
  induction args generalizing arg with
  | nil =>
    have whole := first (.closing :: rest) spaced nofun
    exact ⟨whole.spaced, .last whole.derives⟩
  | cons next args ih =>
    obtain ⟨second, rest_⟩ := List.forall_mem_cons.mp others
    have behind := ih next others second rest_
    have whole := first (.comma :: _) behind.spaced nofun
    exact ⟨whole.spaced, .more whole.derives behind.derives⟩

theorem Printable.printed {t : Term} (printable : Printable declared t) {rest : List Token}
    (spaced : Spaced rest) (parted : Parted rest) : Printed declared (t.tokens rest) (.type t) rest := by
  induction printable generalizing rest with
  | prim p => exact ⟨⟨(Primitive.identifier p).1, parted, spaced⟩, .bare (.prim p)⟩
  | declared known free identifier other =>
    exact ⟨⟨identifier, parted, spaced⟩, .bare (.declared known free)⟩
  | @made former args takes inner ih =>
    cases args with
    | nil => exact ⟨⟨former.identifier.1, parted, spaced⟩, .bare (.made takes)⟩
    | cons arg args =>
      have each : ∀ arg' ∈ arg :: args, ∀ rest, Spaced rest → Parted rest →
          Printed declared (Term.argTokens arg' rest) (.arg arg') rest := fun arg' member rest =>
        printed_arg fun t same =>
          ⟨inner t (same ▸ member), fun rest => ih t (same ▸ member)⟩
      have whole := printed_args arg each spaced
      exact ⟨⟨former.identifier.1, nofun, whole.spaced⟩, .applied whole.derives (.made takes)⟩

/-- What is printed consists of the tokens of the term, and the term is derived from them. -/
theorem Printable.derives {t : Term} (printable : Printable declared t) :
    Lexed t.print.toList (t.tokens []) ∧ Derives declared (t.tokens []) (.type t) [] := by
  have printed : Printed declared (t.tokens []) (.type t) [] := printable.printed trivial nofun
  rw [Term.print, String.toList_ofList]
  exact ⟨lexed_of_spaced printed.spaced, printed.derives⟩

end ZigBindings.TypeExpr
