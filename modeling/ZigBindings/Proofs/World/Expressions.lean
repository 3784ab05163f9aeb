import ZigBindings.Proofs.Outcome
import ZigBindings.Proofs.World.Grammar

/-! Type expressions are read exactly. What is derived by the grammar is read as the term it is derived
for, and nothing else is read. -/

namespace ZigBindings.TypeExpr

variable {declared : Declared}

/-- What was made, with its definitions behind those that are there. -/
def placed {α : Type} (types : Arena) (made : α × List TypeDef) : α × Arena :=
  (made.1, types ++ made.2.toArray)

theorem append_placed (kind : Kind) (types : Arena) (inner : List TypeDef) :
    append kind (types ++ inner.toArray) =
      placed types (.ref (types.size + inner.length), inner ++ [⟨kind, none⟩]) := by
  simp [append, placed]

theorem placed_nil {α : Type} (types : Arena) (a : α) : placed types (a, []) = (a, types) := by
  simp [placed]

theorem placed_none (declared : Declared) (types : Arena) :
    placed types (Term.enterArgs declared [] types.size) = ([], types) := placed_nil types []

/-! ### Names -/

theorem Former.Takes.alike {α β : Type} {former : Former} {args : List (Option α)} {values : List (Option β)}
    (takes : former.Takes args) (same : args.map Option.isSome = values.map Option.isSome) :
    former.Takes values := by
  cases former with
  | tuple =>
    intro absent
    have holes : false ∈ args.map Option.isSome := same ▸ List.mem_map.mpr ⟨none, absent, rfl⟩
    obtain ⟨arg, member, hole⟩ := List.mem_map.mp holes
    exact takes (Option.isNone_iff_eq_none.mp (by simpa using hole) ▸ member)
  | list | option =>
    obtain ⟨arg, rfl⟩ := takes
    obtain ⟨value, rest, rfl, isSome, none⟩ := List.map_eq_cons_iff.mp same.symm
    obtain ⟨ty, rfl⟩ := Option.isSome_iff_exists.mp isSome
    exact ⟨ty, by rw [List.map_eq_nil_iff.mp none]⟩
  | result =>
    have length := congrArg List.length same
    rw [List.length_map, List.length_map] at length
    change args.length ≤ 2 at takes
    change values.length ≤ 2
    omega

theorem enterArgs_isSome (declared : Declared) (args : List (Option Term)) (size : Nat) :
    (Term.enterArgs declared args size).1.map Option.isSome = args.map Option.isSome := by
  induction args generalizing size with
  | nil => rfl
  | cons arg rest ih =>
    simp only [Term.enterArgs, List.map_cons, ih]
    cases arg <;> rfl

theorem apply_former {former : Former} {values : List (Option Ty)} (takes : former.Takes values)
    (text : String) (types : Arena) :
    apply declared text former.name values types = .ok (append (former.kind values) types) := by
  cases former with
  | tuple =>
    have all : values.all Option.isSome = true := List.all_eq_true.mpr fun value member => by
      cases value with
      | none => exact absurd member takes
      | some ty => rfl
    exact if_pos all
  | list | option =>
    obtain ⟨ty, rfl⟩ := takes
    rfl
  | result =>
    match values, takes with
    | [], _ | [_], _ | [_, _], _ => rfl

theorem apply_bare {name : String} (tuple : name ≠ Former.tuple.name) (result : name ≠ Former.result.name)
    (text : String) (types : Arena) : apply declared text name [] types =
      match Primitive.ofName? name, declared.lookup name with
      | some p, _ => .ok (.prim p, types)
      | none, some id => .ok (.ref id, types)
      | none, none => .error (.format (.unknownTypeIn name text)) := by
  rw [apply.eq_def]
  generalize Primitive.ofName? name = primitive, declared.lookup name = id
  dsimp only
  split
  case h_1 => exact absurd rfl tuple
  case h_4 => exact absurd rfl result
  case h_7 =>
    cases primitive with
    | some p => rfl
    | none => cases id <;> rfl
  all_goals cases ‹[] = _›

theorem apply_names {head : String} {args : List (Option Term)} {term : Term} {values : List (Option Ty)}
    {types b : Arena} (names : Names declared head args term)
    (given : placed types (Term.enterArgs declared args types.size) = (values, b)) (text : String) :
    apply declared text head values b = .ok (placed types (term.enter declared types.size)) := by
  cases names with
  | prim p =>
    cases (placed_none declared types).symm.trans given
    rw [apply_bare (Former.name_ne .tuple p).symm (Former.name_ne .result p).symm, ofName?_eq_some.mpr rfl,
      Term.enter, placed_nil]
  | @declared name id known free =>
    cases (placed_none declared types).symm.trans given
    have none : Primitive.ofName? head = none := by
      cases found : Primitive.ofName? head with
      | none => rfl
      | some p => exact absurd (.inl ⟨p, ofName?_eq_some.mp found⟩) free
    rw [apply_bare (fun same => free (.inr (.inl same))) fun same => free (.inr (.inr same)), none, known,
      Term.enter, placed_nil, known]
    rfl
  | made takes =>
    obtain ⟨rfl, rfl⟩ := Prod.mk.inj given
    rw [apply_former (takes.alike (enterArgs_isSome declared args types.size).symm), append_placed]
    rfl

theorem exists_names {head text : String} {args : List (Option Term)} {values : List (Option Ty)}
    {types : Arena} {made : Ty × Arena} (done : apply declared text head values types = .ok made)
    (same : values.map Option.isSome = args.map Option.isSome) :
    ∃ term, Names declared head args term := by
  have former (former : Former) (takes : former.Takes values) :
      ∃ term, Names declared former.name args term := ⟨_, .made (takes.alike same)⟩
  rw [apply.eq_def] at done
  dsimp only at done
  split at done
  case h_1 =>
    by_cases hole : none ∈ values
    · have missing : ¬ values.all Option.isSome = true := fun all => by
        have some_hole := List.all_eq_true.mp all none hole
        cases some_hole
      rw [if_neg missing] at done
      cases values with
      | nil => cases hole
      | cons => cases done
    · exact former .tuple hole
  case h_2 => exact former .list ⟨_, rfl⟩
  case h_3 => exact former .option ⟨_, rfl⟩
  case h_4 | h_5 | h_6 => exact former .result (by simp [Former.Takes])
  case h_7 tuple _ _ result _ _ =>
    split at done
    · rw [ofName?_eq_some.mp ‹Primitive.ofName? head = some _›, List.map_eq_nil_iff.mp same.symm]
      exact ⟨_, .prim _⟩
    · have none : Primitive.ofName? head = none := ‹_›
      rw [List.map_eq_nil_iff.mp same.symm]
      refine ⟨_, .declared ‹declared.lookup head = some _› ?_⟩
      rintro (⟨p, rfl⟩ | rfl | rfl)
      · rw [ofName?_eq_some.mpr rfl] at none
        cases none
      · exact tuple rfl
      · exact result rfl rfl
    · cases done

/-! ### Reading -/

variable {text : String}

theorem placed_cons (arg : Option Term) (rest : List (Option Term)) {types b : Arena} {value : Option Ty}
    (first : placed types (Term.enterArg declared arg types.size) = (value, b)) :
    placed types (Term.enterArgs declared (arg :: rest) types.size) =
      (value :: (placed b (Term.enterArgs declared rest b.size)).1,
        (placed b (Term.enterArgs declared rest b.size)).2) := by
  obtain ⟨rfl, rfl⟩ := Prod.mk.inj first
  simp [placed, Term.enterArgs]

theorem apply_derived {args : List (Option Term)} {values : List (Option Ty)} {types b : Arena}
    (given : placed types (Term.enterArgs declared args types.size) = (values, b)) (text head : String) :
    Ensures (apply declared text head values b) fun made =>
      ∃ term, Names declared head args term ∧ placed types (term.enter declared types.size) = made := by
  have same := enterArgs_isSome declared args types.size
  obtain ⟨made_values, -⟩ := Prod.mk.inj given
  intro made done
  obtain ⟨term, names⟩ := exists_names done (made_values ▸ same)
  exact ⟨term, names, Except.ok.inj ((apply_names names given text).symm.trans done)⟩

/-- Whatever is read was derived. The three readers call each other with less depth, so they are treated
together. -/
theorem read_derived_within (declared : Declared) (text : String) (depth : Nat) :
    (∀ types tokens, Ensures (readType declared text depth types tokens) fun read =>
      ∃ term, Derives declared tokens (.type term) read.2.2 ∧
        placed types (term.enter declared types.size) = (read.1, read.2.1)) ∧
    (∀ types tokens, Ensures (readArgs declared text depth types tokens) fun read =>
      ∃ args, Derives declared tokens (.args args) (.closing :: read.2.2) ∧
        placed types (Term.enterArgs declared args types.size) = (read.1, read.2.1)) ∧
    ∀ types tokens, Ensures (readArg declared text depth types tokens) fun read =>
      ∃ arg, Derives declared tokens (.arg arg) read.2.2 ∧
        placed types (Term.enterArg declared arg types.size) = (read.1, read.2.1) := by
  induction depth with
  | zero =>
    refine ⟨fun types tokens => ?_, fun types tokens => ?_, fun types tokens => ?_⟩
    · rw [readType.eq_def]
      exact .throw _
    · rw [readArgs.eq_def]
      exact .throw _
    · rw [readArg.eq_def]
      split
      · exact .pure ⟨none, .hole, placed_nil _ _⟩
      · exact .throw _
      · cases ‹0 = _ + 1›
  | succ depth ih =>
    obtain ⟨type, args, arg⟩ := ih
    refine ⟨fun types tokens => ?_, fun types tokens => ?_, fun types tokens => ?_⟩
    · rw [readType.eq_def]
      split
      · cases ‹depth + 1 = _›
        refine Ensures.bind (args _ _) fun (values, b, rest) ⟨args, inner, given⟩ => ?_
        exact Ensures.bind (apply_derived given _ _) fun (ty, c) ⟨term, names, made⟩ =>
          .pure ⟨term, .applied inner names, made⟩
      · cases ‹depth + 1 = _›
        exact Ensures.bind (apply_derived (placed_none declared _) _ _) fun (ty, c) ⟨term, names, made⟩ =>
          .pure ⟨term, .bare names, made⟩
      · exact .throw _
    · rw [readArgs.eq_def]
      refine Ensures.bind (arg types tokens) fun (value, b, rest) ⟨arg, first, made⟩ => ?_
      dsimp only
      split
      · exact .throw _
      · refine .pure ⟨[arg], .last first, ?_⟩
        rw [placed_cons arg [] made, Term.enterArgs, placed_nil]
      · refine Ensures.bind (args b _) fun (values, c, rest) ⟨args, others, more⟩ => .pure ?_
        refine ⟨arg :: args, .more first others, ?_⟩
        rw [placed_cons arg args made, more]
      · exact .throw _
    · rw [readArg.eq_def]
      split
      · exact .pure ⟨none, .hole, placed_nil _ _⟩
      · cases ‹depth + 1 = 0›
      · cases ‹depth + 1 = _›
        refine Ensures.bind (type _ _) fun (ty, b, rest) ⟨term, inner, made⟩ => .pure ?_
        obtain ⟨rfl, rfl⟩ := Prod.mk.inj made
        exact ⟨some term, inner.argument ‹∀ behind, _ = Token.name "_" :: behind → False›, rfl⟩

/-- What was made, the arena after it, and the tokens that are left. -/
def reading {α : Type} (made : α × Arena) (rest : List Token) : Reading α := (made.1, made.2, rest)

theorem readType_bare {name : String} {rest : List Token} (ends : rest.head? ≠ some .opening) (depth : Nat)
    (types : Arena) : readType declared text (depth + 1) types (.name name :: rest) =
      apply declared text name [] types >>= fun made => pure (reading made rest) := by
  rw [readType.eq_def]
  rcases rest with _ | ⟨_ | _ | _ | _, behind⟩
  case cons.opening => exact absurd rfl ends
  all_goals rfl

theorem readArg_given {name : String} {tokens : List Token} (other : name ≠ "_") (depth : Nat) (types : Arena) :
    readArg declared text (depth + 1) types (.name name :: tokens) =
      readType declared text depth types (.name name :: tokens) >>= fun read =>
        pure (reading (some read.1, read.2.1) read.2.2) := by
  rw [readArg.eq_def]
  split
  case h_1 same => exact absurd (Token.name.inj (List.cons.inj same).1) other
  · cases ‹depth + 1 = 0›
  · cases ‹depth + 1 = _›
    rfl

/-- With enough depth left the piece is read, and the rest is left. Between two tokens there are three steps
at most, and the bound tells how many of them are still to come. -/
def Piece.IsRead (declared : Declared) (text : String) (tokens rest : List Token) : Piece → Prop
  | .type term => ∀ types depth, 3 * tokens.length ≤ depth + 2 →
    readType declared text depth types tokens = .ok (reading (placed types (term.enter declared types.size)) rest)
  | .arg given => ∀ types depth, 3 * tokens.length ≤ depth + 1 →
    readArg declared text depth types tokens =
      .ok (reading (placed types (Term.enterArg declared given types.size)) rest)
  | .args given => ∀ types depth behind, rest = .closing :: behind → 3 * tokens.length ≤ depth →
    readArgs declared text depth types tokens =
      .ok (reading (placed types (Term.enterArgs declared given types.size)) behind)

/-- Whatever is derived is read. -/
theorem Derives.isRead {tokens rest : List Token} {piece : Piece}
    (derives : Derives declared tokens piece rest) (ends : piece.Before rest) :
    piece.IsRead declared text tokens rest := by
  induction derives with
  | bare names =>
    intro types depth deep
    rw [List.length_cons] at deep
    obtain ⟨depth, rfl⟩ : ∃ d, depth = d + 1 := ⟨depth - 1, by omega⟩
    rw [readType_bare ends, apply_names names (placed_none declared types), ok_bind, pure_eq_ok]
  | applied inner names ih =>
    intro types depth deep
    simp only [List.length_cons] at deep
    obtain ⟨depth, rfl⟩ : ∃ d, depth = d + 1 := ⟨depth - 1, by omega⟩
    have read := ih rfl types depth _ rfl (by omega)
    cases given : placed types (Term.enterArgs declared _ types.size) with
    | mk values b =>
      rw [given] at read
      rw [readType.eq_def]
      simp only [read, ok_bind, reading, apply_names names given, pure_eq_ok]
  | hole =>
    intro types depth _
    cases depth <;> simp [readArg.eq_def, reading, Term.enterArg, placed_nil, pure_eq_ok]
  | given other inner ih =>
    intro types depth deep
    rw [List.length_cons] at deep
    obtain ⟨depth, rfl⟩ : ∃ d, depth = d + 1 := ⟨depth - 1, by omega⟩
    have read := ih ends types depth (by rw [List.length_cons]; omega)
    rw [readArg_given other, read, ok_bind, pure_eq_ok]
    rfl
  | last only ih =>
    intro types depth behind same deep
    subst same
    have shorter := only.shorter
    obtain ⟨depth, rfl⟩ : ∃ d, depth = d + 1 := ⟨depth - 1, by omega⟩
    have read := ih nofun types depth (by omega)
    cases made : placed types (Term.enterArg declared _ types.size) with
    | mk value b =>
      rw [made] at read
      rw [readArgs.eq_def, placed_cons _ _ made, placed_none]
      simp only [read, ok_bind, reading, pure_eq_ok]
  | more first others ih next =>
    intro types depth behind same deep
    subst same
    have shorter := first.shorter
    rw [List.length_cons] at shorter
    obtain ⟨depth, rfl⟩ : ∃ d, depth = d + 1 := ⟨depth - 1, by omega⟩
    have read := ih nofun types depth (by omega)
    cases made : placed types (Term.enterArg declared _ types.size) with
    | mk value b =>
      rw [made] at read
      rw [readArgs.eq_def, placed_cons _ _ made]
      simp only [read, ok_bind, reading, next rfl b depth _ rfl (by omega), pure_eq_ok]

/-- The text is derived for the term. -/
def Means (declared : Declared) (text : String) (term : Term) : Prop :=
  ∃ tokens, Lexed text.toList tokens ∧ Derives declared tokens (.type term) []

theorem Means.unique {term other : Term} (first : Means declared text term)
    (second : Means declared text other) : term = other := by
  obtain ⟨tokens, lexed, derives⟩ := first
  obtain ⟨others, also, derives'⟩ := second
  cases (lexAfter_of_lexed lexed).symm.trans (lexAfter_of_lexed also)
  obtain ⟨same, -⟩ := derives.unique derives' trivial nofun nofun
  cases same
  rfl

/-- What is read is made for the term that the text is derived for. -/
theorem read_eq_ok {types : Arena} {made : Ty × Arena} : read declared text types = .ok made ↔
    ∃ term, Means declared text term ∧ placed types (term.enter declared types.size) = made := by
  constructor
  · intro done
    rw [read.eq_def] at done
    dsimp only at done
    cases lexed : lexAfter [] (Text.trim text.toList) with
    | none =>
      rw [lexed] at done
      cases done
    | some tokens =>
      rw [lexed] at done
      obtain ⟨⟨ty, b, rest⟩, inner, done⟩ := bind_eq_ok.mp done
      obtain ⟨term, derives, same⟩ := (read_derived_within declared text _).1 types tokens _ inner
      cases rest with
      | nil =>
        cases done
        exact ⟨term, ⟨tokens, lexAfter_trim.mp lexed, derives⟩, same⟩
      | cons => cases done
  · rintro ⟨term, ⟨tokens, lexed, derives⟩, rfl⟩
    have isRead : (Piece.type term).IsRead declared text tokens [] := derives.isRead nofun
    rw [read.eq_def]
    simp only [lexAfter_trim.mpr lexed, isRead types (3 * tokens.length + 3) (by omega), ok_bind, reading]
    rfl

end ZigBindings.TypeExpr
