import ZigBindings.Proofs.Zig.Lines

/-! Statements written onto a page line by line, at the indentation the page has come to. A page at no
indentation gets what the statement is rendered as. -/

namespace ZigBindings.Zig

/-- The text so far, and how far the next line is moved in. -/
structure Page where
  text : List Char := []
  indent : Int := 0
deriving DecidableEq, Inhabited

namespace Page

def line (p : Page) (code : String) : Page :=
  { p with text := p.text ++ Zig.line p.indent code.toList }

def lineIf (code : Option String) (p : Page) : Page :=
  match code with
  | some code => p.line code
  | none => p

def paragraph (p : Page) (code : List Char) : Page :=
  { p with text := p.text ++ Zig.text p.indent code }

def shift (width levels : Int) (p : Page) : Page :=
  { p with indent := deeper width p.indent levels }

/-- Written one level deeper. -/
def nest (width : Int) (written : Page → Page) (p : Page) : Page :=
  (written (p.shift width 1)).shift width (-1)

def splice (width : Int) (body : List Char) : Page → Page :=
  nest width fun p => if isBlankText body then p else p.paragraph body

def assign (slots : List String) (results : List Expr) (p : Page) : Page :=
  (slots.zip results).foldl (fun p (slot, result) => p.line (assignment (.name slot) result)) p

def switchArm (width : Int) (case : String) (body : List Char) (value label : String) (p : Page) :
    Page :=
  if isBlankText body then p.line (case ++ " => " ++ value ++ ",")
  else
    let p := p.line (case ++ " => " ++ label ++ ": \x7b")
    let p := p.splice width body
    let p := p.nest width fun p => p.line ("break :" ++ label ++ " " ++ value ++ ";")
    p.line "\x7d,"

/-- A statement line by line; the bodies inside it are texts already. -/
def print (width : Int) (p : Page) : Stmt → Page
  | .const name type value => p.line (constant name type value)
  | .slotVar name type => p.line ("var " ++ name ++ ": " ++ type ++ " = undefined;")
  | .assign target value => p.line (assignment target value)
  | .discard value => p.line ("_ = " ++ value.render ++ ";")
  | .run value => p.line (value.render ++ ";")
  | .onExit value => p.line ("defer " ++ value.render ++ ";")
  | .ret value => p.line ("return " ++ value.render ++ ";")
  | .ifSome value name slots present presentResults absent absentResults =>
    let p := p.line ("if (" ++ value.render ++ ") |" ++ capture name ++ "| \x7b")
    let p := p.splice width (Stmt.renderAll width present)
    let p := p.nest width (assign slots presentResults)
    let p := p.line "\x7d else \x7b"
    let p := p.splice width (Stmt.renderAll width absent)
    let p := p.nest width (assign slots absentResults)
    p.line "\x7d"
  | .switchOption name type discriminant absent present payload =>
    let p := p.line ("const " ++ name ++ ": ?" ++ type ++ " = switch (" ++ discriminant.render ++
      ") \x7b")
    let p := p.nest width fun p =>
      let p := p.switchArm width "0" (Stmt.renderAll width absent) "null" (name ++ "_none")
      let p := p.switchArm width "1" (Stmt.renderAll width present) payload.render (name ++ "_some")
      p.line "else => unreachable,"
    p.line "\x7d;"
  | .forEach items byPointer item index base body last =>
    let star := if byPointer then "*" else ""
    let p := p.line ("for (" ++ items.render ++ ", 0..) |" ++ star ++ capture item ++ ", " ++
      capture index ++ "| \x7b")
    let p := p.nest width (lineIf (base.map fun start => constant start.1 (some "i32") start.2))
    let p := p.splice width (Stmt.renderAll width body)
    let p := p.nest width (lineIf (last.map fun given => assignment given.1 given.2))
    p.line "\x7d"

def printAll (width : Int) (stmts : List Stmt) (p : Page) : Page :=
  stmts.foldl (print width) p

/-- A step writes a text, which depends on how far the page is moved in, and comes back to that level. -/
def Writes (text : Int → List Char) (step : Page → Page) : Prop :=
  ∀ p, step p = { p with text := p.text ++ text p.indent }

namespace Writes

variable {text more : Int → List Char} {first second : Page → Page}

theorem nothing : Writes (fun _ => []) id := by
  intro p
  rw [List.append_nil]
  rfl

theorem line (code : String) : Writes (fun indent => Zig.line indent code.toList) (·.line code) := fun _ => rfl

theorem lineIf (code : Option String) :
    Writes (fun indent => (code.map fun code => Zig.line indent code.toList).getD []) (Page.lineIf code) := by
  cases code with
  | none => exact nothing
  | some code => exact line code

theorem and_then (left : Writes text first) (right : Writes more second) :
    Writes (fun indent => text indent ++ more indent) fun p => second (first p) := by
  intro p
  change second (first p) = _
  rw [left p, right, List.append_assoc]

theorem nest (width : Int) (inside : Writes text first) :
    Writes (fun indent => text (deeper width indent 1)) (Page.nest width first) := by
  intro p
  have back : deeper width (deeper width p.indent 1) (-1) = p.indent := by
    unfold deeper
    omega
  rw [Page.nest, inside, shift, shift, back]

theorem splice (width : Int) (body : List Char) :
    Writes (fun indent => Zig.splice (deeper width indent 1) body) (Page.splice width body) := by
  have inside : Writes (fun indent => Zig.splice indent body)
      (fun p => if isBlankText body then p else p.paragraph body) := by
    intro p
    unfold Zig.splice
    split
    · rw [List.append_nil]
    · rfl
  exact nest width inside

theorem assign (slots : List String) (results : List Expr) :
    Writes (fun indent => slotAssignments indent slots results) (Page.assign slots results) := by
  induction slots generalizing results with
  | nil => exact nothing
  | cons slot slots ih =>
    cases results with
    | nil => exact nothing
    | cons result results => exact (line _).and_then (ih results)

theorem arm (width : Int) (case : String) (body : List Char) (value label : String) :
    ∃ text, Writes text (Page.switchArm width case body value label) ∧
      text width = Zig.switchArm width case body value label := by
  by_cases blank : isBlankText body = true
  · have only : Page.switchArm width case body value label = (·.line (case ++ " => " ++ value ++ ",")) := by
      funext p
      rw [Page.switchArm, if_pos blank]
    rw [only, Zig.switchArm, if_pos blank]
    exact ⟨_, line _, rfl⟩
  · have whole : Page.switchArm width case body value label = fun p =>
        ((((p.line (case ++ " => " ++ label ++ ": \x7b")).splice width body).nest width
          (·.line ("break :" ++ label ++ " " ++ value ++ ";"))).line "\x7d,") := by
      funext p
      rw [Page.switchArm, if_neg blank]
    have twice : deeper width width 1 = 2 * width := by
      unfold deeper
      omega
    rw [whole, Zig.switchArm, if_neg blank]
    refine ⟨_, (((line _).and_then (splice width body)).and_then (nest width (line _))).and_then (line _), ?_⟩
    rw [twice, Zig.splice, if_neg blank]

theorem print (width : Int) (stmt : Stmt) :
    ∃ text, Writes text (Page.print width · stmt) ∧ text 0 = stmt.render width := by
  have once : deeper width 0 1 = width := by
    unfold deeper
    omega
  cases stmt with
  | ifSome value name slots present presentResults absent absentResults =>
    refine ⟨_, (((((line _).and_then (splice width _)).and_then (nest width (assign _ _))).and_then
      (line _)).and_then (splice width _)).and_then (nest width (assign _ _)) |>.and_then (line _), ?_⟩
    rw [once]
    rfl
  | switchOption name type discriminant absent present payload =>
    obtain ⟨first, one, zero⟩ := arm width "0" (Stmt.renderAll width absent) "null" (name ++ "_none")
    obtain ⟨second, two, some⟩ := arm width "1" (Stmt.renderAll width present) payload.render (name ++ "_some")
    refine ⟨_, ((line _).and_then (nest width ((one.and_then two).and_then (line _)))).and_then (line _), ?_⟩
    simp only [once, zero, some, Stmt.render, List.append_assoc]
  | forEach items byPointer item index base body last =>
    refine ⟨_, ((((line _).and_then (nest width (lineIf _))).and_then (splice width _)).and_then
      (nest width (lineIf _))).and_then (line _), ?_⟩
    rw [once]
    cases base <;> cases last <;> rfl
  | _ => exact ⟨_, line _, rfl⟩

end Writes

theorem printAll_eq (width : Int) (stmts : List Stmt) (text : List Char) :
    printAll width stmts ⟨text, 0⟩ = ⟨text ++ Stmt.renderAll width stmts, 0⟩ := by
  induction stmts generalizing text with
  | nil =>
    rw [Stmt.renderAll, List.append_nil]
    rfl
  | cons stmt rest ih =>
    obtain ⟨rendered, writes, same⟩ := Writes.print width stmt
    have first : print width ⟨text, 0⟩ stmt = ⟨text ++ rendered 0, 0⟩ := writes ⟨text, 0⟩
    rw [printAll, List.foldl_cons, first]
    change printAll width rest _ = _
    rw [ih, same, Stmt.renderAll, List.append_assoc]

/-- Wherever the page stands, statements leave it there. -/
theorem printAll_indent (width : Int) (stmts : List Stmt) (p : Page) :
    (printAll width stmts p).indent = p.indent := by
  induction stmts generalizing p with
  | nil => rfl
  | cons stmt rest ih =>
    obtain ⟨rendered, writes, _⟩ := Writes.print width stmt
    have first : print width p stmt = { p with text := p.text ++ rendered p.indent } := writes p
    rw [printAll, List.foldl_cons]
    exact (ih _).trans (by rw [first])

end Page

end ZigBindings.Zig
