import ZigBindings.Proofs.Generate.Reachability
import ZigBindings.Proofs.Wrapper.Locals
import ZigBindings.Proofs.Zig.Lines
import ZigBindings.Proofs.Zig.Literals

/-! The names that host and guest link functions by. Inward the symbol is escaped, so it can be read
back; outward the library and the function are quoted as they are, which a quote or a backslash in
them does not survive. -/

namespace ZigBindings
open Zig

/-- The library and the function of a declaration, from behind the library's opening quote on. -/
def Zig.readExtern (s : List Char) : Option (List Char × List Char) := do
  let (library, rest) ← readLiteral s
  let rest ← Module.dropWord ", .name = \"".toList rest
  let (function, _) ← readLiteral rest
  pure (library, function)

section
variable {library function rest : List Char}

theorem Zig.clear_library (rest : List Char) : Clear (", .name = \"".toList ++ rest) := by
  intro v behind read
  have ends : readLiteral (", .name = \"".toList ++ rest) = some (", .name = ".toList, rest) := rfl
  cases ends.symm.trans read
  exact .inr (by decide)

theorem Zig.clear_function (rest : List Char) : Clear (" \x7d);\n".toList ++ rest) := by
  intro v behind read
  have ends : readLiteral (" \x7d);\n".toList ++ rest) =
      (readLiteral rest).map fun (text, behind) => (" \x7d);\n".toList ++ text, behind) := by
    have letters : " \x7d);\n".toList = [' ', '}', ')', ';', '\n'] := by decide
    simp only [letters, List.cons_append, List.nil_append]
    iterate 5 rw [readLiteral_plain (by decide) (by decide)]
    simp only [Option.map_map, Function.comp_def]
  rw [ends] at read
  obtain ⟨⟨text, _⟩, -, same⟩ := Option.map_eq_some_iff.mp read
  cases same
  exact .inl (List.mem_append_left _ (by decide))

theorem Zig.readExtern_iff (line : '\n' ∉ library) (also : '\n' ∉ function) :
    readExtern (library ++ '"' :: (", .name = \"".toList ++ (function ++ '"' :: (" \x7d);\n".toList ++ rest)))) =
      some (library, function) ↔ ∀ c ∈ library ++ function, c ≠ '"' ∧ c ≠ '\\' := by
  have first := fun behind => @readLiteral_raw library _ behind line
    (clear_library (function ++ '"' :: (" \x7d);\n".toList ++ rest)))
  have second := fun behind => @readLiteral_raw function _ behind also (clear_function rest)
  simp only [readExtern, Option.bind_eq_bind, Option.bind_eq_some_iff, pure, Option.some.injEq, Prod.mk.injEq,
    Prod.exists, List.forall_mem_append]
  constructor
  · rintro ⟨_, behind, read, middle, dropped, _, last, also, rfl, rfl⟩
    obtain ⟨plain, rfl⟩ := (first behind).mp read
    rw [Module.dropWord_append] at dropped
    cases dropped
    exact ⟨plain, ((second last).mp also).1⟩
  · rintro ⟨plain, bare⟩
    exact ⟨_, _, (first _).mpr ⟨plain, rfl⟩, _, Module.dropWord_append _ _, _, _, (second _).mpr ⟨bare, rfl⟩,
      rfl, rfl⟩

end

namespace Crossing

/-- The host is called once, outside of all blocks. -/
theorem outward_calls {a : Arena} {f : Function} (passable : ∀ ty ∈ f.types, Passable a ty) :
    Ensures (outward a f) fun code => ∃ before after sig, signature a .outward f = .ok sig ∧
      code = before ++ ([.callWasm f.name sig] ++ after) ∧ Woven False True after := by
  have results : ∀ ty ∈ f.results.types, Passable a ty := fun ty member => passable ty (Function.result_mem member)
  have returned : Woven False True [.ret f.results.types.length] := .plain trivial
  intro code done
  obtain ⟨sig, signed, done⟩ := bind_eq_ok.mp done
  obtain ⟨arguments, -, done⟩ := bind_eq_ok.mp done
  split at done
  · obtain ⟨extent, -, done⟩ := bind_eq_ok.mp done
    have points : Woven False True [.returnPointer extent.size extent.align] := .plain trivial
    obtain ⟨lifted, reads, done⟩ := bind_eq_ok.mp done
    cases done
    have moved := (readAll_moves results (fun _ _ _ _ _ _ => False.elim) points _ reads).1
    exact ⟨arguments ++ [.returnPointer extent.size extent.align], lifted ++ [.ret f.results.types.length], sig,
      signed, by simp, moved.append returned⟩
  · obtain ⟨parts, lifts, done⟩ := bind_eq_ok.mp done
    cases done
    have lifted : Woven False True parts.flatten := mapM_woven (fun ty member =>
      liftWithin_woven (results ty member) fun _ _ _ _ => False.elim) _ lifts
    exact ⟨arguments, parts.flatten ++ [.ret f.results.types.length], sig, signed, by simp,
      lifted.append returned⟩

end Crossing

namespace Emission

theorem fresh_line (s : Emission) {name : String} (line : '\n' ∉ name.toList) :
    '\n' ∉ (s.fresh name).1.toList := by
  by_cases taken : name ∈ s.used
  · obtain ⟨n, same⟩ := s.fresh_taken taken
    rw [same, numbered, String.toList_append, List.mem_append]
    rintro (inside | digit)
    · exact line inside
    · exact absurd (digits_reverse n '\n' (List.mem_reverse.mpr digit)) (by decide)
  · rwa [s.fresh_free taken]

theorem callWasm_body {setting : Setting} {name : String} {sig : Signature} {s s' : Emission}
    (done : s.callWasm setting name sig = .ok s') : ∃ callee, '\n' ∉ callee.toList ∧
      s.body ++ [.const callee none (externOf setting name)] <+: s'.body := by
  by_cases inward : setting.direction ≠ .outward
  · simp [callWasm, inward, throw_eq_error] at done
  by_cases many : 1 < sig.results.length
  · simp [callWasm, inward, many, throw_eq_error] at done
  simp only [callWasm, inward, many, if_false, bind_eq_ok, Prod.exists, popN_eq_ok, pure_eq_ok] at done
  obtain ⟨args, t, ⟨_, rfl⟩, done⟩ := done
  refine ⟨_, @fresh_line t "wasm_import" (by decide), ?_⟩
  have body := (t.fresh_same "wasm_import").body
  split at done
  · cases done
    simp [write, pushAll, body]
  · cases done
    simp [write, push, pushAll, (fresh_same _ "ret").body, body]

end Emission

namespace Wrapper
open Emission

/-- The declaration of a host function, up to the library's opening quote and from there on. -/
def externHead (callee : String) (sig : Signature) : String :=
  "const " ++ callee ++ " = @extern(" ++ functionType sig ++ ", .\x7b .library_name = \""

theorem constant_import (setting : Setting) (callee name : String) :
    (constant callee none (externOf setting name)).toList =
      (externHead callee setting.signature).toList ++
        (setting.linkName.toList ++ '"' :: (", .name = \"".toList ++ (name.toList ++ '"' :: " \x7d);".toList))) := by
  simp [constant, externOf, externHead, Expr.render, Expr.renderAll, commas, quote]

variable {shared : Shared} {place : Place} {f : Function} {text : List Char}

theorem emitBody_declares {setting : Setting} {start s : Emission} (outward : setting.direction = .outward)
    (passable : ∀ ty ∈ setting.function.types, Passable setting.arena ty)
    (done : emitBody setting start = .ok s) : ∃ callee before after, '\n' ∉ callee.toList ∧
      s.body = before ++ .const callee none (externOf setting setting.function.name) :: after := by
  simp only [emitBody, bind_eq_ok, pure_eq_ok, Except.ok.injEq] at done
  obtain ⟨code, generated, last, emitted, _, -, rfl⟩ := done
  rw [outward] at generated
  obtain ⟨first, others, sig, -, rfl, late⟩ := Crossing.outward_calls passable code generated
  obtain ⟨m, -, emitted⟩ := append_ok emitted
  obtain ⟨n, called, after⟩ := append_ok emitted
  obtain ⟨written, more⟩ := woven_flows late _ _ after
  obtain ⟨callee, line, rest, body⟩ := callWasm_body (show m.callWasm setting _ sig = .ok n by
    simpa [emitAll, emit] using called)
  refine ⟨callee, m.body, rest ++ written, line, ?_⟩
  rw [more.body, ← body]
  simp

theorem assemble_line {direction : Direction} {width : Int} {header : String} {s : Emission}
    {before after : List Stmt} {stmt : Stmt} {code : List Char} (body : s.body = before ++ stmt :: after)
    (written : stmt.render width = line 0 code) (visible : isBlankText code = false) (one : '\n' ∉ code) :
    ∃ p q, assemble direction width header s = p ++ (code ++ '\n' :: q) := by
  have rendered : s.bodyText width = Stmt.renderAll width before ++ (code ++ '\n' :: Stmt.renderAll width after) := by
    rw [bodyText, body, Stmt.renderAll_append, Stmt.renderAll, written]
    simp [line]
  have shown : isBlankText (s.bodyText width) = false := by
    simp only [isBlankText] at visible ⊢
    rw [rendered, List.all_append, List.all_append, visible, Bool.false_and, Bool.and_false]
  obtain ⟨p, q, moved⟩ := text_line width visible one (Stmt.renderAll_endsLine width before)
    (Stmt.renderAll width after)
  have moved_in : line width code = List.replicate width.toNat ' ' ++ (code ++ ['\n']) := List.append_assoc _ _ _
  rw [assemble, splice, shown, if_neg (by decide), rendered, moved, moved_in]
  generalize line 0 header.toList ++ List.flatMap _ _ = front
  exact ⟨front ++ (p ++ List.replicate width.toNat ' '), q ++ line 0 "\x7d".toList, by
    simp only [List.append_assoc, List.cons_append, List.nil_append]⟩

theorem line_commas {items : List String} (each : ∀ item ∈ items, '\n' ∉ item.toList) :
    '\n' ∉ (commas items).toList := by
  induction items with
  | nil => simp [commas]
  | cons item rest ih =>
    obtain ⟨first, others⟩ := List.forall_mem_cons.mp each
    cases rest with
    | nil => simpa [commas] using first
    | cons next more =>
      rw [commas, String.intercalate_cons_cons, String.toList_append, String.toList_append, List.mem_append,
        List.mem_append]
      rintro ((inside | comma) | behind)
      · exact first inside
      · exact absurd comma (by decide)
      · exact ih others behind

theorem line_slot (slot : Slot) : '\n' ∉ slot.name.toList := by cases slot <;> decide

theorem line_functionType (sig : Signature) : '\n' ∉ (functionType sig).toList := by
  have params : '\n' ∉ (commas (sig.params.map Slot.name)).toList := line_commas fun item member => by
    obtain ⟨slot, -, rfl⟩ := List.mem_map.mp member
    exact line_slot slot
  have results : '\n' ∉ (slotOrVoid sig.results).toList := by
    rw [slotOrVoid.eq_def]
    split
    · decide
    · exact line_slot _
  simp only [functionType, String.toList_append, List.mem_append, not_or]
  exact ⟨⟨⟨by decide, params⟩, by decide⟩, results⟩

theorem line_externHead {callee : String} (line : '\n' ∉ callee.toList) (sig : Signature) :
    '\n' ∉ (externHead callee sig).toList := by
  simp only [externHead, String.toList_append, List.mem_append, not_or]
  exact ⟨⟨⟨⟨by decide, line⟩, by decide⟩, line_functionType sig⟩, by decide⟩

theorem visible_externHead (callee : String) (sig : Signature) (rest : List Char) :
    isBlankText ((externHead callee sig).toList ++ rest) = false := by
  simp only [externHead, String.toList_append, List.append_assoc]
  rfl

/-- The declaration in the text of a wrapper, and when its names are read from there. -/
theorem outward_links (compiled : outward shared place f = .ok text) (line : '\n' ∉ place.linkName.toList)
    (also : '\n' ∉ f.name.toList) :
    ∃ before callee sig rest, Crossing.signature shared.arena .outward f = .ok sig ∧
      text = before ++ ((externHead callee sig).toList ++ rest) ∧
      (readExtern rest = some (place.linkName.toList, f.name.toList) ↔
        ∀ c ∈ place.linkName.toList ++ f.name.toList, c ≠ '"' ∧ c ≠ '\\') := by
  simp only [outward, bind_eq_ok, pure_eq_ok, Except.ok.injEq] at compiled
  obtain ⟨types, spelled, result, answered, made, known, s, done, rfl⟩ := compiled
  simp only [setting, bind_eq_ok, pure_eq_ok, Except.ok.injEq] at known
  obtain ⟨sig, signed, rfl⟩ := known
  have passable : ∀ ty ∈ f.types, Passable shared.arena ty := by
    refine forall_types.mpr ⟨fun p member => ?_, fun ty member =>
      (spellResults_spellable answered ty member).passable⟩
    obtain ⟨type, -, spelled⟩ := ok_of_mapM spelled p member
    exact (spellWithin_spellable spelled).passable
  obtain ⟨callee, first, others, single, body⟩ := emitBody_declares rfl passable done
  have one : '\n' ∉ (externHead callee sig).toList ++ (place.linkName.toList ++ '"' ::
      (", .name = \"".toList ++ (f.name.toList ++ '"' :: " \x7d);".toList))) := by
    simp only [List.mem_append, List.mem_cons, not_or]
    exact ⟨line_externHead single sig, line, by decide, by decide, also, by decide, by decide⟩
  obtain ⟨p, q, stands⟩ := assemble_line body (congrArg (Zig.line 0) (constant_import _ callee f.name))
    (visible_externHead callee sig _) one
  refine ⟨p, callee, sig, _, signed, by rw [stands, List.append_assoc], ?_⟩
  have tail : " \x7d);".toList ++ '\n' :: q = " \x7d);\n".toList ++ q := by
    have letters : " \x7d);\n".toList = " \x7d);".toList ++ ['\n'] := by decide
    rw [letters, List.append_assoc]
    rfl
  simp only [List.append_assoc, List.cons_append, tail]
  exact readExtern_iff line also

/-- A name is read back from a wrapper as it was. The symbol of an entry point is, unless it is broken;
of a host function on one line neither the library's name nor its own may have a quote or a
backslash. -/
theorem source_links {direction : Direction} (compiled : source shared place direction f = .ok text) :
    (direction = .outward → '\n' ∉ place.linkName.toList → '\n' ∉ f.name.toList →
      ∃ before callee sig rest, Crossing.signature shared.arena .outward f = .ok sig ∧
        text = before ++ ((externHead callee sig).toList ++ rest) ∧
        (readExtern rest = some (place.linkName.toList, f.name.toList) ↔
          ∀ c ∈ place.linkName.toList ++ f.name.toList, c ≠ '"' ∧ c ≠ '\\')) ∧
    (direction = .inward → ∃ symbol rest,
      symbol = (if place.path.isEmpty then f.name else place.linkName ++ "#" ++ f.name) ∧
        text = "pub export fn ".toList ++ rest ∧
        ((∃ behind, readIdentifier rest = some (symbol.toList, behind)) ↔
          Name.isBroken symbol.toList = false)) := by
  refine ⟨fun outward line also => ?_, fun inward => ?_⟩
  · subst outward
    exact outward_links (mapError_eq_ok.mp compiled) line also
  · subst inward
    obtain ⟨rest, header⟩ := inward_header (source_inward compiled)
    exact ⟨exportSymbol place f, _, rfl, header, readIdentifier_escaped_iff _ rest⟩

def greet : Function where
  name := "say \"hi\""

def wave : Function where
  name := "wave"

/-- The quotes do no harm to a symbol, but keep the host from finding a function that it would find
without them. -/
theorem greet_links :
    (∃ text rest behind, source { arena := #[] } {} .inward greet = .ok text ∧
      text = "pub export fn ".toList ++ rest ∧ readIdentifier rest = some (greet.name.toList, behind)) ∧
    (∃ text before callee sig rest, source { arena := #[] } {} .outward greet = .ok text ∧
      text = before ++ ((externHead callee sig).toList ++ rest) ∧
      readExtern rest ≠ some ("$root".toList, greet.name.toList)) ∧
    ∃ text before callee sig rest, source { arena := #[] } {} .outward wave = .ok text ∧
      text = before ++ ((externHead callee sig).toList ++ rest) ∧
      readExtern rest = some ("$root".toList, wave.name.toList) := by
  have compiles : ∀ direction f, f = greet ∨ f = wave →
      ∃ text, source { arena := #[] } {} direction f = .ok text := by
    rintro (_ | _) f (rfl | rfl) <;> exact ⟨_, rfl⟩
  refine ⟨?_, ?_, ?_⟩
  · obtain ⟨text, compiled⟩ := compiles .inward greet (.inl rfl)
    obtain ⟨symbol, rest, rfl, header, found⟩ := (source_links compiled).2 rfl
    obtain ⟨behind, read⟩ := found.mpr (by decide)
    exact ⟨text, rest, behind, compiled, header, read⟩
  · obtain ⟨text, compiled⟩ := compiles .outward greet (.inl rfl)
    obtain ⟨before, callee, sig, rest, -, stands, linked⟩ :=
      (source_links compiled).1 rfl (by decide) (by decide)
    refine ⟨text, before, callee, sig, rest, compiled, stands, fun read => ?_⟩
    exact (linked.mp read '"' (by decide)).1 rfl
  · obtain ⟨text, compiled⟩ := compiles .outward wave (.inr rfl)
    obtain ⟨before, callee, sig, rest, -, stands, linked⟩ :=
      (source_links compiled).1 rfl (by decide) (by decide)
    exact ⟨text, before, callee, sig, rest, compiled, stands, linked.mpr (by simp [wave])⟩

/-- The host is asked for another function than the one that the wrapper is for. -/
theorem greet_unlinked : ∃ text before rest, source { arena := #[] } {} .outward greet = .ok text ∧
    text = before ++ ((externHead "wasm_import" ⟨[], [], false, false⟩).toList ++ rest) ∧
      readExtern rest = some ("$root".toList, "say ".toList) ∧ "say " ≠ greet.name := by
  refine ⟨_, "pub fn @\"say_\\\"hi\\\"\"() void \x7b\n    ".toList,
    "$root\", .name = \"say \"hi\"\" \x7d);\n    wasm_import();\n\x7d\n".toList, rfl, ?_, rfl, by decide⟩
  decide +kernel

end Wrapper

end ZigBindings
