import ZigBindings.Proofs.World.Parsing
import ZigBindings.Proofs.World.Qualified

/-! Link names of declared interfaces. The name of an interface in a package is taken apart when it is
declared and put together again when it is linked. Nothing is lost on the way but a line break at the
end, so two interfaces share a link name only if they differ in that. -/

namespace ZigBindings

/-- The key that an item goes by if it is this interface. -/
def Registry.keyOf (r : Registry) (id : Nat) : Option Key :=
  r.interfaces[id]?.bind fun i => if i.package.isSome then some (.interface id) else i.name.map .name

namespace World
open Text

/-! ### Line breaks at the end -/

theorem dropFinalBreak_append (s : List Char) : dropFinalBreak (s ++ ['\n']) = s := by
  simp [dropFinalBreak]

theorem dropFinalBreak_cases (s : List Char) : s = dropFinalBreak s ∨ s = dropFinalBreak s ++ ['\n'] := by
  rw [dropFinalBreak]
  split
  case isTrue broken =>
    obtain ⟨start, rfl⟩ := List.getLast?_eq_some_iff.mp broken
    exact .inr (by rw [List.dropLast_concat])
  case isFalse => exact .inl rfl

theorem dropFinalBreak_eq_self_iff {s : List Char} : dropFinalBreak s = s ↔ s.getLast? ≠ some '\n' := by
  constructor
  · intro same broken
    obtain ⟨start, rfl⟩ := List.getLast?_eq_some_iff.mp broken
    rw [dropFinalBreak_append] at same
    simpa using congrArg List.length same
  · intro unbroken
    rw [dropFinalBreak, if_neg unbroken]

/-! ### Names in packages -/

theorem qualified?_congr {text other : String}
    (same : dropFinalBreak text.toList = dropFinalBreak other.toList) : qualified? text = qualified? other := by
  rw [qualified?, qualified?, same]

theorem unbroken_of_qualified {text : String} (given : (qualified? text).isSome) :
    (dropFinalBreak text.toList).getLast? ≠ some '\n' := by
  obtain ⟨⟨p, short⟩, read⟩ := Option.isSome_iff_exists.mp given
  obtain ⟨whole, labelled, filled, versioned⟩ := qualified?_spec read
  have bare : ∀ part ∈ [p.space, p.name, short], '\n' ∉ part.toList := fun part member inside =>
    absurd (labelled part member '\n' inside) (by decide)
  have plain : '\n' ∉ versionText p.version := by
    cases version : p.version with
    | none => simp [versionText]
    | some text =>
      rw [versionText, List.mem_cons, not_or]
      exact ⟨by decide, fun inside => absurd (versioned text version '\n' inside) (by decide)⟩
  intro broken
  have inside := List.mem_of_getLast? broken
  rw [← whole, toList_qualifiedName p short filled] at inside
  simp only [List.forall_mem_cons] at bare
  simp [bare.1, bare.2.1, bare.2.2.1, plain] at inside

/-- The name that a declared interface is linked by. -/
def linked (name : String) : String :=
  if (qualified? name).isSome then String.ofList (dropFinalBreak name.toList) else name

theorem linked_of_qualified {name : String} (given : (qualified? name).isSome) :
    (linked name).toList = dropFinalBreak name.toList := by
  rw [linked, if_pos given, String.toList_ofList]

theorem linked_of_plain {name : String} (plain : ¬ (qualified? name).isSome) : linked name = name := by
  rw [linked, if_neg plain]

theorem linked_eq_self_iff {name : String} (given : (qualified? name).isSome) :
    linked name = name ↔ name.toList.getLast? ≠ some '\n' := by
  rw [← dropFinalBreak_eq_self_iff, ← linked_of_qualified given, String.toList_inj]

/-- A name in a package is no link name of an interface outside. -/
theorem linked_ne_plain {name other : String} (given : (qualified? name).isSome)
    (plain : ¬ (qualified? other).isSome) : linked name ≠ other := by
  rintro rfl
  have same : dropFinalBreak (linked name).toList = dropFinalBreak name.toList := by
    rw [linked_of_qualified given, dropFinalBreak_eq_self_iff]
    exact unbroken_of_qualified given
  exact plain (qualified?_congr same ▸ given)

/-- One of two names in packages is the other with a line break behind it. -/
def Broken (name other : String) : Prop :=
  (qualified? name).isSome ∧ (qualified? other).isSome ∧ (name = other ++ "\n" ∨ other = name ++ "\n")

theorem append_break {name : String} {s : List Char} (ends : name.toList = s ++ ['\n']) :
    name = String.ofList s ++ "\n" := by
  apply String.toList_injective
  rw [ends, String.toList_append, String.toList_ofList]
  rfl

theorem linked_append {name other : String} (given : (qualified? name).isSome)
    (also : (qualified? other).isSome) (longer : name = other ++ "\n") : linked name = linked other := by
  have start : dropFinalBreak name.toList = other.toList := by
    rw [longer, String.toList_append]
    exact dropFinalBreak_append _
  have unbroken := unbroken_of_qualified given
  rw [start, ← dropFinalBreak_eq_self_iff] at unbroken
  apply String.toList_injective
  rw [linked_of_qualified given, linked_of_qualified also, start, unbroken]

theorem linked_eq_iff {name other : String} : linked name = linked other ↔ name = other ∨ Broken name other := by
  constructor
  · intro same
    by_cases given : (qualified? name).isSome
    · by_cases also : (qualified? other).isSome
      · have texts : dropFinalBreak name.toList = dropFinalBreak other.toList := by
          rw [← linked_of_qualified given, same, linked_of_qualified also]
        rcases dropFinalBreak_cases name.toList with first | first <;>
          rcases dropFinalBreak_cases other.toList with second | second
        · exact .inl (String.toList_injective (first.trans (texts.trans second.symm)))
        · rw [← texts, ← first] at second
          exact .inr ⟨given, also, .inr (by simpa using append_break second)⟩
        · rw [texts, ← second] at first
          exact .inr ⟨given, also, .inl (by simpa using append_break first)⟩
        · refine .inl (String.toList_injective ?_)
          rw [first, second, texts]
      · exact absurd (same.trans (linked_of_plain also)) (linked_ne_plain given also)
    · by_cases also : (qualified? other).isSome
      · exact absurd (same.symm.trans (linked_of_plain given)) (linked_ne_plain also given)
      · exact .inl (by rwa [linked_of_plain given, linked_of_plain also] at same)
  · rintro (rfl | ⟨given, also, longer | longer⟩)
    · rfl
    · exact linked_append given also longer
    · exact (linked_append also given longer).symm

/-! ### Interfaces of a world -/

section
variable {r : Registry} {names : List String} {w : World}

theorem link_of_described {id : Nat} {i : Interface} {name : String} (found : r.interfaces[id]? = some i)
    (described : r.Describes name i) : ∃ key, r.keyOf id = some key ∧ r.linkName key = .ok (linked name) ∧
      ((qualified? name).isSome → key = .interface id) := by
  rw [Registry.Describes] at described
  split at described
  case h_1 p short read =>
    obtain ⟨package, packaged, known, named⟩ := described
    have given : (qualified? name).isSome := by rw [read]; rfl
    refine ⟨.interface id, by simp [Registry.keyOf, found, packaged], ?_, fun _ => rfl⟩
    have text : Registry.qualifiedName p short = linked name := by
      apply String.toList_injective
      rw [(qualified?_spec read).name, linked_of_qualified given]
    simp only [Registry.linkName, Registry.packaged, Registry.at?, found, packaged, named, known, pure_eq_ok,
      ok_bind, text]
  case h_2 read =>
    obtain ⟨alone, named⟩ := described
    have plain : ¬ (qualified? name).isSome := by simp [read]
    refine ⟨.name name, by simp [Registry.keyOf, found, alone, named], ?_, fun given => absurd given plain⟩
    rw [linked_of_plain plain]
    rfl

theorem key_of_carried {key : Key} {id : Nat} (carried : r.Carries (key, .interface id)) :
    r.keyOf id = some key := by
  obtain ⟨i, found, ⟨alone, name, named, rfl⟩ | ⟨packaged, rfl⟩⟩ := carried
  · simp [Registry.keyOf, found, alone, named]
  · simp [Registry.keyOf, found, packaged]

/-- Every declared interface has a key, which items go by, and a link name. Outside a package the link name
is the declared one. In a package it is the declared one exactly if that does not end in a line break, and
otherwise the line break is lost. So interfaces of two names share a link name exactly if one name is the
other with a line break behind it. -/
theorem parse_links {description : Entries} {id : Nat} (parsed : parse description = .ok (r, id)) :
    ∃ w, r.worlds[id]? = some w ∧
      (∀ (place : Nat) name, (interfaceNames description)[place]? = some name →
        ∃ key, r.keyOf place = some key ∧ r.linkName key = .ok (linked name) ∧
          ((qualified? name).isSome → key = .interface place ∧
            (linked name = name ↔ name.toList.getLast? ≠ some '\n'))) ∧
      (∀ entry ∈ w.imports ++ w.exports, ∀ place, entry.2 = .interface place →
        r.keyOf place = some entry.1) ∧
      ∀ name ∈ interfaceNames description, ∀ other ∈ interfaceNames description,
        (linked name = linked other ↔ name = other ∨ Broken name other) := by
  obtain ⟨rfl, w, closed⟩ := parse_parsed parsed
  refine ⟨w, by rw [closed.world]; rfl, fun place name declared => ?_, fun entry listed place same => ?_,
    fun name _ other _ => linked_eq_iff⟩
  · have inside : place < r.interfaces.size := by
      rw [← closed.length]
      exact (List.getElem?_eq_some_iff.mp declared).1
    have found := Array.getElem?_eq_getElem inside
    obtain ⟨key, goes, links, packaged⟩ := link_of_described found (closed.described place _ name found declared)
    exact ⟨key, goes, links, fun given => ⟨packaged given, linked_eq_self_iff given⟩⟩
  · obtain ⟨key, item⟩ := entry
    obtain rfl : item = .interface place := same
    rcases List.mem_append.mp listed with imported | exported
    · exact key_of_carried (closed.imports.carried _ imported)
    · exact key_of_carried (closed.exports.carried _ exported)

end

def declaring (names : List String) : Entries :=
  [(.text "world", .text "w"),
    (.text "interfaces", .mapping (names.map fun name => (.text name, .mapping [])))]

theorem versions_linked : ∃ r id, parse (declaring ["ns:pkg/iface", "ns:pkg/iface@1.0.0", "clock"]) = .ok (r, id) ∧
    r.linkName (.interface 1) = .ok "ns:pkg/iface@1.0.0" := by
  obtain ⟨⟨r, id⟩, parsed⟩ := isOk_iff.mp
    (show (parse (declaring ["ns:pkg/iface", "ns:pkg/iface@1.0.0", "clock"])).isOk = true by decide +kernel)
  obtain ⟨w, -, links, -, -⟩ := parse_links parsed
  obtain ⟨key, -, link, qualified⟩ := links 1 "ns:pkg/iface@1.0.0" rfl
  obtain ⟨rfl, kept⟩ := qualified (by decide +kernel)
  exact ⟨r, id, parsed, by rw [link, kept.mpr (by decide +kernel)]⟩

/-- A line break at the end of a declared name does not come back, and another interface has the link name
without it. -/
theorem broken_name_lost : ∃ r id, parse (declaring ["ns:pkg/iface", "ns:pkg/iface\n"]) = .ok (r, id) ∧
    (interfaceNames (declaring ["ns:pkg/iface", "ns:pkg/iface\n"]))[1]? = some "ns:pkg/iface\n" ∧
    (qualified? "ns:pkg/iface\n").isSome ∧ r.linkName (.interface 1) = .ok "ns:pkg/iface" ∧
    r.linkName (.interface 0) = .ok "ns:pkg/iface" := by
  have made : (parse (declaring ["ns:pkg/iface", "ns:pkg/iface\n"]) >>= fun result =>
      [0, 1].mapM fun place => result.1.linkName (.interface place)) =
        .ok ["ns:pkg/iface", "ns:pkg/iface"] := by decide +kernel
  obtain ⟨⟨r, id⟩, parsed, links⟩ := bind_eq_ok.mp made
  have each := mapM_eq_ok.mp links
  simp only [List.forall₂_cons] at each
  exact ⟨r, id, parsed, rfl, by decide +kernel, each.2.1, each.1⟩

end World

end ZigBindings
