import ZigBindings.CommandLine.Run
import ZigBindings.Proofs.CommandLine.Paths
import ZigBindings.Proofs.Generate.Contents
import ZigBindings.Proofs.Name.Normal

/-! Where a run writes. A file is named for its world by a declaration name, which is one name without
dots, so every file that is written is an entry of the directory that was asked for. -/

namespace ZigBindings

namespace Generate
open Name

theorem toList_fileName (w : World) : (fileName w).toList = (Name.declaration w.name).toList ++ ".zig".toList := by
  rw [fileName, String.toList_append]

theorem not_mem_declaration {sign : Char} (separates : isSeparator sign = true) (other : sign ≠ '_') (raw : String) :
    sign ∉ (Name.declaration raw).toList := by
  intro member
  rw [Name.declaration, String.toList_ofList] at member
  exact other ((declarationChars_normal raw.toList).separators sign member separates)

theorem count_fileName (w : World) : (fileName w).toList.count '.' = 1 := by
  rw [toList_fileName, List.count_append, List.count_eq_zero.mpr (not_mem_declaration (by decide) (by decide) w.name)]
  rfl

theorem fileName_isName (w : World) : CommandLine.IsName (fileName w) ∧ fileName w ≠ ".." := by
  have last : (fileName w).toList.getLast? = some 'g' := by
    rw [toList_fileName, List.getLast?_append_of_ne_nil _ (by decide)]
    rfl
  refine ⟨⟨?_, ?_, ?_⟩, ?_⟩
  · rw [toList_fileName, List.mem_append, not_or]
    exact ⟨not_mem_declaration (by decide) (by decide) w.name, by decide⟩
  all_goals
    intro same
    rw [same] at last
    exact absurd last (by decide)

end Generate

namespace CommandLine
open Generate (fileName)

variable {files : Files} {r : Request} {worldFile path output : String} {code : Nat} {log log' : List String}
  {written : List (String × String)} {file : String × String}

theorem fail_written {fault : Fault} (done : fail path log fault = .finished code output log' written) :
    written = [] := by
  rw [fail] at done
  split at done
  · cases done
    rfl
  · cases done

theorem deliver_written {made : List Generate.Output} (done : deliver files r log made = .finished code output log' written)
    (member : file ∈ written) :
    ∃ directory, r.outDir = some directory ∧ ∃ given ∈ made, file.1 = joinPath (normalPath directory) given.name := by
  rw [deliver] at done
  split at done
  case h_1 =>
    cases done
    cases member
  case h_2 directory asked =>
    dsimp only at done
    split at done
    · cases done
    · cases done
      obtain ⟨given, known, same⟩ := List.mem_map.mp member
      refine ⟨directory, asked, given, known, ?_⟩
      rw [← same]

/-- The files of a run lie in the directory that was asked for. -/
theorem execute_written (done : execute files r worldFile = .finished code output log written)
    (member : file ∈ written) :
    ∃ directory w, r.outDir = some directory ∧ Enters directory file.1 (fileName w) := by
  rw [execute] at done
  dsimp only at done
  split at done
  case h_1 =>
    rw [fail_written done] at member
    cases member
  case h_2 options registry id loaded =>
    split at done
    case h_1 =>
      rw [fail_written done] at member
      cases member
    case h_2 made generated =>
      obtain ⟨directory, asked, given, known, path⟩ := deliver_written done member
      obtain ⟨g, rfl⟩ := Generate.files_eq_ok generated
      obtain ⟨named, down⟩ := Generate.fileName_isName g.world
      refine ⟨directory, g.world, asked, ?_⟩
      rw [path, List.mem_singleton.mp known]
      exact deliver_enters named down

/-- What a world's name becomes, and with it the files of every run: words joined by single underscores,
without capitals or other separators, which come out the same when they are normalised again; one file,
with no slash in its name and one dot, before the extension; and an entry of the directory that the
command line names, wherever the run writes anything. -/
theorem names_settle :
    (∀ raw, Name.Normal (Name.declaration raw).toList ∧
      Name.declaration (Name.declaration raw) = Name.declaration raw) ∧
    (∀ w : World, fileName w = Name.declaration w.name ++ ".zig" ∧ '/' ∉ (fileName w).toList ∧
      (fileName w).toList.count '.' = 1) ∧
    (∀ r id o outputs, (Generate.files r id o).2 = .ok outputs → ∃ w text, Registry.at? r.worlds id = .ok w ∧
      outputs = [⟨fileName w, text⟩]) ∧
    ∀ files args code output log written, run files args = .finished code output log written →
      ∀ file ∈ written, ∃ request worldFile directory w, parse args = .ok (request, worldFile) ∧
        request.outDir = some directory ∧ Enters directory file.1 (fileName w) := by
  refine ⟨fun raw => ?_, fun w => ?_, ?_, ?_⟩
  · rw [Name.declaration, String.toList_ofList]
    exact ⟨Name.declarationChars_normal raw.toList, Name.declaration_declaration raw⟩
  · exact ⟨rfl, (Generate.fileName_isName w).1.line, Generate.count_fileName w⟩
  · intro r id o outputs done
    obtain ⟨g, rfl⟩ := Generate.files_eq_ok done
    exact ⟨g.world, _, g.found, rfl⟩
  · intro files args code output log written done file member
    rw [run] at done
    split at done
    case h_1 => cases done
    case h_2 request worldFile parsed =>
      obtain ⟨directory, w, asked, enters⟩ := execute_written done member
      exact ⟨request, worldFile, directory, w, parsed, asked, enters⟩

def climbing : Files where
  read _ := .ok "world: up/Or.Down\n"
  makeDirectory _ := .ok ()
  document := Yaml.read

theorem climbing_parsed :
    parse ["w.yaml", "-o", "out"] = .ok ({ worldFile := some "w.yaml", outDir := some "out" }, "w.yaml") := by
  have plain {arg : String} (bare : ¬ "-".toList <+: arg.toList) : classify arg = .ok (.value arg) := by
    rw [classify, Bool.eq_false_iff.mpr fun dash => bare (String.startsWith_string_iff.mp dash)]
    rfl
  have dashed : classify "-o" = .ok (.option "-o" .outDir none) := by
    rw [classify, String.startsWith_string_iff.mpr (by decide)]
    rfl
  have read : words ["w.yaml", "-o", "out"] = .ok [.value "w.yaml", .option "-o" .outDir none, .value "out"] := by
    rw [words, plain (by decide), words, dashed, words, plain (by decide)]
    · rfl
    all_goals decide
  have taken : (Request.take {} [.value "w.yaml", .option "-o" .outDir none, .value "out"]).toOption =
      some { worldFile := some "w.yaml", outDir := some "out" } := by decide +kernel
  rw [parse, read, ok_bind]
  cases took : Request.take {} [.value "w.yaml", .option "-o" .outDir none, .value "out"] with
  | error stop =>
    rw [took] at taken
    exact absurd taken nofun
  | ok request =>
    rw [took] at taken
    rw [ok_bind, Option.some.inj taken]
    rfl

theorem climbing_path : joinPath (normalPath "out") "up_or_down.zig" = "out/up_or_down.zig" := by
  have out : normalPath "out" = "out" := by
    rw [normalPath, components_name ⟨by decide, by decide, by decide⟩]
    rfl
  have open' : ¬ "out".endsWith "/" = true := by
    rw [endsWith_slash]
    decide
  rw [out, joinPath, if_neg (by decide), if_neg open']
  rfl

theorem climbing_written : ∃ text,
    run climbing ["w.yaml", "-o", "out"] =
      .finished 0 "" ["INFO: Wrote out/up_or_down.zig"] [("out/up_or_down.zig", text)] ∧
    ∃ request worldFile directory w, parse ["w.yaml", "-o", "out"] = .ok (request, worldFile) ∧
      request.outDir = some directory ∧ Enters directory "out/up_or_down.zig" (fileName w) := by
  have loaded : load climbing { worldFile := some "w.yaml", outDir := some "out" } (normalPath "w.yaml") =
      .ok ({}, { worlds := #[{ name := "up/Or.Down" }] }, 0) := rfl
  have delivered (text : String) : deliver climbing { worldFile := some "w.yaml", outDir := some "out" } []
      [⟨"up_or_down.zig", text⟩] =
        .finished 0 "" ["INFO: Wrote out/up_or_down.zig"] [("out/up_or_down.zig", text)] := by
    simp only [deliver, List.map_cons, List.map_nil, climbing_path]
    rfl
  obtain ⟨text, done⟩ : ∃ text, run climbing ["w.yaml", "-o", "out"] =
      .finished 0 "" ["INFO: Wrote out/up_or_down.zig"] [("out/up_or_down.zig", text)] := by
    rw [run, climbing_parsed]
    dsimp only
    rw [execute]
    dsimp only
    rw [loaded]
    exact ⟨_, delivered _⟩
  exact ⟨text, done, names_settle.2.2.2 climbing _ _ _ _ _ done _ (List.mem_singleton_self _)⟩

end CommandLine

end ZigBindings
