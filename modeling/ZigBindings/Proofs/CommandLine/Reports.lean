import ZigBindings.CommandLine.Run
import ZigBindings.Proofs.World.Shapes

/-! What a run makes of a description that cannot be read. A fault of the format has a message, which
the log shows before the run ends with code 1; a walk that fails has none, and the run breaks off. -/

namespace ZigBindings.CommandLine
open World (Entries shaped parse_walks)

variable {files : Files} {r : Request} {worldFile : String} {options : Options} {description : Entries}
  {fault : Fault}

theorem execute_unread (set : loadOptions files r = .ok options)
    (read : readDocument files (normalPath worldFile) = .ok (.mapping description))
    (unread : World.parse description = .error fault) :
    execute files r worldFile = fail (normalPath worldFile) [] fault := by
  have world : loadWorld files (normalPath worldFile) = .error fault := by
    rw [loadWorld, read, ok_bind]
    exact unread
  have loaded : load files r (normalPath worldFile) = .error fault := by
    rw [load, set, ok_bind, world, error_bind]
  rw [execute, loaded]

/-- Whatever a description holds, it is read, in which case it has the shape that its places ask for; or
it is refused for its format, which a run reports; or one of its places has another shape, the walk
fails there, and a run breaks off without a report. -/
theorem description_settles (description : Entries) :
    (shaped description = true ∧ ∃ result, World.parse description = .ok result) ∨
    (∃ cause, World.parse description = .error (.format cause) ∧ ∀ files r worldFile options,
      loadOptions files r = .ok options →
      readDocument files (normalPath worldFile) = .ok (.mapping description) →
      execute files r worldFile =
        .finished 1 "" [s!"ERROR: Cannot load {normalPath worldFile}: {cause.message}"] []) ∨
    (shaped description = false ∧ ∃ fault, (fault = .notMapping ∨ fault = .wrongShape) ∧
      World.parse description = .error fault ∧ ∀ files r worldFile options,
        loadOptions files r = .ok options →
        readDocument files (normalPath worldFile) = .ok (.mapping description) →
        execute files r worldFile = .failed fault) := by
  have walks := parse_walks description
  cases ended : World.parse description with
  | ok result =>
    rw [ended] at walks
    cases walks with
    | done _ holds => exact .inl ⟨holds, result, rfl⟩
  | error fault =>
    rw [ended] at walks
    cases walks with
    | refused cause =>
      refine .inr (.inl ⟨cause, rfl, fun files r worldFile options set read => ?_⟩)
      exact execute_unread set read ended
    | stumbled other walk =>
      have unshaped := Bool.eq_false_of_not_eq_true other
      refine .inr (.inr ⟨unshaped, fault, walk, rfl, fun files r worldFile options set read => ?_⟩)
      rw [execute_unread set read ended]
      rcases walk with rfl | rfl
      · rfl
      · rfl

def listing : Entries := [(.text "world", .text "w"), (.text "interfaces", .list [.text "a"])]

def listingFiles : Files where
  read _ := .ok "world: w\ninterfaces: [a]\n"
  makeDirectory _ := .ok ()
  document := Yaml.read

theorem listing_unreported : execute listingFiles {} "w.yaml" = .failed .notMapping := by
  obtain ⟨holds, -⟩ | ⟨cause, refused, -⟩ | ⟨-, fault, -, stumbled, outcome⟩ := description_settles listing
  · cases holds
  · cases refused
  · cases stumbled
    exact outcome listingFiles {} "w.yaml" {} rfl rfl

/-- Names of interfaces in a list are neither read nor refused for their format. -/
theorem listing_stumbles :
    ¬ ((∃ result, World.parse listing = .ok result) ∨ ∃ cause, World.parse listing = .error (.format cause)) := by
  rintro (⟨result, never⟩ | ⟨cause, never⟩)
  · cases never
  · cases never

end ZigBindings.CommandLine
