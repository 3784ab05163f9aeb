import ZigBindings.CommandLine.Arguments
import ZigBindings.CommandLine.Disk
import ZigBindings.Generate
import ZigBindings.World.Parse

/-!
A run of the command: read the options and the world file, generate the module, and print it or
write it to a directory. Files are reached, and documents read, only through the functions of `Files`.
-/

namespace ZigBindings.CommandLine

/-- How a run ends: before it begins, by a fault that is not reported, or with an exit code. -/
inductive Outcome where
  | stopped (stop : Stop)
  | failed (fault : Fault)
  | finished (code : Nat) (output : String) (log : List String) (files : List (String × String))
deriving Inhabited

def readDocument (files : Files) (path : String) : Except Fault Document := do
  let text ← (files.read path).mapError .file
  files.document text

def loadOptions (files : Files) (r : Request) : Except Fault Options :=
  match r.options with
  | none => pure {}
  | some path => do
    let path := normalPath path
    let data ← readDocument files path
    Options.ofFile path data

def loadWorld (files : Files) (path : String) : Except Fault (Registry × Nat) := do
  match ← readDocument files path with
  | .mapping entries => World.parse entries
  | _ => throw (.format (.topLevel path))

/-- Everything that generation needs, read in the order in which faults are reported. -/
def load (files : Files) (r : Request) (path : String) :
    Except Fault (Options × Registry × Nat) := do
  let options ← loadOptions files r
  let (registry, id) ← loadWorld files path
  match r.world with
  | none => pure (options, registry, id)
  | some name => pure (options, registry, ← registry.findWorld name)

/-- The line of the log for a fault of the input or of generation; others are not reported. -/
def report? (path : String) (fault : Fault) : Option String :=
  match fault with
  | .generation _ _ => fault.message?.map fun message => s!"ERROR: Generation failed: {message}"
  | _ => fault.message?.map fun message => s!"ERROR: Cannot load {path}: {message}"

def fail (path : String) (log : List String) (fault : Fault) : Outcome :=
  match report? path fault with
  | some line => .finished 1 "" (log ++ [line]) []
  | none => .failed fault

def deliver (files : Files) (r : Request) (log : List String) (made : List Generate.Output) :
    Outcome :=
  match r.outDir with
  | none => .finished 0 (String.join (made.map (·.text))) log []
  | some directory =>
    let directory := normalPath directory
    match files.makeDirectory directory with
    | .error fault => .failed fault
    | .ok _ =>
      let written := made.map fun file => (joinPath directory file.name, file.text)
      .finished 0 "" (log ++ written.map fun (path, _) => s!"INFO: Wrote {path}") written

def execute (files : Files) (r : Request) (worldFile : String) : Outcome :=
  let path := normalPath worldFile
  match load files r path with
  | .error fault => fail path [] fault
  | .ok (options, registry, id) =>
    let (tasks, result) := Generate.files registry id options
    let log := if r.verbose then tasks.map fun line => s!"DEBUG: {line}" else []
    match result with
    | .error fault => fail path log fault
    | .ok made => deliver files r log made

def run (files : Files) (args : List String) : Outcome :=
  match parse args with
  | .error stop => .stopped stop
  | .ok (request, worldFile) => execute files request worldFile

end ZigBindings.CommandLine
