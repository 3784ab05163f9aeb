import ZigBindings.CommandLine.Run

/-!
The command: generates the bindings of a world.
-/

namespace ZigBindings.CommandLine

def usage : String :=
  "usage: wit2zig [-h] [--world WORLD] [-o OUT_DIR] [--options OPTIONS] [-v] world_file"

def readFile (path : String) : IO (Except FileFault String) := do
  match ← (IO.FS.readFile path).toBaseIO with
  | .ok text => pure (.ok text)
  | .error _ =>
    match ← (IO.FS.realPath path).toBaseIO with
    | .ok found => if ← found.isDir then pure (.error (.directory path)) else pure (.error (.missing path))
    | .error _ => pure (.error (.missing path))

def isOccupied (path : String) : IO Bool := do
  match ← (IO.FS.realPath path).toBaseIO with
  | .ok found => return !(← found.isDir)
  | .error _ => return false

def readAll (paths : List String) : IO (List (String × Except FileFault String)) :=
  paths.mapM fun path => do
    let path := normalPath path
    let text ← readFile path
    pure (path, text)

/-- The files that the command line names, read before the run. -/
def filesOf (args : List String) : IO Files := do
  match parse args with
  | .error _ => pure (Disk.ofFiles []).access
  | .ok (request, worldFile) =>
    let texts ← readAll (worldFile :: request.options.toList)
    let occupied ← request.outDir.toList.filterM fun path => isOccupied (normalPath path)
    pure
      { read := fun path => (texts.lookup path).getD (.error (.missing path))
        makeDirectory := fun _ => if occupied.isEmpty then pure () else throw .occupied
        document := Yaml.read }

def outDirectory (args : List String) : Option String :=
  match parse args with
  | .error _ => none
  | .ok (request, _) => request.outDir.map normalPath

end ZigBindings.CommandLine

open ZigBindings.CommandLine in
def main (args : List String) : IO UInt32 := do
  let files ← filesOf args
  match run files args with
  | .stopped stop =>
    (if stop.code = 0 then IO.println usage else IO.eprintln usage)
    pure stop.code.toUInt32
  | .failed fault =>
    IO.eprintln (fault.message?.getD "The run was ended by a fault.")
    pure 1
  | .finished code output log written =>
    log.forM fun line => IO.eprintln line
    IO.print output
    if let some directory := outDirectory args then
      if !written.isEmpty then IO.FS.createDirAll directory
    written.forM fun (path, text) => IO.FS.writeFile path text
    pure code.toUInt32
