import ZigBindings.CommandLine.Path
import ZigBindings.Fault
import ZigBindings.Yaml.Read

/-!
How a run reaches files, and a directory of files in memory. Its directories are those that the
files' paths go through, and the current one.
-/

namespace ZigBindings.CommandLine

/-- Files and directories, and the reader of the data language that descriptions and options are
written in. -/
structure Files where
  read : String → Except FileFault String
  makeDirectory : String → Except Fault Unit
  document : String → Except Fault Document

structure Disk where
  files : List (List String × String)
deriving Inhabited

namespace Disk

def ofFiles (files : List (String × String)) : Disk :=
  ⟨files.map fun (path, text) => (components path, text)⟩

/-- The path with each pair of a name and two dots after it removed; nothing above the current
directory is known. -/
def resolve (done : List String) : List String → Option (List String)
  | [] => some done.reverse
  | ".." :: rest =>
    match done with
    | [] => none
    | _ :: done => resolve done rest
  | name :: rest => resolve (name :: done) rest

def place? (path : String) : Option String :=
  if rootOf path ≠ "" then none
  else (resolve [] (components path)).map ("/".intercalate ·)

def isDirectory (d : Disk) (path : List String) : Bool :=
  path.isEmpty || d.files.any fun (file, _) => path.isPrefixOf file && path.length < file.length

/-- Whether a file stands where a directory would have to be on the way to the path. -/
def passesFile (d : Disk) (path : List String) : Bool :=
  d.files.any fun (file, _) => file.isPrefixOf path && file.length < path.length

def read (d : Disk) (path : String) : Except FileFault String :=
  if rootOf path ≠ "" then
    throw (if (components path).isEmpty then .directory path else .missing path)
  else match resolve [] (components path) with
    | none => throw (if (components path).all (· == "..") then .directory path else .missing path)
    | some names =>
      match d.files.lookup names with
      | some text => pure text
      | none =>
        throw (if d.isDirectory names then .directory path
          else if d.passesFile names then .notDirectory path else .missing path)

/-- Makes a directory with all those above it; one that is there already will do. -/
def makeDirectory (d : Disk) (path : String) : Except Fault Unit :=
  match resolve [] (components path) with
  | none => pure ()
  | some names =>
    if (d.files.lookup names).isSome then throw .occupied
    else if d.passesFile names then throw (.file (.notDirectory path))
    else pure ()

def access (d : Disk) : Files where
  read := d.read
  makeDirectory := d.makeDirectory
  document := Yaml.read

end Disk

end ZigBindings.CommandLine
