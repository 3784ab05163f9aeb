/-!
Paths of files: normal forms, and what stands at a path below the current directory.
-/

namespace ZigBindings.CommandLine

/-- The names between slashes; empty ones and single dots say nothing. -/
def components (path : String) : List String :=
  (path.splitOn "/").filter fun name => name != "" && name != "."

/-- One slash, or two where the path begins with exactly two of them. -/
def rootOf (path : String) : String :=
  let slashes := (path.toList.takeWhile (· == '/')).length
  if slashes = 0 then "" else if slashes = 2 then "//" else "/"

/-- The path without empty names and single dots; nothing at all is the current directory. -/
def normalPath (path : String) : String :=
  let text := rootOf path ++ "/".intercalate (components path)
  if text.isEmpty then "." else text

def joinPath (directory name : String) : String :=
  if directory == "." then name
  else if directory.endsWith "/" then directory ++ name
  else directory ++ "/" ++ name

end ZigBindings.CommandLine
