import Lightning.StaticFile
import Lightning.Lib.Paths

/-!
# The files of a tree of directories

What the static file handlers find when the file system is a tree of directories and regular files
and the process runs in the directory `cwd`. As on Linux a directory can be opened too, and nothing
can be read from it. There are no symbolic links, and the paths are short enough for the system.
-/

namespace Lightning

open Paths

/-- What a part of a path does: an empty part is that of a repeated or final `/`. -/
def pathComponent (name : Bytes) : Component Bytes :=
  if name = [] ∨ name = chars "." then .stay
  else if name = chars ".." then .up
  else .down name

def pathComponents (path : Bytes) : List (Component Bytes) := (path.splitOn 47).map pathComponent

/-- An absolute path starts at the root. -/
def pathStart (cwd : Location Bytes) (path : Bytes) : Location Bytes :=
  if path.head? = some 47 then [] else cwd

/-- What can be read from it. -/
def entryContents : Entry Bytes → Bytes
  | .file content => content
  | .directory => []

/-- What a path leads to; the empty one leads nowhere. -/
def openEntry (tree : Tree Bytes Bytes) (cwd : Location Bytes) (path : Bytes) :
    Option (Entry Bytes) :=
  if path = [] then none else tree.read (pathStart cwd path) (pathComponents path)

def FileSystem.ofTree (cwd : Location Bytes) (tree : Tree Bytes Bytes) : FileSystem := fun path =>
  (openEntry tree cwd path).map entryContents

namespace handlers

/-- The answer of `serveFolder` for what it has found. -/
def folderAnswer (request : HttpRequest) (found : Option (Entry Bytes))
    (notFoundResolver : Resolver) : Program :=
  match found with
  | none => notFoundResolver request
  | some entry => .respond (fileResponse (chars "text/html") (entryContents entry))

theorem serveFolder_ofTree {tree : Tree Bytes Bytes} {cwd : Location Bytes} {folder : Bytes}
    {notFoundResolver : Resolver} {request : HttpRequest} :
    serveFolder (.ofTree cwd tree) folder notFoundResolver request =
      folderAnswer request (openEntry tree cwd (cStr (folder ++ request.rawUri)))
        notFoundResolver := by
  rw [serveFolder, openFile, FileSystem.ofTree]
  cases openEntry tree cwd (cStr (folder ++ request.rawUri)) <;> rfl

end handlers

end Lightning
