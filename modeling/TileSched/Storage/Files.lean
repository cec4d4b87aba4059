/-!
A directory tree held in memory, with the failures of the file system calls the scheduler makes:
creating a directory and its missing parents, creating or replacing a file, and reading one.
Paths are lists of components relative to a working directory that always exists.

Each call resolves its path the way a POSIX system does: every proper prefix must be a directory
(a missing one is "not found", a file is "not a directory"), and then the last component decides.
-/
namespace TileSched

inductive Entry where
  | file (text : String)
  | dir
  deriving DecidableEq, Repr, Inhabited

inductive IoFailure where
  | notFound
  | alreadyExists
  | notDirectory
  | isDirectory
  deriving DecidableEq, Repr, Inhabited

def IoFailure.message : IoFailure → String
  | .notFound => "No such file or directory (os error 2)"
  | .alreadyExists => "File exists (os error 17)"
  | .notDirectory => "Not a directory (os error 20)"
  | .isDirectory => "Is a directory (os error 21)"

abbrev FilePath := List String

def FilePath.ofName (name : String) : FilePath := if name = "." then [] else [name]

structure FileTree where
  entries : List (FilePath × Entry) := []
  deriving Inhabited

namespace FileTree

def lookup (fs : FileTree) (p : FilePath) : Option Entry :=
  if p.isEmpty then some .dir else fs.entries.lookup p

def isDir (fs : FileTree) (p : FilePath) : Bool := fs.lookup p == some .dir

def resolveParent (fs : FileTree) (p : FilePath) : Except IoFailure Unit :=
  (List.range (p.length - 1)).forM fun k =>
    match fs.lookup (p.take (k + 1)) with
    | some .dir => .ok ()
    | some (.file _) => .error .notDirectory
    | none => .error .notFound

def put (fs : FileTree) (p : FilePath) (e : Entry) : FileTree :=
  { entries := (fs.entries.filter (·.1 != p)) ++ [(p, e)] }

def makeDir (fs : FileTree) (p : FilePath) : Except IoFailure FileTree := do
  fs.resolveParent p
  if (fs.lookup p).isSome then throw .alreadyExists
  return fs.put p .dir

/-- Directory creation along a path given last component first: try the directory itself; if
its parent is missing, create the parent the same way and try again. A directory that already
exists counts as made. -/
def makeDirsRev (fs : FileTree) : List String → Except IoFailure FileTree
  | [] => .ok fs
  | c :: rest =>
    let p := (c :: rest).reverse
    match fs.makeDir p with
    | .ok fs => .ok fs
    | .error e =>
      if e = .notFound then do
        let fs ← fs.makeDirsRev rest
        match fs.makeDir p with
        | .ok fs => .ok fs
        | .error e => if fs.isDir p then .ok fs else .error e
      else if fs.isDir p then .ok fs
      else .error e

def makeDirs (fs : FileTree) (p : FilePath) : Except IoFailure FileTree := fs.makeDirsRev p.reverse

def writeFile (fs : FileTree) (p : FilePath) (text : String) : Except IoFailure FileTree := do
  fs.resolveParent p
  if fs.isDir p then throw .isDirectory
  return fs.put p (.file text)

def readFile (fs : FileTree) (p : FilePath) : Except IoFailure String := do
  fs.resolveParent p
  match fs.lookup p with
  | some (.file text) => return text
  | some .dir => throw .isDirectory
  | none => throw .notFound

def listing (fs : FileTree) : List (String × String) :=
  let files := fs.entries.filterMap fun (p, e) =>
    match e with
    | .file text => some ("/".intercalate p, text)
    | .dir => none
  files.mergeSort fun a b => decide (a.1 ≤ b.1)

end FileTree

structure DumpScope where
  dir : Option FilePath := none
  deriving Inhabited

namespace DumpScope

def isEnabled (d : DumpScope) : Bool := d.dir.isSome

def nested (d : DumpScope) (name : String) : DumpScope := ⟨d.dir.map (· ++ [name])⟩

def write (d : DumpScope) (file text : String) (fs : FileTree) : Except IoFailure FileTree :=
  match d.dir with
  | none => .ok fs
  | some dir => do
    let fs ← fs.makeDirs dir
    fs.writeFile (dir ++ [file]) text

end DumpScope

end TileSched
