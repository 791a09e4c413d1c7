import ManifestForm.Text.Basic

/-! # Files, paths and trees

What can be read is a function from paths to octets or to the reason why there are none. A path is
taken as written: joining adds a slash where one is needed and normalises nothing. Only when the
last name or the directory is asked for are trailing slashes and lone dots passed over.

A tree in memory holds files by path, with the directories that their paths imply. A path is walked
piece by piece, and each piece, a dot or the end of the path behind a slash included, needs a
directory before it.
-/

namespace ManifestForm

inductive FileFault where
  | notFound
  | directory
  | notDirectory
  | notUtf8
  deriving DecidableEq, Repr

def FileFault.message : FileFault → String
  | notFound => "No such file or directory (os error 2)"
  | directory => "Is a directory (os error 21)"
  | notDirectory => "Not a directory (os error 20)"
  | notUtf8 => "stream did not contain valid UTF-8"

abbrev Files := String → Except FileFault (List UInt8)

namespace Files

/-- A directory exists too. -/
def exists? (files : Files) (path : String) : Bool :=
  match files path with
  | .error .notFound | .error .notDirectory => false
  | _ => true

def readText (files : Files) (path : String) : Except FileFault String :=
  match files path with
  | .error e => .error e
  | .ok octets =>
    match Utf8.decode? octets with
    | none => .error .notUtf8
    | some cs => .ok (String.ofList cs)

end Files

namespace FilePath

def isAbsolute (path : String) : Bool := path.toList.head? = some '/'

/-- A path seen from a directory. -/
def join (directory path : String) : String :=
  let cs := directory.toList
  if isAbsolute path then path
  else if cs.isEmpty || cs.getLast? = some '/' then directory ++ path
  else directory ++ "/" ++ path

/-- The pieces between the slashes behind the root, if there is one. -/
def pieces (path : String) : List (List Char) :=
  Text.splitOn (· = '/') (if isAbsolute path then path.toList.drop 1 else path.toList)

/-- Whether a piece names nothing. A lone dot names something only where the path starts with it. -/
def isVoid (leading : Bool) (piece : List Char) : Bool :=
  piece.isEmpty || (!leading && piece = ['.'])

/-- The pieces, given from the last to the first, without the void ones at the end. -/
def dropVoid (relative : Bool) : List (List Char) → List (List Char)
  | [] => []
  | piece :: before =>
    if isVoid (relative && before.isEmpty) piece then dropVoid relative before
    else piece :: before

/-- The pieces from the last that names something to the first. -/
def named (path : String) : List (List Char) :=
  dropVoid (!isAbsolute path) (pieces path).reverse

/-- The name that a path ends in: none for a root, a directory above or a lone dot. -/
def fileName? (path : String) : Option String :=
  match named path with
  | [] => none
  | piece :: _ => if piece = ['.'] || piece = ['.', '.'] then none else some (String.ofList piece)

/-- The path without its last name. -/
def parent? (path : String) : Option String :=
  match named path with
  | [] => none
  | _ :: before =>
    let kept := (dropVoid (!isAbsolute path) before).reverse
    some ((if isAbsolute path then "/" else "") ++
      String.intercalate "/" (kept.map String.ofList))

end FilePath

/-- Files with the pieces of their absolute paths. -/
abbrev FileTree := List (List (List Char) × List UInt8)

namespace FileTree

/-- What a place in the tree holds. -/
inductive Entry where
  | file (octets : List UInt8)
  | directory
  | missing

/-- The pieces of a path seen from a directory, all the way from the root. -/
def absolute (directory path : String) : List (List Char) :=
  if FilePath.isAbsolute path then FilePath.pieces path
  else FilePath.pieces directory ++ FilePath.pieces path

/-- The place that a path leads to in a tree where every directory exists. -/
def place (directory path : String) : List (List Char) :=
  (absolute directory path).foldl
    (fun here piece =>
      if piece.isEmpty || piece = ['.'] then here
      else if piece = ['.', '.'] then here.dropLast
      else here ++ [piece]) []

def ofList (directory : String) (files : List (String × List UInt8)) : FileTree :=
  files.map fun (path, octets) => (place directory path, octets)

def entry (tree : FileTree) (here : List (List Char)) : Entry :=
  match tree.lookup here with
  | some octets => .file octets
  | none => if here.isEmpty || tree.any fun f => here.isPrefixOf f.1 then .directory else .missing

/-- Follows pieces from a place in the tree. -/
def walk (tree : FileTree) : List (List Char) → List (List Char) → Except FileFault Entry
  | here, [] => .ok (tree.entry here)
  | here, piece :: pieces =>
    match tree.entry here with
    | .missing => .error .notFound
    | .file _ => .error .notDirectory
    | .directory =>
      if piece.isEmpty || piece = ['.'] then walk tree here pieces
      else if piece = ['.', '.'] then walk tree here.dropLast pieces
      else walk tree (here ++ [piece]) pieces

/-- The files of a tree, with relative paths seen from a directory. -/
def files (directory : String) (tree : FileTree) : Files := fun path =>
  if path.isEmpty then .error .notFound
  else
    match tree.walk [] (absolute directory path) with
    | .error fault => .error fault
    | .ok .missing => .error .notFound
    | .ok .directory => .error .directory
    | .ok (.file octets) => .ok octets

end FileTree

end ManifestForm
