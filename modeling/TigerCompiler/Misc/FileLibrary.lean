import TigerCompiler.Misc.Error
import Mathlib.Data.List.Basic

/-!
# Paths and the file library

`std::filesystem::path` as far as `misc::file_library` uses it, and `misc::file_library`.  Two
paths are equal when their elements are, as the keys of `open_files_` are compared: separators that
follow each other count once, `.` and `..` are elements like any other.
-/

namespace TigerCompiler

/-- A path by its elements: whether it starts with the root directory, its names, and whether a
separator follows the last of them. -/
structure FilePath where
  root : Bool := false
  names : List Str := []
  slash : Bool := false
  deriving DecidableEq, Repr

namespace FilePath

/-- The names of a path between its separators. -/
def split : Str → Str → List Str
  | name, [] => if name = [] then [] else [name.reverse]
  | name, c :: cs =>
    if c = '/' then
      if name = [] then split [] cs else name.reverse :: split [] cs
    else split (c :: name) cs

/-- The constructor from a string. -/
def ofString (s : Str) : FilePath where
  root := s.head? = some '/'
  names := split [] s
  slash := s.getLast? = some '/' && split [] s ≠ []

/-- `is_absolute`. -/
def isAbsolute (p : FilePath) : Bool := p.root

/-- `empty`. -/
def isEmpty (p : FilePath) : Bool := !p.root && p.names.isEmpty

/-- `operator/`. -/
def join (p q : FilePath) : FilePath :=
  if q.root then q
  else if q.names = [] then { p with slash := !p.names.isEmpty }
  else { root := p.root, names := p.names ++ q.names, slash := q.slash }

/-- `filename`. -/
def filename (p : FilePath) : FilePath :=
  if p.slash then {} else { names := p.names.getLast?.toList }

/-- `parent_path`. -/
def parentPath (p : FilePath) : FilePath :=
  if p.slash then { p with slash := false } else { p with names := p.names.dropLast }

example : (ofString "/d/./a.tig".toList).parentPath = ofString "/d/.".toList := by decide

end FilePath

/-- `misc::file_library`.  The directory stack has its top first, and is never empty: the
constructors push the working directory. -/
structure FileLibrary where
  searchPath : List FilePath := []
  currentDirectory : List FilePath
  deriving DecidableEq, Repr

namespace FileLibrary

/-- `current_directory_get`. -/
def currentDirectoryGet (l : FileLibrary) : FilePath := l.currentDirectory.headD {}

/-- `push_current_directory`. -/
def pushCurrentDirectory (l : FileLibrary) (p : FilePath) : FileLibrary :=
  { l with
    currentDirectory :=
      (if p.isAbsolute then p else l.currentDirectoryGet.join p) :: l.currentDirectory }

/-- `pop_current_directory`. -/
def popCurrentDirectory (l : FileLibrary) : FileLibrary :=
  { l with currentDirectory := l.currentDirectory.tail }

variable (exist : FilePath → Bool)

/-- `find_in_search_path`, on the directories of `search_path_`. -/
def findInSearchPath (l : FileLibrary) (relativePath filename : FilePath) :
    List FilePath → FilePath
  | [] => {}
  | p :: ps =>
    let checkedDir := (if p.isAbsolute then p else l.currentDirectoryGet.join p).join relativePath
    if exist (checkedDir.join filename) then checkedDir
    else l.findInSearchPath relativePath filename ps

/-- `find_file`: the directory of the file, or the empty path.  The directory that is looked for in
the search path is the name of the file itself. -/
def findFile (l : FileLibrary) (file : FilePath) : FilePath :=
  let directory := file.filename
  if directory.isAbsolute then
    if exist file then directory else {}
  else if exist (l.currentDirectoryGet.join file) then (l.currentDirectoryGet.join file).parentPath
  else l.findInSearchPath exist directory file.filename l.searchPath

@[simp] theorem pop_push (l : FileLibrary) (p : FilePath) :
    (l.pushCurrentDirectory p).popCurrentDirectory = l := rfl

@[simp] theorem length_push (l : FileLibrary) (p : FilePath) :
    (l.pushCurrentDirectory p).currentDirectory.length = l.currentDirectory.length + 1 := rfl

theorem isAbsolute_filename (p : FilePath) : p.filename.isAbsolute = false := by
  unfold FilePath.filename
  split <;> rfl

/-- The branch of `find_file` for absolute paths is never taken. -/
theorem findFile_eq (l : FileLibrary) (file : FilePath) :
    l.findFile exist file =
      if exist (l.currentDirectoryGet.join file) then (l.currentDirectoryGet.join file).parentPath
      else l.findInSearchPath exist file.filename file.filename l.searchPath := by
  simp only [findFile, isAbsolute_filename, Bool.false_eq_true, if_false]

end FileLibrary

end TigerCompiler
