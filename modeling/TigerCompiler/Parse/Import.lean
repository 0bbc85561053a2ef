import TigerCompiler.Misc.FileLibrary

/-!
# Imports

`parse::TigerDriver` on files, and `parse::parse`.  Of the text of a file only what matters here is
kept: the import directives, in the order in which their actions run, and how the parse ends.  An
exception leaves the members of the driver as they are when it is thrown, so a run gives a state in
every case.
-/

namespace TigerCompiler

namespace Imports

/-- An import directive: the file, and whether anything stands before it in its list of
declarations.  Nothing stands after it: the rule `chunks: "import" STRING` ends the list. -/
structure ImportDirective where
  name : Str
  preceded : Bool := false
  deriving DecidableEq, Repr

/-- How the parse of a file ends, once the directives inside it have been gone through. -/
inductive Ending
  /-- As an expression. -/
  | exp
  /-- As a list of declarations with no directive at its end. -/
  | chunks
  /-- As a list of declarations with this directive at its end. -/
  | imported (i : ImportDirective)
  /-- By `parser::error`. -/
  | syntaxError (msg : Str)
  deriving DecidableEq, Repr

/-- What is in a file. -/
structure Content where
  imports : List ImportDirective := []
  ending : Ending
  deriving DecidableEq, Repr

/-- The files, as far as they exist and can be opened. -/
structure FileSystem where
  exist : FilePath → Bool
  content : FilePath → Option Content

/-- A `ChunkList*`. -/
inductive ChunksPtr
  | null | list
  deriving DecidableEq, Repr

/-- `ast_type`. -/
inductive AstType
  | exp
  | chunks (p : ChunksPtr)
  deriving DecidableEq, Repr

/-- `input_type`. -/
inductive InputType
  | file (name : FilePath)
  | tweast
  deriving DecidableEq, Repr

/-- `location`: the file, and how many directives have been scanned in it. -/
structure Location where
  filename : FilePath := {}
  position : Nat := 0
  deriving DecidableEq, Repr

/-- The members of `TigerDriver` that imports use.  The entries of `error_` are kept apart. -/
structure TigerDriver where
  library : FileLibrary
  openFiles : List (FilePath × Location) := []
  input : InputType := .file {}
  location : Location := {}
  errors : List Error := []
  deriving DecidableEq, Repr

namespace TigerDriver

/-- An entry is added to `error_`. -/
def report (d : TigerDriver) (e : Error) : TigerDriver := { d with errors := d.errors ++ [e] }

/-- An entry is added to `error_`, which is thrown. -/
def reportExit {α : Type} (d : TigerDriver) (e : Error) : TigerDriver × Except Stop α :=
  (d.report e, .error (.error e))

/-- The key is in `open_files_`. -/
def isOpen (d : TigerDriver) (p : FilePath) : Bool := d.openFiles.any fun f => f.1 = p

/-- `open_files_[p] = loc`, for a key that is not there. -/
def openFile (d : TigerDriver) (p : FilePath) (loc : Location) : TigerDriver :=
  { d with openFiles := (p, loc) :: d.openFiles }

/-- `open_files_.erase(p)`. -/
def closeFile (d : TigerDriver) (p : FilePath) : TigerDriver :=
  { d with openFiles := d.openFiles.filter fun f => f.1 ≠ p }

section Parse

-- `parse_import`, for the directives of a file
variable (parseImport : Str → Location → TigerDriver → TigerDriver × Except Stop ChunksPtr)

/-- The actions that use the value of a directive: what precedes it in its list is pushed in front
of the `ChunkList` it has returned. -/
def runImport (i : ImportDirective) (d : TigerDriver) : TigerDriver × Except Stop ChunksPtr :=
  match parseImport i.name d.location d with
  | (d, .ok .null) => if i.preceded then (d, .error .undefined) else (d, .ok .null)
  | r => r

/-- The scanner goes on to the next directive. -/
def advance (d : TigerDriver) : TigerDriver :=
  { d with location.position := d.location.position + 1 }

/-- The directives of a file, one after the other. -/
def runImports : List ImportDirective → TigerDriver → TigerDriver × Except Stop Unit
  | [], d => (d, .ok ())
  | i :: is, d =>
    match runImport parseImport i d.advance with
    | (d, .ok _) => runImports is d
    | (d, .error e) => (d, .error e)

/-- The parse of a file that has been opened. -/
def parseContent (c : Content) (d : TigerDriver) : TigerDriver × Except Stop AstType :=
  match runImports parseImport c.imports d with
  | (d, .error e) => (d, .error e)
  | (d, .ok _) =>
    match c.ending with
    | .exp => (d, .ok .exp)
    | .chunks => (d, .ok (.chunks .list))
    | .imported i =>
      match runImport parseImport i d.advance with
      | (d, .ok p) => (d, .ok (.chunks p))
      | (d, .error e) => (d, .error e)
    | .syntaxError msg => d.reportExit ⟨.parse, "Parsing Error was encountered: ".toList ++ msg⟩

/-- `parse_file`, and the part of `parse_` for files. -/
def parseFile (fs : FileSystem) (name : FilePath) (d : TigerDriver) :
    TigerDriver × Except Stop AstType :=
  let d := { d with input := .file name, location := ⟨name, 0⟩ }
  match fs.content name with
  | none => d.reportExit ⟨.failure, "cannot open".toList⟩
  | some c => parseContent parseImport c d

end Parse

/-- The members a run of `parse_import` sets back at its end. -/
def restore (d : TigerDriver) (input : InputType) (location : Location) (p : FilePath) :
    TigerDriver :=
  let d := { d with input := input, location := location }
  let d := d.closeFile p
  { d with library := d.library.popCurrentDirectory }

/-- `parse_import`, with fuel for `n` nested calls. -/
def parseImport (fs : FileSystem) :
    Nat → Str → Location → TigerDriver → TigerDriver × Except Stop ChunksPtr
  | 0, _, _, d => (d, .error .outOfFuel)
  | n + 1, name, loc, d =>
    let directoryPath := d.library.findFile fs.exist (.ofString name)
    if directoryPath.isEmpty then
      (d.report ⟨.failure, name ++ ": file not found.\n".toList⟩, .ok .null)
    else
      let absolutePath := directoryPath.join (FilePath.ofString name).filename
      if d.isOpen absolutePath then
        (d.report ⟨.failure, name ++ ": recursive inclusion.\n".toList⟩, .ok .null)
      else
        let entered :=
          { d with library := d.library.pushCurrentDirectory directoryPath }.openFile absolutePath
            loc
        match parseFile (parseImport fs n) fs absolutePath entered with
        | (d', .ok (.chunks p)) => (d'.restore d.input d.location absolutePath, .ok p)
        -- The conversion of the variant throws, the handler reports and exits.
        | (d', .ok .exp) => d'.reportExit
            ⟨.parse, "syntax error, unexpected exp, expecting chunks.\n".toList⟩
        | (d', .error e) => (d', .error e)

end TigerDriver

/-- The prelude of `parse::parse`. -/
inductive Prelude
  | none | builtin
  | file (name : Str)
  deriving DecidableEq, Repr

open TigerDriver

/-- The prelude and the function `_main` are parsed around an expression.  These texts are the
driver's own, and hold no directive. -/
def parseAround (fs : FileSystem) (n : Nat) (prelude : Prelude) (td : TigerDriver) :
    TigerDriver × Except Stop ChunksPtr :=
  match prelude with
  | .none => ({ td with input := .tweast }, .ok .list)
  | .builtin => ({ td with input := .tweast }, .ok .list)
  | .file name =>
    match td.parseImport fs n name {} with
    | (td, .ok _) => ({ td with input := .tweast }, .ok .list)
    | (td, .error e) => (td, .error e)

/-- `parse::parse`: the library of the caller afterwards, and what is returned or thrown.  The
driver works on a copy of the library. -/
def parseProgram (fs : FileSystem) (n : Nat) (prelude : Prelude) (fname : Str)
    (library : FileLibrary) : FileLibrary × Except Stop (ChunksPtr × List Error) :=
  let library := library.pushCurrentDirectory (FilePath.ofString fname).parentPath
  match parseFile (parseImport fs n) fs (.ofString fname) { library := library } with
  | (_, .error e) => (library, .error e)
  | (td, .ok (.chunks p)) => (library.popCurrentDirectory, .ok (p, td.errors))
  | (td, .ok .exp) =>
    match parseAround fs n prelude td with
    | (_, .error e) => (library, .error e)
    | (td, .ok p) => (library.popCurrentDirectory, .ok (p, td.errors))

end Imports

end TigerCompiler
