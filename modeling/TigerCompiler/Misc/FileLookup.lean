import TigerCompiler.Misc.FileLibrary

/-!
# What `find_file` should find

A file named by a relative path is looked for in the current directory, then in each directory of
the search path.  `find_file` splits the name in two components before it goes through the search
path, and takes the last one for both.
-/

namespace TigerCompiler

/-- A relative path that ends with the name of a file. -/
structure FilePath.IsRelativeFile (p : FilePath) : Prop where
  relative : p.root = false
  named : p.names ≠ []
  file : p.slash = false

namespace FileLibrary

/-- A library its member functions have made.  `pop_current_directory` leaves a directory. -/
inductive Built : FileLibrary → Prop
  | init {cwd : FilePath} (h : cwd.isAbsolute = true) (ps : List FilePath) :
      Built { searchPath := ps, currentDirectory := [cwd] }
  | search {l : FileLibrary} (h : Built l) (ps : List FilePath) : Built { l with searchPath := ps }
  | push {l : FileLibrary} (h : Built l) (p : FilePath) : Built (l.pushCurrentDirectory p)
  | pop {l : FileLibrary} (h : Built l) (hl : 1 < l.currentDirectory.length) :
      Built l.popCurrentDirectory

/-- The directories of the search path, made absolute. -/
def searched (l : FileLibrary) : List FilePath :=
  l.searchPath.map fun p => if p.isAbsolute then p else l.currentDirectoryGet.join p

/-- Where a file is looked for, in this order. -/
def directories (l : FileLibrary) : List FilePath := l.currentDirectoryGet :: l.searched

variable (exist : FilePath → Bool) (same : FilePath → FilePath → Prop)

/-- `d` is the directory of the file: empty when there is no such file, else such that the name of
the file is found in it, and is the file of the first directory that has it. -/
structure Finds (l : FileLibrary) (file d : FilePath) : Prop where
  absent : d.isEmpty = true ↔ ∀ dir ∈ l.directories, exist (dir.join file) = false
  found : ∀ dir, l.directories.find? (fun dir => exist (dir.join file)) = some dir →
    exist (d.join file.filename) = true ∧ same (d.join file.filename) (dir.join file)

/-- The directories that hold a file named as the file, in a directory named so as well. -/
def holdsTwice (file dir : FilePath) : Bool :=
  exist ((dir.join file.filename).join file.filename)

/-- The file is in the current directory; or in no directory at all, and its name is not found
under itself; or it is the one found under its own name. -/
def Locatable (l : FileLibrary) (file : FilePath) : Prop :=
  exist (l.currentDirectoryGet.join file) = true ∨
    match l.searched.find? (fun dir => exist (dir.join file)),
      l.searched.find? (holdsTwice exist file) with
    | none, none => True
    | some dir, some dir' =>
      same ((dir'.join file.filename).join file.filename) (dir.join file)
    | _, _ => False

variable {exist same} {l : FileLibrary} {file d : FilePath}

/-! ## The library -/

theorem isAbsolute_join {p q : FilePath} (h : p.isAbsolute = true) :
    (p.join q).isAbsolute = true := by
  unfold FilePath.join
  split
  · assumption
  · split <;> exact h

theorem currentDirectoryGet_mem (h : l.currentDirectory ≠ []) :
    l.currentDirectoryGet ∈ l.currentDirectory := by
  unfold currentDirectoryGet
  cases hc : l.currentDirectory with
  | nil => exact absurd hc h
  | cons p ps => exact List.mem_cons_self

/-- `push_current_directory` ensures that the current directory is absolute. -/
theorem Built.isAbsolute (h : Built l) :
    l.currentDirectory ≠ [] ∧ ∀ p ∈ l.currentDirectory, p.isAbsolute = true := by
  induction h with
  | init h ps => exact ⟨nofun, by simpa using h⟩
  | search _ _ ih => exact ih
  | push _ p ih =>
    refine ⟨nofun, ?_⟩
    intro q hq
    rcases List.mem_cons.mp hq with rfl | hq
    · split
      · assumption
      · apply isAbsolute_join
        exact ih.2 _ (currentDirectoryGet_mem ih.1)
    · exact ih.2 q hq
  | @pop l _ hl ih =>
    constructor
    · intro hnil
      have hlen := congrArg List.length hnil
      simp only [popCurrentDirectory, List.length_tail, List.length_nil] at hlen
      omega
    · intro p hp
      exact ih.2 p (List.mem_of_mem_tail hp)

/-! ## The two lookups -/

/-- A file joined to a directory is in the parent of the whole, under its own name. -/
theorem parentPath_join_filename (hf : file.IsRelativeFile) :
    ((d.join file).parentPath).join file.filename = d.join file := by
  obtain ⟨hr, hn, hs⟩ := hf
  have hjoin :
      d.join file = { root := d.root, names := d.names ++ file.names, slash := false } := by
    simp [FilePath.join, hr, hn, hs]
  have hname : file.filename = { names := [file.names.getLast hn] } := by
    simp [FilePath.filename, hs, List.getLast?_eq_some_getLast hn]
  rw [hjoin, hname]
  simp [FilePath.join, FilePath.parentPath, List.dropLast_append_of_ne_nil hn,
    List.dropLast_concat_getLast hn]

/-- The parent of a path in an absolute directory is not empty. -/
theorem isEmpty_parentPath_join (ha : d.isAbsolute = true) :
    ((d.join file).parentPath).isEmpty = false := by
  have hroot : (d.join file).root = true := isAbsolute_join ha
  unfold FilePath.parentPath
  split <;> simp [FilePath.isEmpty, hroot]

theorem isEmpty_join_filename (hf : file.IsRelativeFile) :
    (d.join file.filename).isEmpty = false := by
  obtain ⟨hr, hn, hs⟩ := hf
  simp [FilePath.filename, FilePath.join, FilePath.isEmpty, hs,
    List.getLast?_eq_some_getLast hn]

/-- `find_in_search_path` goes through the directories of the search path. -/
theorem findInSearchPath_eq (file : FilePath) (ps : List FilePath) :
    l.findInSearchPath exist file.filename file.filename ps =
      (((ps.map fun p => if p.isAbsolute then p else l.currentDirectoryGet.join p).find?
        (holdsTwice exist file)).map fun dir => dir.join file.filename).getD {} := by
  induction ps with
  | nil => rfl
  | cons p ps ih =>
    simp only [findInSearchPath, List.map_cons, List.find?_cons]
    generalize (if p.isAbsolute = true then p else l.currentDirectoryGet.join p) = dir
    cases he : holdsTwice exist file dir with
    | true =>
      rw [holdsTwice] at he
      rw [he]
      rfl
    | false =>
      rw [holdsTwice] at he
      rw [he]
      exact ih

/-- Outside the current directory, what `find_file` finds is the name of the file under itself. -/
theorem findFile_of_not_exist (h : exist (l.currentDirectoryGet.join file) = false) :
    l.findFile exist file =
      ((l.searched.find? (holdsTwice exist file)).map
        fun dir => dir.join file.filename).getD {} := by
  rw [findFile_eq, h, findInSearchPath_eq]
  rfl

/-! ## The lookup -/

theorem find?_directories (h : exist (l.currentDirectoryGet.join file) = false) :
    l.directories.find? (fun dir => exist (dir.join file)) =
      l.searched.find? fun dir => exist (dir.join file) := by
  rw [directories, List.find?_cons, h]

theorem forall_directories :
    (∀ dir ∈ l.directories, exist (dir.join file) = false) ↔
      l.directories.find? (fun dir => exist (dir.join file)) = none := by
  simp [List.find?_eq_none]

/-- **`find_file` finds a file in the directory it should exactly when the file is in the current
directory, or in none while its name is not found under itself, or is the one found there.** -/
theorem finds_iff (hsame : ∀ p, same p p) (hl : Built l) (hf : file.IsRelativeFile) :
    Finds exist same l file (l.findFile exist file) ↔ Locatable exist same l file := by
  have habs : l.currentDirectoryGet.isAbsolute = true :=
    hl.isAbsolute.2 _ (currentDirectoryGet_mem hl.isAbsolute.1)
  cases hcur : exist (l.currentDirectoryGet.join file) with
  | true =>
    apply iff_of_true _ (.inl hcur)
    have hfind : l.findFile exist file = (l.currentDirectoryGet.join file).parentPath := by
      rw [findFile_eq, if_pos hcur]
    rw [hfind]
    constructor
    · apply iff_of_false
      · rw [isEmpty_parentPath_join habs]
        nofun
      · intro hall
        rw [hall _ List.mem_cons_self] at hcur
        cases hcur
    · intro dir hdir
      rw [directories, List.find?_cons, hcur] at hdir
      cases hdir
      rw [parentPath_join_filename hf]
      exact ⟨hcur, hsame _⟩
  | false =>
    rw [findFile_of_not_exist hcur, Locatable, hcur]
    simp only [Bool.false_eq_true, false_or]
    constructor
    · rintro ⟨habsent, hfound⟩
      rw [forall_directories, find?_directories hcur] at habsent
      rw [find?_directories hcur] at hfound
      cases hfirst : l.searched.find? (fun dir => exist (dir.join file)) with
      | none =>
        cases htwice : l.searched.find? (holdsTwice exist file) with
        | none => trivial
        | some dir' =>
          have hempty := habsent.mpr hfirst
          rw [htwice, Option.map_some, Option.getD_some, isEmpty_join_filename hf] at hempty
          cases hempty
      | some dir =>
        cases htwice : l.searched.find? (holdsTwice exist file) with
        | none =>
          rw [htwice] at habsent
          rw [habsent.mp rfl] at hfirst
          cases hfirst
        | some dir' =>
          have hs := (hfound dir hfirst).2
          rw [htwice] at hs
          exact hs
    · intro hcond
      constructor
      · rw [forall_directories, find?_directories hcur]
        split at hcond
        · rename_i hfirst htwice
          rw [hfirst, htwice]
          exact iff_of_true rfl rfl
        · rename_i dir dir' hfirst htwice
          rw [hfirst, htwice, Option.map_some, Option.getD_some, isEmpty_join_filename hf]
          exact iff_of_false nofun nofun
        · exact hcond.elim
      · intro dir hdir
        rw [find?_directories hcur] at hdir
        split at hcond
        · rename_i hfirst htwice
          rw [hfirst] at hdir
          cases hdir
        · rename_i dir₁ dir' hfirst htwice
          rw [hfirst] at hdir
          cases hdir
          rw [htwice, Option.map_some, Option.getD_some]
          have htw := List.find?_some htwice
          exact ⟨htw, hcond⟩
        · exact hcond.elim

/-- A file system whose only file is `a.tig`, in the directory `dir`. -/
def onlyIn (dir : String) (p : FilePath) : Bool := p = .ofString (dir ++ "/a.tig").toList

/-- A library with the current directory `/d` and the search path `/lib`. -/
def inLib : FileLibrary where
  searchPath := [.ofString "/lib".toList]
  currentDirectory := [.ofString "/d".toList]

theorem inLib_built : Built inLib := .init rfl _

theorem isRelativeFile_a : (FilePath.ofString "a.tig".toList).IsRelativeFile :=
  ⟨by decide, by decide, by decide⟩

theorem finds_inCurrentDirectory :
    Finds (onlyIn "/d") Eq inLib (.ofString "a.tig".toList)
      (inLib.findFile (onlyIn "/d") (.ofString "a.tig".toList)) :=
  (finds_iff (fun _ => rfl) (.init rfl _) ⟨by decide, by decide, by decide⟩).mpr
    (.inl (by decide))

/-- A file of the search path is not found. -/
theorem not_finds :
    ¬ ∀ (exist : FilePath → Bool) (same : FilePath → FilePath → Prop) (l : FileLibrary)
      (file : FilePath), (∀ p, same p p) → Built l → file.IsRelativeFile →
      Finds exist same l file (l.findFile exist file) := by
  intro hall
  have hfinds := hall (onlyIn "/lib") Eq inLib (.ofString "a.tig".toList) (fun _ => rfl)
    inLib_built isRelativeFile_a
  have hfound := (hfinds.found (.ofString "/lib".toList) (by decide)).1
  revert hfound
  decide

end FileLibrary

end TigerCompiler
