import TigerCompiler.Parse.Import
import Mathlib.Data.List.Basic

/-!
# Failing imports

What an import does to the driver, for every tree of files.  `Clean` says of the files alone what
an import comes to when nothing is thrown and no null pointer is followed; the runs that do not
come to that leave the stack of directories longer than they found it, or are undefined.
-/

namespace TigerCompiler

namespace Imports

open TigerDriver

/-- The directives of a file, with the one its declarations may end with. -/
def Content.directives (c : Content) : List ImportDirective :=
  c.imports ++ match c.ending with
    | .imported i => [i]
    | _ => []

/-- The `ChunkList*` of a file of declarations, given those of its directives. -/
def Content.value (c : Content) (v : ImportDirective → ChunksPtr) : ChunksPtr :=
  match c.ending with
  | .imported i => v i
  | _ => .list

/-- The file is parsed as a list of declarations. -/
def Content.IsChunks (c : Content) : Prop :=
  match c.ending with
  | .chunks | .imported _ => True
  | .exp | .syntaxError _ => False

/-- The file is parsed. -/
def Content.IsParsed (c : Content) : Prop := c.ending = .exp ∨ c.IsChunks

/-- The directory `parse_import` finds for a name. -/
def directoryPath (fs : FileSystem) (l : FileLibrary) (name : Str) : FilePath :=
  l.findFile fs.exist (.ofString name)

/-- The path under which `parse_import` opens a name. -/
def absolutePath (fs : FileSystem) (l : FileLibrary) (name : Str) : FilePath :=
  (directoryPath fs l name).join (FilePath.ofString name).filename

/-- From the library `l`, with the files `os` open, the import of a name comes to the pointer `p`;
`f` tells whether it, or one on the way, is not found or is recursive.  All the files on the way
can be opened and hold declarations, and none has declarations in front of a directive that comes
to null. -/
inductive Clean (fs : FileSystem) : FileLibrary → List FilePath → Str → ChunksPtr → Bool → Prop
  | notFound {l : FileLibrary} {os : List FilePath} {name : Str}
      (h : (directoryPath fs l name).isEmpty = true) : Clean fs l os name .null true
  | recursive {l : FileLibrary} {os : List FilePath} {name : Str}
      (h : (directoryPath fs l name).isEmpty = false) (ho : absolutePath fs l name ∈ os) :
      Clean fs l os name .null true
  | file {l : FileLibrary} {os : List FilePath} {name : Str} {c : Content}
      (v : ImportDirective → ChunksPtr) (f : ImportDirective → Bool)
      (h : (directoryPath fs l name).isEmpty = false) (ho : absolutePath fs l name ∉ os)
      (hc : fs.content (absolutePath fs l name) = some c) (he : c.IsChunks)
      (hi : ∀ i ∈ c.directives, Clean fs (l.pushCurrentDirectory (directoryPath fs l name))
        (absolutePath fs l name :: os) i.name (v i) (f i))
      (hp : ∀ i ∈ c.directives, v i = .null → i.preceded = false) :
      Clean fs l os name (c.value v) (c.directives.any f)

namespace TigerDriver

/-- The keys of `open_files_`. -/
def openPaths (d : TigerDriver) : List FilePath := d.openFiles.map Prod.fst

/-- The members that an import sets back. -/
def Restored (d d' : TigerDriver) : Prop :=
  d'.library = d.library ∧ d'.openFiles = d.openFiles ∧ d'.input = d.input ∧
    d'.location = d.location

theorem isOpen_iff {d : TigerDriver} {p : FilePath} : d.isOpen p = true ↔ p ∈ d.openPaths := by
  simp [isOpen, openPaths]

theorem closeFile_openFile {d : TigerDriver} {p : FilePath} (loc : Location)
    (h : p ∉ d.openPaths) : ((d.openFile p loc).closeFile p).openFiles = d.openFiles := by
  simp only [openPaths, List.mem_map, not_exists, not_and] at h
  simp only [openFile, closeFile, List.filter_cons, ne_eq, not_true_eq_false, decide_false]
  exact List.filter_eq_self.mpr fun f hf => by simpa using h f hf

end TigerDriver

variable {fs : FileSystem} {l : FileLibrary} {os : List FilePath} {name : Str} {p p' : ChunksPtr}
  {f f' : Bool} {d d' : TigerDriver} {n : Nat} {is : List ImportDirective}

/-! ## Directives that go through -/

/-- The import of `i` gives `p`, keeps all the members of the driver but `error_`, and adds an
error when `f` is set and only then. -/
def Goes (imp : Str → Location → TigerDriver → TigerDriver × Except Stop ChunksPtr)
    (l : FileLibrary) (os : List FilePath) (name : Str) (p : ChunksPtr) (f : Bool) : Prop :=
  ∀ loc d, d.library = l → d.openPaths = os →
    ∃ es, imp name loc d = ({ d with errors := d.errors ++ es }, .ok p) ∧ (es ≠ [] ↔ f = true)

variable {imp : Str → Location → TigerDriver → TigerDriver × Except Stop ChunksPtr}
  {v : ImportDirective → ChunksPtr} {g : ImportDirective → Bool}

theorem Goes.runImport {i : ImportDirective} (h : Goes imp l os i.name p f)
    (hp : p = .null → i.preceded = false) (hl : d.library = l) (ho : d.openPaths = os) :
    ∃ es, runImport imp i d = ({ d with errors := d.errors ++ es }, .ok p) ∧
      (es ≠ [] ↔ f = true) := by
  obtain ⟨es, he, hes⟩ := h d.location d hl ho
  refine ⟨es, ?_, hes⟩
  rw [TigerDriver.runImport, he]
  cases p with
  | list => rfl
  | null => simp [hp rfl]

/-- What a run over directives does to the driver. -/
structure Advanced (d d' : TigerDriver) (es : List Error) : Prop where
  library : d'.library = d.library
  openFiles : d'.openFiles = d.openFiles
  input : d'.input = d.input
  errors : d'.errors = d.errors ++ es

theorem runImports_goes (h : ∀ i ∈ is, Goes imp l os i.name (v i) (g i))
    (hp : ∀ i ∈ is, v i = .null → i.preceded = false) (hl : d.library = l)
    (ho : d.openPaths = os) :
    ∃ d' es, runImports imp is d = (d', .ok ()) ∧ Advanced d d' es ∧
      (es ≠ [] ↔ is.any g = true) := by
  induction is generalizing d with
  | nil => exact ⟨d, [], rfl, ⟨rfl, rfl, rfl, by simp⟩, by simp⟩
  | cons i is ih =>
    obtain ⟨es, he, hes⟩ := (h i (.head _)).runImport (d := d.advance) (hp i (.head _)) hl ho
    obtain ⟨d', qs, hd', hadv, hqs⟩ := ih (fun j hj => h j (.tail _ hj))
      (fun j hj => hp j (.tail _ hj)) (d := { d.advance with errors := d.errors ++ es }) hl ho
    refine ⟨d', es ++ qs, ?_, ⟨hadv.library, hadv.openFiles, hadv.input, ?_⟩, ?_⟩
    · rw [runImports, he]
      exact hd'
    · rw [hadv.errors, List.append_assoc]
    · rw [List.any_cons, Bool.or_eq_true, ← hes, ← hqs]
      simp only [ne_eq, List.append_eq_nil_iff, not_and_or]

/-- What the parse of a file gives, given the pointers of its directives. -/
def Content.result (c : Content) (v : ImportDirective → ChunksPtr) : AstType :=
  match c.ending with
  | .exp => .exp
  | _ => .chunks (c.value v)

theorem parseContent_goes {c : Content} (hc : c.IsParsed)
    (h : ∀ i ∈ c.directives, Goes imp l os i.name (v i) (g i))
    (hp : ∀ i ∈ c.directives, v i = .null → i.preceded = false) (hl : d.library = l)
    (ho : d.openPaths = os) :
    ∃ d' es, parseContent imp c d = (d', .ok (c.result v)) ∧ Advanced d d' es ∧
      (es ≠ [] ↔ c.directives.any g = true) := by
  obtain ⟨d₁, es, hd₁, hadv, hes⟩ := runImports_goes (d := d)
    (fun i (hi : i ∈ c.imports) => h i (List.mem_append_left _ hi))
    (fun i hi => hp i (List.mem_append_left _ hi)) hl ho
  rw [parseContent, hd₁]
  obtain ⟨imports, ending⟩ := c
  cases ending with
  | exp =>
    exact ⟨d₁, es, rfl, hadv, by rw [Content.directives, List.append_nil]; exact hes⟩
  | chunks =>
    exact ⟨d₁, es, rfl, hadv, by rw [Content.directives, List.append_nil]; exact hes⟩
  | imported i =>
    have hi : i ∈ Content.directives ⟨imports, .imported i⟩ :=
      List.mem_append_right _ (.head _)
    obtain ⟨qs, hq, hqs⟩ := (h i hi).runImport (d := d₁.advance) (hp i hi)
      (hadv.library.trans hl) (by
        rw [← ho]
        exact congrArg (List.map Prod.fst) hadv.openFiles)
    refine ⟨{ d₁.advance with errors := d₁.errors ++ qs }, es ++ qs, ?_,
      ⟨hadv.library, hadv.openFiles, hadv.input, ?_⟩, ?_⟩
    · simp only [hq]
      rfl
    · rw [hadv.errors, List.append_assoc]
    · have hany : (Content.directives ⟨imports, .imported i⟩).any g = (imports.any g || g i) := by
        simp [Content.directives]
      rw [hany, Bool.or_eq_true, ← hqs]
      rw [← hes]
      simp only [ne_eq, List.append_eq_nil_iff, not_and_or]
  | syntaxError msg =>
    rcases hc with he | he
    · cases he
    · exact he.elim

/-- What holds of each member of a list from some number on holds of all from some number on. -/
theorem eventually_all {α : Type} {P : Nat → α → Prop} {xs : List α}
    (h : ∀ x ∈ xs, ∃ n₀, ∀ n ≥ n₀, P n x) : ∃ n₀, ∀ n ≥ n₀, ∀ x ∈ xs, P n x := by
  induction xs with
  | nil => exact ⟨0, fun _ _ => nofun⟩
  | cons x xs ih =>
    obtain ⟨n₁, h₁⟩ := h x (.head _)
    obtain ⟨n₂, h₂⟩ := ih fun y hy => h y (.tail _ hy)
    refine ⟨n₁ + n₂, fun n hn => List.forall_mem_cons.mpr ⟨h₁ n (by omega), h₂ n (by omega)⟩⟩

/-- The driver `parse_import` parses a file with. -/
def entered (fs : FileSystem) (name : Str) (loc : Location) (d : TigerDriver) : TigerDriver :=
  { d with library := d.library.pushCurrentDirectory (directoryPath fs d.library name) }.openFile
    (absolutePath fs d.library name) loc

/-- `parse_import` on a file that is not found. -/
theorem parseImport_notFound (loc : Location)
    (h : (directoryPath fs d.library name).isEmpty = true) :
    parseImport fs (n + 1) name loc d =
      (d.report ⟨.failure, name ++ ": file not found.\n".toList⟩, .ok .null) := by
  simp only [directoryPath] at h
  simp only [parseImport, h, if_true]

/-- `parse_import` on a file that is open. -/
theorem parseImport_recursive (loc : Location)
    (h : (directoryPath fs d.library name).isEmpty = false)
    (ho : absolutePath fs d.library name ∈ d.openPaths) :
    parseImport fs (n + 1) name loc d =
      (d.report ⟨.failure, name ++ ": recursive inclusion.\n".toList⟩, .ok .null) := by
  have hopen := isOpen_iff.mpr ho
  simp only [directoryPath] at h
  simp only [absolutePath, directoryPath] at hopen
  simp only [parseImport, h, hopen, Bool.false_eq_true, if_false, if_true]

/-- `parse_import` on a file that is found and not open. -/
theorem parseImport_file (loc : Location) (h : (directoryPath fs d.library name).isEmpty = false)
    (ho : absolutePath fs d.library name ∉ d.openPaths) :
    parseImport fs (n + 1) name loc d =
      match parseFile (parseImport fs n) fs (absolutePath fs d.library name)
        (entered fs name loc d) with
      | (d', .ok (.chunks p)) =>
        (d'.restore d.input d.location (absolutePath fs d.library name), .ok p)
      | (d', .ok .exp) => d'.reportExit
          ⟨.parse, "syntax error, unexpected exp, expecting chunks.\n".toList⟩
      | (d', .error e) => (d', .error e) := by
  have hopen : d.isOpen (absolutePath fs d.library name) = false := by
    rw [← Bool.not_eq_true, isOpen_iff]
    exact ho
  simp only [directoryPath] at h
  simp only [absolutePath, directoryPath] at hopen
  simp only [parseImport, h, hopen, Bool.false_eq_true, if_false]
  rfl

/-- The members set back are those of the driver `parse_import` was called on. -/
theorem restore_entered (loc : Location) (ho : absolutePath fs d.library name ∉ d.openPaths)
    (hl : d'.library = (entered fs name loc d).library)
    (hf : d'.openFiles = (entered fs name loc d).openFiles) :
    d'.restore d.input d.location (absolutePath fs d.library name) =
      { d with errors := d'.errors } := by
  have hlib : d'.library.popCurrentDirectory = d.library := by
    rw [hl]
    rfl
  have hfiles : (d'.closeFile (absolutePath fs d.library name)).openFiles = d.openFiles := by
    rw [← closeFile_openFile loc ho, closeFile, hf]
    rfl
  obtain ⟨library, openFiles, input, location, errors⟩ := d'
  simp only [restore, closeFile] at hlib hfiles ⊢
  rw [hlib, hfiles]

/-- **A clean import goes through.** -/
theorem Clean.goes (h : Clean fs l os name p f) :
    ∃ n₀, ∀ n ≥ n₀, Goes (parseImport fs n) l os name p f := by
  induction h with
  | @notFound l os name h =>
    refine ⟨1, fun n hn loc d hl ho => ?_⟩
    obtain ⟨n, rfl⟩ := Nat.exists_eq_add_of_le' hn
    subst hl
    exact ⟨_, parseImport_notFound loc h, by simp⟩
  | @recursive l os name h ho =>
    refine ⟨1, fun n hn loc d hl hos => ?_⟩
    obtain ⟨n, rfl⟩ := Nat.exists_eq_add_of_le' hn
    subst hl hos
    exact ⟨_, parseImport_recursive loc h ho, by simp⟩
  | @file l os name c v f h ho hc he hi hp ih =>
    obtain ⟨n₀, h₀⟩ := eventually_all ih
    refine ⟨n₀ + 1, fun n hn loc d hl hos => ?_⟩
    obtain ⟨n, rfl⟩ := Nat.exists_eq_add_of_le' (show 1 ≤ n by omega)
    subst hl hos
    obtain ⟨d', es, hd', hadv, hes⟩ := parseContent_goes (c := c)
      (d := { entered fs name loc d with
        input := .file (absolutePath fs d.library name)
        location := ⟨absolutePath fs d.library name, 0⟩ })
      (.inr he) (h₀ n (by omega)) hp rfl rfl
    have hresult : c.result v = .chunks (c.value v) := by
      unfold Content.IsChunks at he
      unfold Content.result
      split
      · rename_i hexp
        rw [hexp] at he
        exact he.elim
      · rfl
    refine ⟨es, ?_, hes⟩
    rw [parseImport_file loc h ho, parseFile]
    simp only [hc, hd', hresult]
    rw [restore_entered loc ho hadv.library hadv.openFiles, hadv.errors]
    rfl

/-- What an import comes to is determined by the files. -/
theorem Clean.unique (h : Clean fs l os name p f) (h' : Clean fs l os name p' f') :
    p = p' ∧ f = f' := by
  obtain ⟨n₁, h₁⟩ := h.goes
  obtain ⟨n₂, h₂⟩ := h'.goes
  obtain ⟨es, he, hes⟩ := h₁ (n₁ + n₂) (by omega) {} ⟨l, os.map fun o => (o, {}), .tweast, {}, []⟩
    rfl (by simp [openPaths, Function.comp_def])
  obtain ⟨qs, hq, hqs⟩ := h₂ (n₁ + n₂) (by omega) {} ⟨l, os.map fun o => (o, {}), .tweast, {}, []⟩
    rfl (by simp [openPaths, Function.comp_def])
  rw [he, Prod.mk.injEq, TigerDriver.mk.injEq, Except.ok.injEq] at hq
  obtain ⟨⟨-, -, -, -, herr⟩, rfl⟩ := hq
  simp only [List.nil_append] at herr
  rw [herr, hqs] at hes
  exact ⟨rfl, Bool.eq_iff_iff.mpr hes.symm⟩

/-! ## Runs that come to an end -/

/-- A directive that gives `p` and has nothing in front of it when `p` is null. -/
def Through (fs : FileSystem) (l : FileLibrary) (os : List FilePath) (i : ImportDirective)
    (p : ChunksPtr) (f : Bool) : Prop :=
  Clean fs l os i.name p f ∧ (p = .null → i.preceded = false)

/-- What is returned by `imp` comes of clean files, and the driver is as before. -/
def Returns (fs : FileSystem)
    (imp : Str → Location → TigerDriver → TigerDriver × Except Stop ChunksPtr) : Prop :=
  ∀ name loc d d' p, imp name loc d = (d', .ok p) →
    (∃ f, Clean fs d.library d.openPaths name p f) ∧ d'.library = d.library ∧
      d'.openFiles = d.openFiles

theorem Returns.runImport {i : ImportDirective} (h : Returns fs imp)
    (hd : runImport imp i d = (d', .ok p)) :
    (∃ f, Through fs d.library d.openPaths i p f) ∧ d'.library = d.library ∧
      d'.openFiles = d.openFiles := by
  unfold TigerDriver.runImport at hd
  split at hd
  · rename_i d₁ heq
    obtain ⟨⟨f, hf⟩, hlib, hopen⟩ := h _ _ _ _ _ heq
    split at hd
    · cases hd
    · rename_i hpre
      cases hd
      exact ⟨⟨f, hf, fun _ => by simpa using hpre⟩, hlib, hopen⟩
  · rename_i hnull
    obtain ⟨⟨f, hf⟩, hlib, hopen⟩ := h _ _ _ _ _ hd
    refine ⟨⟨f, hf, ?_⟩, hlib, hopen⟩
    rintro rfl
    exact absurd hd (hnull d')

theorem Returns.runImports (h : Returns fs imp) (hd : runImports imp is d = (d', .ok ())) :
    (∀ i ∈ is, ∃ p f, Through fs d.library d.openPaths i p f) ∧ d'.library = d.library ∧
      d'.openFiles = d.openFiles := by
  induction is generalizing d with
  | nil =>
    cases hd
    exact ⟨nofun, rfl, rfl⟩
  | cons i is ih =>
    rw [TigerDriver.runImports] at hd
    split at hd
    · rename_i d₁ p heq
      obtain ⟨⟨f, hf⟩, hlib, hopen⟩ := h.runImport heq
      obtain ⟨hall, hlib', hopen'⟩ := ih hd
      have hpaths : d₁.openPaths = d.openPaths := congrArg (List.map Prod.fst) hopen
      rw [hlib, hpaths] at hall
      exact ⟨List.forall_mem_cons.mpr ⟨⟨p, f, hf⟩, hall⟩, hlib'.trans hlib, hopen'.trans hopen⟩
    · cases hd

/-- The parse of a file that comes to its end. -/
theorem Returns.parseContent {c : Content} {t : AstType} (h : Returns fs imp)
    (hd : parseContent imp c d = (d', .ok t)) :
    c.IsParsed ∧ (∃ (v : ImportDirective → ChunksPtr) (g : ImportDirective → Bool),
      t = c.result v ∧ ∀ i ∈ c.directives, Through fs d.library d.openPaths i (v i) (g i)) ∧
      d'.library = d.library ∧ d'.openFiles = d.openFiles := by
  obtain ⟨imports, ending⟩ := c
  have hdir (i : ImportDirective) (hi : i ∈ Content.directives ⟨imports, ending⟩) :
      i ∈ imports ∨ ending = .imported i := by
    rcases List.mem_append.mp hi with hi | hi
    · exact .inl hi
    · refine .inr ?_
      cases ending with
      | imported j => rw [List.mem_singleton.mp hi]
      | exp | chunks | syntaxError => cases hi
  have hchoose {P : ImportDirective → Prop}
      (hP : ∀ i, P i → ∃ p f, Through fs d.library d.openPaths i p f) :
      ∃ (v : ImportDirective → ChunksPtr) (g : ImportDirective → Bool), ∀ i,
        P i → Through fs d.library d.openPaths i (v i) (g i) := by
    have hex (i : ImportDirective) : ∃ p f, P i → Through fs d.library d.openPaths i p f := by
      by_cases hi : P i
      · obtain ⟨p, f, hpf⟩ := hP i hi
        exact ⟨p, f, fun _ => hpf⟩
      · exact ⟨.list, false, fun hi' => absurd hi' hi⟩
    choose v g hv using hex
    exact ⟨v, g, hv⟩
  unfold TigerDriver.parseContent at hd
  split at hd
  · cases hd
  rename_i d₁ _ heq
  obtain ⟨hall, hlib, hopen⟩ := h.runImports heq
  have hpaths : d₁.openPaths = d.openPaths := congrArg (List.map Prod.fst) hopen
  cases ending with
  | exp =>
    cases hd
    obtain ⟨v, g, hv⟩ := hchoose fun i hi => hall i ((hdir i hi).resolve_right nofun)
    exact ⟨.inl rfl, ⟨v, g, rfl, hv⟩, hlib, hopen⟩
  | chunks =>
    cases hd
    obtain ⟨v, g, hv⟩ := hchoose fun i hi => hall i ((hdir i hi).resolve_right nofun)
    exact ⟨.inr trivial, ⟨v, g, rfl, hv⟩, hlib, hopen⟩
  | imported j =>
    simp only at hd
    split at hd
    · rename_i d₂ p heq'
      cases hd
      obtain ⟨⟨f, hf⟩, hlib', hopen'⟩ := h.runImport heq'
      rw [show d₁.advance.library = d.library from hlib,
        show d₁.advance.openPaths = d.openPaths from hpaths] at hf
      obtain ⟨v, g, hv⟩ := hchoose (P := (· ∈ Content.directives ⟨imports, .imported j⟩))
        fun i hi => by
          rcases hdir i hi with hi | hi
          · exact hall i hi
          · cases hi
            exact ⟨p, f, hf⟩
      have hj := hv j (List.mem_append_right _ (.head _))
      obtain ⟨rfl, -⟩ := hf.1.unique hj.1
      exact ⟨.inr trivial, ⟨v, g, rfl, hv⟩, hlib'.trans hlib, hopen'.trans hopen⟩
    · cases hd
  | syntaxError msg => cases hd

theorem IsChunks_of_result {c : Content} {v : ImportDirective → ChunksPtr} (hc : c.IsParsed)
    (h : c.result v = .chunks p) : c.IsChunks ∧ p = c.value v := by
  rcases hc with he | he
  · rw [Content.result, he] at h
    cases h
  · refine ⟨he, ?_⟩
    unfold Content.result at h
    split at h
    · cases h
    · exact (AstType.chunks.inj h).symm

/-- **An import that returns is clean.** -/
theorem returns_parseImport (fs : FileSystem) (n : Nat) : Returns fs (parseImport fs n) := by
  induction n with
  | zero =>
    intro name loc d d' p hd
    cases hd
  | succ n ih =>
    intro name loc d d' p hd
    cases h : (directoryPath fs d.library name).isEmpty with
    | true =>
      rw [parseImport_notFound loc h] at hd
      cases hd
      exact ⟨⟨true, .notFound h⟩, rfl, rfl⟩
    | false =>
      by_cases ho : absolutePath fs d.library name ∈ d.openPaths
      · rw [parseImport_recursive loc h ho] at hd
        cases hd
        exact ⟨⟨true, .recursive h ho⟩, rfl, rfl⟩
      rw [parseImport_file loc h ho] at hd
      unfold parseFile at hd
      cases hc : fs.content (absolutePath fs d.library name) with
      | none =>
        simp only [hc] at hd
        cases hd
      | some c =>
        simp only [hc] at hd
        split at hd
        · rename_i d₁ q heq
          cases hd
          obtain ⟨hparsed, ⟨v, g, hq, hthrough⟩, hlib, hopen⟩ := ih.parseContent heq
          obtain ⟨hchunks, rfl⟩ := IsChunks_of_result hparsed hq.symm
          have hrestore := restore_entered loc ho hlib hopen
          exact ⟨⟨_, .file v g h ho hc hchunks (fun i hi => (hthrough i hi).1)
            fun i hi => (hthrough i hi).2⟩, by rw [hrestore], by rw [hrestore]⟩
        · cases hd
        · cases hd

/-! ## The depth of the stack of directories -/

namespace TigerDriver

/-- How many directories are on the stack of the library. -/
def depth (d : TigerDriver) : Nat := d.library.currentDirectory.length

end TigerDriver

/-- A step of the parser takes no more directories off the stack than it has put there. -/
def Deepens {α : Type} (step : TigerDriver → TigerDriver × α) : Prop :=
  ∀ d, d.depth ≤ (step d).1.depth

theorem Deepens.runImport {i : ImportDirective} (h : ∀ name loc, Deepens (imp name loc)) :
    Deepens (TigerDriver.runImport imp i) := by
  intro d
  have hd := h i.name d.location d
  unfold TigerDriver.runImport
  split
  · rename_i d' heq
    rw [heq] at hd
    split <;> exact hd
  · exact hd

theorem Deepens.runImports (h : ∀ name loc, Deepens (imp name loc))
    (is : List ImportDirective) :
    Deepens (TigerDriver.runImports imp is) := by
  intro d
  induction is generalizing d with
  | nil => exact Nat.le_refl _
  | cons i is ih =>
    have hd := Deepens.runImport (i := i) h d.advance
    rw [TigerDriver.runImports]
    split
    · rename_i d' p heq
      rw [heq] at hd
      exact Nat.le_trans hd (ih d')
    · rename_i d' e heq
      rw [heq] at hd
      exact hd

theorem Deepens.parseContent {c : Content} (h : ∀ name loc, Deepens (imp name loc)) :
    Deepens (TigerDriver.parseContent imp c) := by
  intro d
  have hd := Deepens.runImports h c.imports d
  unfold TigerDriver.parseContent
  split
  · rename_i d' e heq
    rw [heq] at hd
    exact hd
  · rename_i d₁ _ heq
    rw [heq] at hd
    split
    · exact hd
    · exact hd
    · rename_i i _
      have hi := Deepens.runImport (i := i) h d₁.advance
      split
      · rename_i d₂ p heq'
        rw [heq'] at hi
        exact Nat.le_trans hd hi
      · rename_i d₂ e heq'
        rw [heq'] at hi
        exact Nat.le_trans hd hi
    · exact hd

theorem Deepens.parseFile (fs : FileSystem) (h : ∀ name loc, Deepens (imp name loc))
    (file : FilePath) :
    Deepens (TigerDriver.parseFile imp fs file) := by
  intro d
  unfold TigerDriver.parseFile
  split
  · exact Nat.le_refl _
  · exact Deepens.parseContent h { d with input := .file file, location := ⟨file, 0⟩ }

theorem depth_restore (d : TigerDriver) (input : InputType) (loc : Location) (file : FilePath) :
    (d.restore input loc file).depth = d.depth - 1 :=
  List.length_tail

theorem deepens_parseImport (fs : FileSystem) (n : Nat) (name : Str) (loc : Location) :
    Deepens (parseImport fs n name loc) := by
  induction n generalizing name loc with
  | zero => exact fun d => Nat.le_refl _
  | succ n ih =>
    intro d
    cases h : (directoryPath fs d.library name).isEmpty with
    | true => rw [parseImport_notFound loc h]; exact Nat.le_refl _
    | false =>
      by_cases ho : absolutePath fs d.library name ∈ d.openPaths
      · rw [parseImport_recursive loc h ho]; exact Nat.le_refl _
      have hd : d.depth + 1 ≤ _ :=
        Deepens.parseFile fs ih (absolutePath fs d.library name) (entered fs name loc d)
      rw [parseImport_file loc h ho]
      split
      · rename_i d' p heq
        rw [heq] at hd
        rw [depth_restore]
        exact Nat.le_sub_one_of_lt hd
      · rename_i d' heq
        rw [heq] at hd
        exact Nat.le_trans (Nat.le_succ _) hd
      · rename_i d' e heq
        rw [heq] at hd
        exact Nat.le_trans (Nat.le_succ _) hd

/-- **An import that throws leaves its directory on the stack.** -/
theorem depth_lt_of_throw {loc : Location} {e : Stop}
    (h : parseImport fs n name loc d = (d', .error e)) (he : e ≠ .outOfFuel) :
    d.depth < d'.depth := by
  cases n with
  | zero =>
    cases h
    exact absurd rfl he
  | succ n =>
    cases hf : (directoryPath fs d.library name).isEmpty with
    | true =>
      rw [parseImport_notFound loc hf] at h
      cases h
    | false =>
      by_cases ho : absolutePath fs d.library name ∈ d.openPaths
      · rw [parseImport_recursive loc hf ho] at h
        cases h
      have hd : d.depth + 1 ≤ _ :=
        Deepens.parseFile fs (deepens_parseImport fs n) (absolutePath fs d.library name)
          (entered fs name loc d)
      rw [parseImport_file loc hf ho] at h
      split at h
      · cases h
      · rename_i d₁ heq
        rw [heq] at hd
        cases h
        exact hd
      · rename_i d₁ e heq
        rw [heq] at hd
        cases h
        exact hd

/-! ## Sanity -/

/-- Given enough fuel, the directive is used without following a null pointer, the members of the
driver are as before whether something is thrown or not, and an import without a `ChunkList` has
been reported. -/
def ImportSane (fs : FileSystem) (i : ImportDirective) (d : TigerDriver) : Prop :=
  ∃ n₀, ∀ n ≥ n₀, ∃ d' r, runImport (parseImport fs n) i d = (d', r) ∧ r ≠ .error .undefined ∧
    r ≠ .error .outOfFuel ∧ Restored d d' ∧ d.errors <+: d'.errors ∧
    (r ≠ .ok .list → d'.errors ≠ [])

/-- An import that comes to null has failed. -/
theorem Clean.failed_of_null (h : Clean fs l os name p f) (hp : p = .null) : f = true := by
  induction h with
  | notFound h => rfl
  | recursive h ho => rfl
  | @file l os name c v f h ho hc he hi hnull ih =>
    unfold Content.value at hp
    split at hp
    · rename_i i hending
      have hmem : i ∈ c.directives := by
        rw [Content.directives, hending]
        exact List.mem_append_right _ (.head _)
      exact List.any_eq_true.mpr ⟨i, hmem, ih i hmem hp⟩
    · cases hp

theorem depth_lt_of_runImport {i : ImportDirective} {e : Stop}
    (h : runImport (parseImport fs n) i d = (d', .error e)) (he : e ≠ .outOfFuel)
    (hu : e ≠ .undefined) : d.depth < d'.depth := by
  unfold TigerDriver.runImport at h
  split at h
  · split at h
    · cases h
      exact absurd rfl hu
    · cases h
  · exact depth_lt_of_throw h he

theorem importSane_iff (fs : FileSystem) (i : ImportDirective) (d : TigerDriver) :
    ImportSane fs i d ↔ ∃ p f, Through fs d.library d.openPaths i p f := by
  constructor
  · rintro ⟨n, h⟩
    obtain ⟨d', r, hrun, hundef, hfuel, hrest, -⟩ := h n (Nat.le_refl n)
    cases r with
    | ok p =>
      obtain ⟨⟨f, hf⟩, -⟩ := (returns_parseImport fs n).runImport hrun
      exact ⟨p, f, hf⟩
    | error e =>
      have hdepth := depth_lt_of_runImport hrun (fun he => hfuel (he ▸ rfl))
        fun he => hundef (he ▸ rfl)
      rw [depth, depth, hrest.1] at hdepth
      exact absurd hdepth (Nat.lt_irrefl _)
  · rintro ⟨p, f, hclean, hp⟩
    obtain ⟨n₀, h₀⟩ := hclean.goes
    refine ⟨n₀, fun n hn => ?_⟩
    obtain ⟨es, he, hes⟩ := (h₀ n hn).runImport (d := d) hp rfl rfl
    refine ⟨_, _, he, nofun, nofun, ⟨rfl, rfl, rfl, rfl⟩, List.prefix_append _ _, fun hr => ?_⟩
    cases p with
    | list => exact absurd rfl hr
    | null =>
      have hne := hes.mpr (hclean.failed_of_null rfl)
      exact fun hnil => hne (List.append_eq_nil_iff.mp hnil).2

/-- The import of the prelude around an expression comes to an end. -/
def PreludeClean (fs : FileSystem) (l : FileLibrary) (prelude : Prelude) (c : Content)
    (f : Bool) : Prop :=
  match c.ending, prelude with
  | .exp, .file name => ∃ p, Clean fs l [] name p f
  | _, _ => f = false

/-- The file of a program can be opened and is parsed, and its directives go through; `f` tells
whether an import on the way is not found or is recursive. -/
def ProgramClean (fs : FileSystem) (prelude : Prelude) (fname : Str) (library : FileLibrary)
    (f : Bool) : Prop :=
  ∃ (c : Content) (v : ImportDirective → ChunksPtr) (g : ImportDirective → Bool) (fp : Bool),
    fs.content (.ofString fname) = some c ∧ c.IsParsed ∧
    (∀ i ∈ c.directives, Through fs
      (library.pushCurrentDirectory (FilePath.ofString fname).parentPath) [] i (v i) (g i)) ∧
    PreludeClean fs (library.pushCurrentDirectory (FilePath.ofString fname).parentPath) prelude c
      fp ∧ f = (c.directives.any g || fp)

/-- Given enough fuel, `parse::parse` returns or throws with the directories of the caller's
library as they were, and a program with an import that has failed comes with an error. -/
def ParseSane (fs : FileSystem) (prelude : Prelude) (fname : Str) (library : FileLibrary) : Prop :=
  ∃ n₀, ∀ n ≥ n₀, ∃ library' r, parseProgram fs n prelude fname library = (library', r) ∧
    r ≠ .error .undefined ∧ r ≠ .error .outOfFuel ∧
    library'.currentDirectory = library.currentDirectory ∧
    ∀ p es, r = .ok (p, es) → ProgramClean fs prelude fname library true → es ≠ []

theorem parseAround_goes {c : Content} {prelude : Prelude} (hc : c.ending = .exp)
    (h : PreludeClean fs l prelude c f) :
    ∃ n₀, ∀ n ≥ n₀, ∀ d : TigerDriver, d.library = l → d.openPaths = [] →
      ∃ d' es, parseAround fs n prelude d = (d', .ok .list) ∧ d'.errors = d.errors ++ es ∧
        (es ≠ [] ↔ f = true) := by
  unfold PreludeClean at h
  rw [hc] at h
  cases prelude with
  | none =>
    subst h
    exact ⟨0, fun n _ d _ _ => ⟨_, [], rfl, (List.append_nil _).symm, by simp⟩⟩
  | builtin =>
    subst h
    exact ⟨0, fun n _ d _ _ => ⟨_, [], rfl, (List.append_nil _).symm, by simp⟩⟩
  | file name =>
    obtain ⟨p, hclean⟩ := h
    obtain ⟨n₀, h₀⟩ := hclean.goes
    refine ⟨n₀, fun n hn d hl ho => ?_⟩
    obtain ⟨es, he, hes⟩ := h₀ n hn {} d hl ho
    exact ⟨_, es, by rw [parseAround, he], rfl, hes⟩

/-- What `parse::parse` does on a program that is clean. -/
theorem ProgramClean.goes {prelude : Prelude} {fname : Str} {library : FileLibrary}
    (h : ProgramClean fs prelude fname library f) :
    ∃ n₀, ∀ n ≥ n₀, ∃ p es, parseProgram fs n prelude fname library = (library, .ok (p, es)) ∧
      (es ≠ [] ↔ f = true) := by
  obtain ⟨c, v, g, fp, hc, hparsed, hthrough, hprelude, rfl⟩ := h
  obtain ⟨n₁, h₁⟩ := eventually_all fun i hi => (hthrough i hi).1.goes
  have hfile (n : Nat) (hn : n ≥ n₁) := parseContent_goes (c := c)
    (d := { library := library.pushCurrentDirectory (FilePath.ofString fname).parentPath
            input := .file (.ofString fname), location := ⟨.ofString fname, 0⟩ })
    hparsed (h₁ n hn) (fun i hi => (hthrough i hi).2) rfl rfl
  by_cases hexp : c.ending = .exp
  · have hresult : c.result v = .exp := by rw [Content.result, hexp]
    obtain ⟨n₂, h₂⟩ := parseAround_goes hexp hprelude
    refine ⟨n₁ + n₂, fun n hn => ?_⟩
    obtain ⟨d', es, hd', hadv, hes⟩ := hfile n (by omega)
    have herr : d'.errors = es := hadv.errors.trans (List.nil_append _)
    obtain ⟨d₂, qs, hd₂, herr₂, hqs⟩ := h₂ n (by omega) d' hadv.library
      (congrArg (List.map Prod.fst) hadv.openFiles)
    refine ⟨.list, es ++ qs, ?_, ?_⟩
    · unfold parseProgram parseFile
      simp only [hc, hd', hresult, hd₂, herr₂, herr]
      rfl
    · rw [Bool.or_eq_true, ← hes, ← hqs]
      simp only [ne_eq, List.append_eq_nil_iff, not_and_or]
  · have hchunks : c.result v = .chunks (c.value v) := by
      unfold Content.result
      split
      · exact absurd ‹_› hexp
      · rfl
    have hfp : fp = false := by
      unfold PreludeClean at hprelude
      split at hprelude
      · exact absurd ‹_› hexp
      · exact hprelude
    refine ⟨n₁, fun n hn => ?_⟩
    obtain ⟨d', es, hd', hadv, hes⟩ := hfile n hn
    refine ⟨c.value v, es, ?_, by rw [hes, hfp, Bool.or_false]⟩
    unfold parseProgram parseFile
    simp only [hc, hd', hchunks, hadv.errors, List.nil_append]
    rfl

theorem ProgramClean.unique {prelude : Prelude} {fname : Str} {library : FileLibrary}
    (h : ProgramClean fs prelude fname library f) (h' : ProgramClean fs prelude fname library f') :
    f = f' := by
  obtain ⟨n₁, h₁⟩ := h.goes
  obtain ⟨n₂, h₂⟩ := h'.goes
  obtain ⟨p, es, he, hes⟩ := h₁ (n₁ + n₂) (by omega)
  obtain ⟨q, qs, hq, hqs⟩ := h₂ (n₁ + n₂) (by omega)
  rw [he, Prod.mk.injEq, Except.ok.injEq, Prod.mk.injEq] at hq
  obtain ⟨-, -, rfl⟩ := hq
  exact Bool.eq_iff_iff.mpr (hes.symm.trans hqs)

/-- A program `parse::parse` returns from is clean. -/
theorem programClean_of_ok {prelude : Prelude} {fname : Str} {library library' : FileLibrary}
    {t : ChunksPtr × List Error}
    (h : parseProgram fs n prelude fname library = (library', .ok t)) :
    ∃ f, ProgramClean fs prelude fname library f := by
  unfold parseProgram parseFile at h
  cases hc : fs.content (.ofString fname) with
  | none =>
    simp only [hc] at h
    cases h
  | some c =>
    simp only [hc] at h
    split at h
    · cases h
    · rename_i td p heq
      obtain ⟨hparsed, ⟨v, g, hp, hthrough⟩, -⟩ := (returns_parseImport fs n).parseContent heq
      have hfalse : PreludeClean fs
          (library.pushCurrentDirectory (FilePath.ofString fname).parentPath) prelude c false := by
        unfold PreludeClean
        split
        · rename_i hexp
          rw [Content.result, hexp] at hp
          cases hp
        · rfl
      exact ⟨_, c, v, g, false, hc, hparsed, hthrough, hfalse, rfl⟩
    · rename_i td heq
      obtain ⟨hparsed, ⟨v, g, hp, hthrough⟩, hlib, hopen⟩ :=
        (returns_parseImport fs n).parseContent heq
      split at h
      · cases h
      · rename_i td' p heq'
        have hprelude : ∃ f, PreludeClean fs
            (library.pushCurrentDirectory (FilePath.ofString fname).parentPath) prelude c f := by
          unfold PreludeClean
          split
          · rename_i name _
            unfold parseAround at heq'
            simp only at heq'
            split at heq'
            · rename_i td'' q heq''
              obtain ⟨⟨f, hf⟩, -⟩ := returns_parseImport fs n _ _ _ _ _ heq''
              rw [hlib, show td.openPaths = [] from congrArg (List.map Prod.fst) hopen] at hf
              exact ⟨f, q, hf⟩
            · cases heq'
          · exact ⟨false, rfl⟩
        obtain ⟨fp, hfp⟩ := hprelude
        exact ⟨_, c, v, g, fp, hc, hparsed, hthrough, hfp, rfl⟩

/-- A program `parse::parse` throws on leaves its directory in the caller's library. -/
theorem currentDirectory_of_error {prelude : Prelude} {fname : Str}
    {library library' : FileLibrary} {e : Stop}
    (h : parseProgram fs n prelude fname library = (library', .error e)) :
    library'.currentDirectory.length = library.currentDirectory.length + 1 := by
  simp only [parseProgram] at h
  split at h
  · cases h
    rfl
  · cases h
  · split at h
    · cases h
      rfl
    · cases h

theorem parseSane_iff (fs : FileSystem) (prelude : Prelude) (fname : Str)
    (library : FileLibrary) :
    ParseSane fs prelude fname library ↔ ∃ f, ProgramClean fs prelude fname library f := by
  constructor
  · rintro ⟨n, h⟩
    obtain ⟨library', r, hrun, -, -, hdir, -⟩ := h n (Nat.le_refl n)
    cases r with
    | ok t => exact programClean_of_ok hrun
    | error e =>
      have hlen := currentDirectory_of_error hrun
      rw [hdir] at hlen
      omega
  · rintro ⟨f, hclean⟩
    obtain ⟨n₀, h₀⟩ := hclean.goes
    refine ⟨n₀, fun n hn => ?_⟩
    obtain ⟨p, es, hrun, hes⟩ := h₀ n hn
    refine ⟨library, _, hrun, nofun, nofun, rfl, fun p' es' hr htrue => ?_⟩
    cases hr
    exact hes.mpr (hclean.unique htrue)

/-- **The driver and the library of the caller are sane after an import exactly when nothing that
is reached from it throws and no null pointer is followed.** -/
theorem sane_iff_clean (fs : FileSystem) :
    (∀ i d, ImportSane fs i d ↔ ∃ p f, Through fs d.library d.openPaths i p f) ∧
      ∀ prelude fname library,
        ParseSane fs prelude fname library ↔ ∃ f, ProgramClean fs prelude fname library f :=
  ⟨importSane_iff fs, parseSane_iff fs⟩

/-- A library that works in `/d`. -/
def workingLibrary : FileLibrary := { currentDirectory := [.ofString "/d".toList] }

/-- A directory with a file that is no program, and a file that imports it. -/
def brokenFiles : FileSystem where
  exist p := p = .ofString "/d/b.tig".toList
  content p :=
    if p = .ofString "/d/a.tig".toList then some ⟨[], .imported ⟨"b.tig".toList, false⟩⟩
    else if p = .ofString "/d/b.tig".toList then some ⟨[], .syntaxError []⟩
    else none

/-- A declaration in front of an import that is not found, and an import of a file with a syntax
error. -/
theorem not_sane_broken :
    ¬ ImportSane brokenFiles ⟨"c.tig".toList, true⟩ { library := workingLibrary } ∧
      ¬ ParseSane brokenFiles .none "/d/a.tig".toList workingLibrary := by
  constructor
  · rintro ⟨n, h⟩
    obtain ⟨d', r, hrun, hundef, -⟩ := h (n + 1) (Nat.le_succ n)
    have hr : (runImport (parseImport brokenFiles (n + 1)) ⟨"c.tig".toList, true⟩
      { library := workingLibrary }).2 = .error .undefined := by rfl
    rw [hrun] at hr
    exact hundef hr
  · rintro ⟨n, h⟩
    obtain ⟨l', r, hrun, -, -, hdir, -⟩ := h (n + 1) (Nat.le_succ n)
    have hl : (parseProgram brokenFiles (n + 1) .none "/d/a.tig".toList
      workingLibrary).1.currentDirectory.length = 2 := by rfl
    rw [hrun] at hl
    simp only [hdir] at hl
    exact absurd hl (by decide)

end Imports

end TigerCompiler
