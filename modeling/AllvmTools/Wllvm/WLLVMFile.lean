import AllvmTools.Library.Lines

/-!
# The WLLVM section

An object built with WLLVM lists its bitcode files in a section, one on each line;
the linker may pad with terminators what it puts together.  `WLLVMFile` finds the
section, reads the list, and links the files.

* `parseWLLVMSection_padded` — the list that is read from a padded section.
* `listsExactly_iff` — it is the list of the files just where nothing is padded
  behind the last line.
* `padded_section_is_not_linked` — one file, and one byte behind its line.
-/

namespace AllvmTools
namespace Wllvm

open Library Library.Lines

/-! ## Reading the section -/

/-- `WLLVMFile`: its name and the entries of its section. -/
structure WLLVMFile where
  name : Text
  bcEntries : List Text
deriving DecidableEq, Repr

/-- `parseWLLVMSection`: terminators become blanks, and the lines are trimmed. -/
def parseWLLVMSection (contents : Text) : List Text :=
  let sectionData := contents.map fun c => if c = 0 then 32 else c
  (nonBlankLines sectionData).map trim

/-- The constructor of `WLLVMFile`. -/
def WLLVMFile.ofSection (name bcSectionContents : Text) : WLLVMFile :=
  ⟨name, parseWLLVMSection bcSectionContents⟩

/-- `WLLVMSectionName`. -/
def wllvmSectionName : Text :=
  ascii ".llvm_bc"

/-- A section of an object file; its name or its contents may be unreadable. -/
structure ObjectSection where
  name : Option Text
  size : Nat
  contents : Except Text Text

/-- What `createBinary` makes of a file. -/
inductive Binary where
  | archive
  | object (isELF : Bool) (sections : List ObjectSection)
  | other

/-- The loop of `WLLVMFile::open`. -/
def openSections (file : Text) : List ObjectSection → Except Text WLLVMFile
  | [] => .error (ascii "unable to find WLLVM section")
  | s :: rest =>
      match s.name with
      | none => .error (ascii "error reading name for section ''")
      | some secName =>
          if secName = wllvmSectionName then
            if s.size = 0 then
              .error (ascii "empty WLLVM section found")
            else
              match s.contents with
              | .error message => .error (ascii "Error reading section contents: " ++ message)
              | .ok contents => .ok (.ofSection file contents)
          else
            openSections file rest

/-- `WLLVMFile::open`. -/
def WLLVMFile.openFile (createBinary : Text → Except Text Binary) (file : Text) :
    Except Text WLLVMFile :=
  match createBinary file with
  | .error message => .error message
  | .ok .archive => .error (ascii "archives are not yet supported")
  | .ok .other => .error (ascii "invalid or unsupported file format (expected object file)")
  | .ok (.object isELF sections) =>
      if isELF then openSections file sections else .error (ascii "not an ELF object file")

/-! ## Linking the files -/

section Link

variable {M C : Type}

/-- The loop of `getLinkedModule`: the files it opens, and what it returns;
`parseIRFile` and `linkInModule` are LLVM's. -/
def linkFiles (parseIRFile : Text → Option M) (linkInModule : C → M → Option C) (composite : C) :
    List Text → List Text × Except Text C
  | [] => ([], .ok composite)
  | bcFilename :: rest =>
      match parseIRFile bcFilename with
      | none =>
          ([bcFilename], .error (ascii "Error opening referenced module '" ++ bcFilename ++ ascii "'"))
      | some m =>
          match linkInModule composite m with
          | none => ([bcFilename], .error (bcFilename ++ ascii ": error linking module"))
          | some composite =>
              let (opened, result) := linkFiles parseIRFile linkInModule composite rest
              (bcFilename :: opened, result)

/-- `getLinkedModule`, from an empty module. -/
def WLLVMFile.getLinkedModule (parseIRFile : Text → Option M) (linkInModule : C → M → Option C)
    (composite : C) (file : WLLVMFile) : List Text × Except Text C :=
  linkFiles parseIRFile linkInModule composite file.bcEntries

/-- The files, parsed and linked one after the other. -/
def linked (parseIRFile : Text → Option M) (linkInModule : C → M → Option C) (composite : C)
    (files : List Text) : Option C :=
  files.foldlM (fun composite file => (parseIRFile file).bind (linkInModule composite)) composite

/-- Where all files can be linked, all of them are opened, in order. -/
theorem linkFiles_of_linked {parseIRFile : Text → Option M} {linkInModule : C → M → Option C}
    {composite result : C} {files : List Text}
    (h : linked parseIRFile linkInModule composite files = some result) :
    linkFiles parseIRFile linkInModule composite files = (files, .ok result) := by
  induction files generalizing composite with
  | nil =>
      cases h
      rfl
  | cons file rest ih =>
      unfold linked at h
      rw [List.foldlM_cons] at h
      cases hparse : parseIRFile file with
      | none =>
          rw [hparse] at h
          cases h
      | some m =>
          rw [hparse] at h
          cases hlink : linkInModule composite m with
          | none =>
              rw [Option.bind_some, hlink] at h
              cases h
          | some next =>
              rw [Option.bind_some, hlink] at h
              have hrest := ih h
              simp only [linkFiles, hparse, hlink, hrest]

end Link

/-! ## Padded sections -/

/-- A path as it is listed: not empty, on one line, without white space at its ends. -/
structure ListedPath where
  path : Text
  plain : Plain path
  first : ∀ b ∈ path.head?, isBlank b = false
  last : ∀ b ∈ path.getLast?, isBlank b = false
  ne_nil : path ≠ []

/-- The section of these paths, each with the padding in front of it, and the padding
behind the last line. -/
def sectionContents (entries : List (Nat × ListedPath)) (trailing : Nat) : Text :=
  (entries.flatMap fun entry => List.replicate entry.1 0 ++ entry.2.path ++ [10]) ++
    List.replicate trailing 0

/-- The list of entries is the list of paths, and `getLinkedModule` opens exactly
these files, whatever their modules and their composite are. -/
structure ListsExactly (file : WLLVMFile) (paths : List Text) : Prop where
  getBCFilenames : file.bcEntries = paths
  getLinkedModule : ∀ (M C : Type) (parseIRFile : Text → Option M)
    (linkInModule : C → M → Option C) (composite result : C),
    linked parseIRFile linkInModule composite paths = some result →
      file.getLinkedModule parseIRFile linkInModule composite = (paths, .ok result)

/-- Padding is blank when it is read. -/
theorem map_replicate_zero (n : Nat) :
    (List.replicate n (0 : UInt8)).map (fun c => if c = 0 then 32 else c) =
      List.replicate n 32 := by
  rw [List.map_replicate, if_pos rfl]

theorem map_plain {line : Text} (h : Plain line) :
    line.map (fun c => if c = 0 then 32 else c) = line := by
  refine (List.map_congr_left fun c hc => ?_).trans (List.map_id line)
  rw [if_neg (h c hc).1]
  rfl

theorem plain_padded {line : Text} (h : Plain line) (n : Nat) :
    Plain (List.replicate n 32 ++ line) := by
  intro b hb
  rcases List.mem_append.mp hb with hpad | hline
  · rw [List.eq_of_mem_replicate hpad]
    decide
  · exact h b hline

/-- A padded line is read as its path. -/
theorem parseWLLVMSection_line (n : Nat) (entry : ListedPath) (rest : Text) :
    parseWLLVMSection (List.replicate n 0 ++ entry.path ++ [10] ++ rest) =
      entry.path :: parseWLLVMSection rest := by
  have hline : (List.replicate n 32 ++ entry.path) ≠ [] := by
    simp [entry.ne_nil]
  have hfeed : (if (10 : UInt8) = 0 then (32 : UInt8) else 10) = 10 := by decide
  unfold parseWLLVMSection
  dsimp only
  rw [List.append_assoc _ [10], List.singleton_append, List.map_append, List.map_append,
    List.map_cons, map_replicate_zero, map_plain entry.plain, hfeed,
    nonBlankLines_line (plain_padded entry.plain n) hline, List.map_cons,
    trim_of_padded entry.first entry.last]

/-- Padding behind the last line is an entry without a path. -/
theorem parseWLLVMSection_padding (n : Nat) :
    parseWLLVMSection (List.replicate n 0) = if n = 0 then [] else [[]] := by
  unfold parseWLLVMSection
  dsimp only
  rw [map_replicate_zero]
  cases n with
  | zero =>
      rw [List.replicate_zero, nonBlankLines_nil]
      rfl
  | succ n =>
      have hplain : Plain (List.replicate (n + 1) 32) := by
        intro b hb
        rw [List.eq_of_mem_replicate hb]
        decide
      rw [nonBlankLines_last hplain (List.cons_ne_nil _ _), if_neg (Nat.succ_ne_zero n),
        List.map_singleton, trim_replicate]

/-- The list that is read from a padded section: by induction on its entries. -/
theorem parseWLLVMSection_padded (entries : List (Nat × ListedPath)) (trailing : Nat) :
    parseWLLVMSection (sectionContents entries trailing) =
      entries.map (fun entry => entry.2.path) ++ if trailing = 0 then [] else [[]] := by
  induction entries with
  | nil => exact parseWLLVMSection_padding trailing
  | cons entry rest ih =>
      unfold sectionContents at ih ⊢
      rw [List.flatMap_cons, List.append_assoc, parseWLLVMSection_line, ih]
      rfl

/-- The section is found behind others, and it is not empty. -/
theorem openFile_of_section {createBinary : Text → Except Text Binary} {file contents : Text}
    {front back : List ObjectSection} {size : Nat}
    (hbinary : createBinary file = .ok (.object true
      (front ++ ⟨some wllvmSectionName, size, .ok contents⟩ :: back)))
    (hfront : ∀ s ∈ front, ∃ name, s.name = some name ∧ name ≠ wllvmSectionName)
    (hsize : size ≠ 0) :
    WLLVMFile.openFile createBinary file = .ok (.ofSection file contents) := by
  unfold WLLVMFile.openFile
  rw [hbinary]
  dsimp only
  rw [if_pos rfl]
  clear hbinary
  induction front with
  | nil =>
      rw [List.nil_append, openSections]
      dsimp only
      rw [if_pos rfl, if_neg hsize]
  | cons s rest ih =>
      obtain ⟨name, hname, hother⟩ := hfront s List.mem_cons_self
      rw [List.cons_append, openSections, hname]
      dsimp only
      rw [if_neg hother]
      exact ih fun s hs => hfront s (List.mem_cons_of_mem _ hs)

/-- **The section parser**: it returns the listed files, for every list and every
padding, just where no padding follows the last line. -/
theorem listsExactly_iff (name : Text) (entries : List (Nat × ListedPath)) (trailing : Nat) :
    ListsExactly (.ofSection name (sectionContents entries trailing))
      (entries.map fun entry => entry.2.path) ↔ trailing = 0 := by
  have hparse := parseWLLVMSection_padded entries trailing
  constructor
  · intro h
    have hentries := h.getBCFilenames
    rw [WLLVMFile.ofSection, hparse] at hentries
    by_contra htrailing
    rw [if_neg htrailing] at hentries
    have hlength := congrArg List.length hentries
    simp at hlength
  · intro htrailing
    rw [if_pos htrailing, List.append_nil] at hparse
    refine ⟨hparse, ?_⟩
    intro M C parseIRFile linkInModule composite result hlinked
    unfold WLLVMFile.getLinkedModule WLLVMFile.ofSection
    rw [hparse]
    exact linkFiles_of_linked hlinked

/-- One file is listed, and one byte of padding follows its line: the section has a
second entry, which cannot be opened. -/
theorem padded_section_is_not_linked :
    ∃ file : WLLVMFile, file = .ofSection (ascii "a.o") (ascii "/tmp/a.bc\n" ++ [0]) ∧
      file.bcEntries = [ascii "/tmp/a.bc", []] ∧
      ¬ ListsExactly file [ascii "/tmp/a.bc"] ∧
      file.getLinkedModule (fun path => if path = ascii "/tmp/a.bc" then some () else none)
          (fun n () => some (n + 1)) 0 =
        ([ascii "/tmp/a.bc", []], .error (ascii "Error opening referenced module ''")) := by
  let entry : ListedPath :=
    ⟨ascii "/tmp/a.bc", by unfold Plain; decide +kernel, by decide +kernel, by decide +kernel,
      by decide⟩
  have hparse : parseWLLVMSection (ascii "/tmp/a.bc\n" ++ [0]) = [ascii "/tmp/a.bc", []] :=
    parseWLLVMSection_padded [(0, entry)] 1
  refine ⟨_, rfl, hparse, ?_, ?_⟩
  · intro h
    have hentries := h.getBCFilenames
    rw [WLLVMFile.ofSection, hparse] at hentries
    exact absurd hentries (by decide)
  · unfold WLLVMFile.getLinkedModule WLLVMFile.ofSection
    rw [hparse]
    rfl

end Wllvm
end AllvmTools
