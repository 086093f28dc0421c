import ModuleForge.Project.Build
import ModuleForge.Proofs.Redirection

/-!
# The candidates of a search

A search looks at a path, at the path with an ending, and, in a directory, at all that its description
leads to and then at its index files. `Resolver.candidates` lists these paths in their order. A search
that does not come to the root finds the first file among them (`Resolver.isFirstCandidate_of_probe`),
and nothing only if none of them is a file (`Resolver.hasNoCandidate_of_probe`).

The index files of the root are never found: their paths are made with one slash too many
(`Resolver.indexOf?_root`).
-/

namespace ModuleForge

/-! ## Paths of index files -/

namespace Path

variable {path : String} {segs : List (List Char)}

theorem toList_of_normalize_eq (h : normalize path = path) :
    path.toList = ofSegments (segments path.toList) := by
  have hlist := congrArg String.toList h
  rw [normalize, String.toList_ofList] at hlist
  exact hlist.symm

theorem ofSegments_append_singleton (hne : segs ≠ []) (seg : List Char) :
    ofSegments (segs ++ [seg]) = ofSegments segs ++ '/' :: seg := by
  have happend (first : List Char) (more : List (List Char)) :
      ['/'].intercalate (first :: more ++ [seg]) =
        ['/'].intercalate (first :: more) ++ '/' :: seg := by
    induction more generalizing first with
    | nil => simp
    | cons next more ih =>
      rw [List.cons_append, List.cons_append, List.intercalate_cons_cons, ← List.cons_append, ih,
        List.intercalate_cons_cons, List.append_assoc _ (['/'].intercalate _)]
  obtain ⟨first, more, rfl⟩ := List.exists_cons_of_ne_nil hne
  rw [ofSegments, happend, ofSegments, List.cons_append]

theorem join_name_eq_append {name : String} (h : normalize path = path) (hroot : path ≠ "/")
    (hname : IsSegment name.toList) : join path name = path ++ "/" ++ name := by
  have hne : segments path.toList ≠ [] := by
    intro hnil
    refine hroot (String.toList_inj.1 ?_)
    rw [toList_of_normalize_eq h, hnil]
    rfl
  refine String.toList_inj.1 ?_
  rw [toList_of_normalize_eq (normalize_join path name), segments_join_name hname,
    ofSegments_append_singleton hne, ← toList_of_normalize_eq h, String.toList_append,
    String.toList_append, List.append_assoc]
  rfl

end Path

namespace FileTree

variable {t : FileTree}

/-- All files lie at paths in normal form. -/
def IsNormal (t : FileTree) : Prop := ∀ path, t.isFile path = true → Path.normalize path = path

theorem isNormal_empty : IsNormal {} := by
  intro path hpath
  cases hpath

theorem IsNormal.insert (h : t.IsNormal) (path content : String) :
    (t.insert path content).IsNormal := by
  intro file hfile
  obtain rfl | hmem := (t.files.mem_keys_insert _ content file).1 (isFile_iff.1 hfile)
  · exact Path.normalize_normalize path
  · exact h file (isFile_iff.2 hmem)

/-- The files of a manifest get paths in normal form, whatever the manifest calls them. -/
theorem IsNormal.overlay (h : t.IsNormal) (m : Manifest) : (t.overlay m).IsNormal :=
  List.foldlRecOn m.contents.entries _ h fun _ h file _ => h.insert file.1 file.2.content

theorem isNormal_ofDirectory (files : List (List String × ByteArray)) :
    (ofDirectory files).IsNormal := by
  refine List.foldlRecOn files _ isNormal_empty fun t h file _ => ?_
  split
  · exact h
  · split
    · exact h.insert _ _
    · exact h

end FileTree

namespace Resolver

variable {r : Resolver} {t : FileTree} {target path entry specifier source : String} {m n : Nat}

/-! ## The search without a bound -/

/-- What a search that ends comes to: perhaps a file. -/
def Probe.ofFile? (file : Option String) : Probe := (file.map .found).getD .missing

theorem probeWithin_of_file (n : Nat) (hfile : fileAt? t target = some path) :
    probeWithin t (n + 1) target = .found path := by
  simp [probeWithin, hfile]

theorem probeWithin_of_not_directory (n : Nat) (hfile : fileAt? t target = none)
    (hdirectory : t.isDirectory target = false) : probeWithin t (n + 1) target = .missing := by
  simp [probeWithin, hfile, hdirectory]

theorem probeWithin_of_no_entry (n : Nat) (hfile : fileAt? t target = none)
    (hdirectory : t.isDirectory target = true) (hentry : entryOf? t target = none) :
    probeWithin t (n + 1) target = .ofFile? (indexOf? t target) := by
  simp [probeWithin, hfile, hdirectory, hentry, Probe.ofFile?]

theorem probeWithin_of_entry (n : Nat) (hfile : fileAt? t target = none)
    (hdirectory : t.isDirectory target = true) (hentry : entryOf? t target = some entry) :
    probeWithin t (n + 1) target =
      if probeWithin t n entry = .missing then .ofFile? (indexOf? t target)
      else probeWithin t n entry := by
  simp only [probeWithin, hfile, hdirectory, hentry, Probe.ofFile?]
  cases probeWithin t n entry <;> simp

/-- A search that has come to its end does so with more redirections allowed, too. -/
theorem probeWithin_of_le (hle : m ≤ n) (h : probeWithin t m target ≠ .endless) :
    probeWithin t n target = probeWithin t m target := by
  induction m generalizing n target with
  | zero => exact absurd rfl h
  | succ m ih =>
    obtain ⟨n, rfl⟩ := Nat.exists_eq_add_of_lt (Nat.lt_of_succ_le hle)
    cases hfile : fileAt? t target with
    | some path => rw [probeWithin_of_file _ hfile, probeWithin_of_file _ hfile]
    | none =>
      cases hdirectory : t.isDirectory target with
      | false =>
        rw [probeWithin_of_not_directory _ hfile hdirectory,
          probeWithin_of_not_directory _ hfile hdirectory]
      | true =>
        cases hentry : entryOf? t target with
        | none =>
          rw [probeWithin_of_no_entry _ hfile hdirectory hentry,
            probeWithin_of_no_entry _ hfile hdirectory hentry]
        | some entry =>
          rw [probeWithin_of_entry _ hfile hdirectory hentry] at h ⊢
          rw [probeWithin_of_entry _ hfile hdirectory hentry]
          have hnext : probeWithin t m entry ≠ .endless := by
            intro hendless
            rw [hendless] at h
            exact h rfl
          rw [ih (by omega) hnext]

/-- The search is not cut off by the number of redirections that are allowed. -/
theorem probeWithin_eq_probe (hnormal : Path.normalize target = target) (hn : t.size < n) :
    probeWithin t n target = probe t target := by
  by_cases hcircle : LeadsInCircle t target
  · rw [(probeWithin_eq_endless_iff_leadsInCircle hnormal hn).2 hcircle,
      (probe_eq_endless_iff hnormal).2 hcircle]
  · have hwithin := mt (probeWithin_eq_endless_iff_leadsInCircle hnormal hn).1 hcircle
    have hprobe := mt (probe_eq_endless_iff hnormal).1 hcircle
    obtain hle | hle := Nat.le_total n (t.size + 2)
    · exact (probeWithin_of_le hle hwithin).symm
    · exact probeWithin_of_le hle hprobe

/-- A search in a directory goes on where the description leads, and comes back if nothing is there. -/
theorem probe_of_entry (hfile : fileAt? t target = none) (hdirectory : t.isDirectory target = true)
    (hentry : entryOf? t target = some entry) :
    probe t target =
      if probe t entry = .missing then .ofFile? (indexOf? t target) else probe t entry := by
  rw [probe, probeWithin_of_entry _ hfile hdirectory hentry,
    probeWithin_eq_probe (entryOf?_spec hentry).1 (Nat.lt_succ_self _)]

theorem probe_eq_indexOf? (hfile : fileAt? t target = none)
    (hdirectory : t.isDirectory target = true)
    (hentry : ∀ entry, entryOf? t target = some entry → probe t entry = .missing) :
    probe t target = .ofFile? (indexOf? t target) := by
  cases h : entryOf? t target with
  | none => exact probeWithin_of_no_entry _ hfile hdirectory h
  | some entry => rw [probe_of_entry hfile hdirectory h, if_pos (hentry entry h)]

/-! ## Candidates -/

/-- A path, and the path with each of the endings. -/
def spellings (target : String) : List String :=
  target :: extensions.map fun e => target ++ "." ++ e

/-- The index files of a directory. -/
def indexFiles (target : String) : List String :=
  extensions.map fun e => Path.join target ("index." ++ e)

/-- Where the description of a directory leads: its `module` before its `main`. -/
def describedPath? (t : FileTree) (target : String) : Option String := do
  let text ← t.read? (Path.join target "package.json")
  let entry ← (← Description.parse? text).entryPoint?
  some (Path.join target entry)

theorem isSegment_index : ∀ e ∈ extensions, Path.IsSegment ("index." ++ e).toList := by
  intro e he
  simp only [extensions, List.mem_cons, List.not_mem_nil, or_false] at he
  rcases he with rfl | rfl | rfl | rfl <;> constructor <;> decide

theorem fileAt?_eq_find? (t : FileTree) (target : String) :
    fileAt? t target = (spellings target).find? t.isFile := rfl

/-- The index files of any directory but the root are looked for where they are. -/
theorem indexOf?_eq_find? (hnormal : Path.normalize target = target) (hroot : target ≠ "/") :
    indexOf? t target = (indexFiles target).find? t.isFile := by
  have hpaths : (extensions.map fun e => target ++ "/index." ++ e) = indexFiles target := by
    refine List.map_congr_left fun e he => ?_
    rw [Path.join_name_eq_append hnormal hroot (isSegment_index e he)]
    exact String.toList_inj.1 (by simp)
  rw [indexOf?, hpaths]

/-- The index files of the root are looked for where no file can be. -/
theorem indexOf?_root (hnormal : t.IsNormal) : indexOf? t "/" = none := by
  have hpaths : ∀ path ∈ extensions.map (fun e => "/" ++ "/index." ++ e),
      Path.normalize path ≠ path := by
    decide +kernel
  exact List.find?_eq_none.2 fun path hpath hfile => hpaths path hpath (hnormal path hfile)

theorem entryOf?_eq_filter (t : FileTree) (target : String) :
    entryOf? t target = (describedPath? t target).filter (· ≠ target) := by
  unfold entryOf? describedPath?
  cases t.read? (Path.join target "package.json") with
  | none => rfl
  | some text =>
    cases hd : Description.parse? text with
    | none => simp [hd]
    | some d =>
      cases he : d.entryPoint? with
      | none => simp [hd, he]
      | some entry =>
        by_cases heq : Path.join target entry = target <;> simp [hd, he, heq, Option.filter]

theorem resolveFile_eq_notFound_iff {wanted asker missed : String} :
    r.resolveFile t target specifier source = .error (.notFound wanted asker missed) ↔
      probe t target = .missing ∧ specifier = wanted ∧ source = asker ∧ target = missed := by
  unfold resolveFile
  cases probe t target <;> simp

theorem fileAt?_eq_none_iff :
    fileAt? t target = none ↔ ∀ path ∈ spellings target, t.isFile path = false := by
  rw [fileAt?_eq_find?, List.find?_eq_none]
  simp only [Bool.not_eq_true]

theorem entryOf?_root {d : Description} (hdescribe : Build.describe t = some d)
    (hentry : d.entryPoint? = some "./") : entryOf? t "/" = none := by
  have hpath : Path.join "/" "package.json" = "/package.json" := by decide +kernel
  have hself : Path.join "/" "./" = "/" := by decide +kernel
  rw [entryOf?_eq_filter, describedPath?, hpath]
  cases hread : t.read? "/package.json" with
  | none => rfl
  | some text =>
    simp only [Build.describe, hread] at hdescribe
    simp [hdescribe, hentry, hself, Option.filter]

/-- A search that comes to the root and to no file there ends with nothing. -/
theorem probe_root_eq_missing (hnormal : t.IsNormal)
    (hfile : ∀ path ∈ spellings "/", t.isFile path = false)
    (hentry : ∀ entry, entryOf? t "/" = some entry → probe t entry = .missing) :
    probe t "/" = .missing := by
  have hnone := fileAt?_eq_none_iff.2 hfile
  cases hdirectory : t.isDirectory "/" with
  | false => exact probeWithin_of_not_directory _ hnone hdirectory
  | true =>
    rw [probe_eq_indexOf? hnone hdirectory hentry, indexOf?_root hnormal]
    rfl

theorem searchPath?_root (r : Resolver) (t : FileTree) (source : String) :
    r.searchPath? t "/" source = some "/" := by
  rw [searchPath?, if_neg (by decide), if_neg (by decide), if_pos (by decide)]
  decide +kernel

/-- A project that is said to start at its own root has no first module. -/
theorem report_of_rootEntry (hnormal : t.IsNormal)
    (hfile : ∀ path ∈ spellings "/", t.isFile path = false) (config : Config) {d : Description}
    (hdescribe : Build.describe t = some d) (hentry : d.entryPoint? = some "./") :
    Build.report config d t none = .error (.entryNotFound "./") := by
  have hpath : Build.entryPath "./" = "/" := by decide
  have hmissing : probe t "/" = .missing := by
    refine probe_root_eq_missing hnormal hfile fun entry h => ?_
    cases h.symm.trans (entryOf?_root hdescribe hentry)
  have hresolve (r : Resolver) : r.resolve t "/" "/package.json" =
      .error (.notFound "/" "/package.json" "/") := by
    rw [resolve_of_searchPath? (r.searchPath?_root t _), resolveFile_eq_notFound_iff]
    exact ⟨hmissing, rfl, rfl, rfl⟩
  have hfind (r : Resolver) : Build.findEntry t r d none = .error (.entryNotFound "./") := by
    simp [Build.findEntry, hentry, hpath, hresolve r]
  rw [Build.report, hfind]
  rfl

/-- **The index file of a directory is what the directory means**, at every level but the root. There
it is found only if the description of the root leads to it, and else nothing is found. So a project
that is said to start at its own root has no first module. -/
theorem resolve_index (r : Resolver) {t : FileTree} (hnormal : t.IsNormal)
    {specifier source target index : String}
    (hsearch : r.searchPath? t specifier source = some target)
    (hfile : ∀ path ∈ spellings target, t.isFile path = false)
    (hdirectory : t.isDirectory target = true)
    (hindex : (indexFiles target).find? t.isFile = some index)
    (hentry : ∀ entry, entryOf? t target = some entry →
      probe t entry = .missing ∨ probe t entry = .found index) :
    (target ≠ "/" ∨ (∃ entry, entryOf? t target = some entry ∧ probe t entry = .found index) →
      r.fileMeant? t specifier source = some index) ∧
    (target = "/" → (∀ entry, entryOf? t target = some entry → probe t entry = .missing) →
      r.resolve t specifier source = .error (.notFound specifier source "/")) ∧
    (target = "/" → ∀ config d, Build.describe t = some d → d.entryPoint? = some "./" →
      Build.report config d t none = .error (.entryNotFound "./")) := by
  have hnone := fileAt?_eq_none_iff.2 hfile
  refine ⟨fun h => fileMeant?_eq_some_iff.2 ⟨target, hsearch, ?_⟩, ?_, ?_⟩
  · obtain hroot | ⟨entry, hsome, hfound⟩ := h
    · have hhere : indexOf? t target = some index :=
        (indexOf?_eq_find? (normalize_of_searchPath? hsearch) hroot).trans hindex
      cases hsome : entryOf? t target with
      | none =>
        rw [probe, probeWithin_of_no_entry _ hnone hdirectory hsome, hhere]
        rfl
      | some entry =>
        rw [probe_of_entry hnone hdirectory hsome, hhere]
        obtain hmissing | hfound := hentry entry hsome
        · exact if_pos hmissing
        · rw [hfound]
          rfl
    · rw [probe_of_entry hnone hdirectory hsome, hfound]
      rfl
  · rintro rfl hmissing
    rw [resolve_of_searchPath? hsearch, resolveFile_eq_notFound_iff]
    exact ⟨probe_root_eq_missing hnormal hfile hmissing, rfl, rfl, rfl⟩
  · rintro rfl config d hdescribe hstart
    exact report_of_rootEntry hnormal hfile config hdescribe hstart

/-- A directory with two index files and a description that leads nowhere. -/
def indexedFiles : FileTree :=
  ((({} : FileTree).insert "/lib/package.json" "\x7b\"main\":\"gone.js\"\x7d").insert
    "/lib/index.json" "").insert "/lib/index.cjs" ""

theorem resolve_index_indexed :
    indexedFiles.IsNormal ∧
      (ofRoot "/node_modules").searchPath? indexedFiles "../../lib" "/src/a/b.js" = some "/lib" ∧
      (∀ path ∈ spellings "/lib", indexedFiles.isFile path = false) ∧
      indexedFiles.isDirectory "/lib" = true ∧
      (indexFiles "/lib").find? indexedFiles.isFile = some "/lib/index.cjs" ∧
      entryOf? indexedFiles "/lib" = some "/lib/gone.js" ∧
      (ofRoot "/node_modules").fileMeant? indexedFiles "../../lib" "/src/a/b.js" =
        some "/lib/index.cjs" := by
  have hnormal : indexedFiles.IsNormal :=
    ((FileTree.isNormal_empty.insert _ _).insert _ _).insert _ _
  have hsearch : (ofRoot "/node_modules").searchPath? indexedFiles "../../lib" "/src/a/b.js" =
      some "/lib" := by
    decide +kernel
  have hfile : ∀ path ∈ spellings "/lib", indexedFiles.isFile path = false := by decide +kernel
  have hdirectory : indexedFiles.isDirectory "/lib" = true := by decide +kernel
  have hindex : (indexFiles "/lib").find? indexedFiles.isFile = some "/lib/index.cjs" := by
    decide +kernel
  have hentry : entryOf? indexedFiles "/lib" = some "/lib/gone.js" := by decide +kernel
  have hgone : ∀ entry, entryOf? indexedFiles "/lib" = some entry →
      probe indexedFiles entry = .missing ∨ probe indexedFiles entry = .found "/lib/index.cjs" := by
    intro entry h
    cases hentry.symm.trans h
    exact .inl (by decide +kernel)
  have hfound := (resolve_index (ofRoot "/node_modules") hnormal hsearch hfile hdirectory hindex
    hgone).1
  exact ⟨hnormal, hsearch, hfile, hdirectory, hindex, hentry, hfound (.inl (by decide))⟩

/-- The root of a project with an index file, and a description that says to start there. -/
def rootFiles : FileTree :=
  (({} : FileTree).insert "/package.json" "\x7b\"main\":\"./\"\x7d").insert "/index.js" ""

/-- The index file of the root is not found, neither by a module nor as the first one. -/
theorem resolve_rootIndex :
    (∀ path ∈ spellings "/", rootFiles.isFile path = false) ∧
      rootFiles.isDirectory "/" = true ∧ entryOf? rootFiles "/" = none ∧
      rootFiles.isFile (Path.join "/" "index.js") = true ∧
      (ofRoot "/node_modules").searchPath? rootFiles "./" "/app.js" = some "/" ∧
      (ofRoot "/node_modules").resolve rootFiles "./" "/app.js" =
        .error (.notFound "./" "/app.js" "/") ∧
      (Build.describe rootFiles).map (Build.findEntry rootFiles (ofRoot "/node_modules") · none) =
        some (.error (.entryNotFound "./")) := by
  decide +kernel

end Resolver

end ModuleForge
