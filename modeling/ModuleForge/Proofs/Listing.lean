import ModuleForge.Project.FileTree
import ModuleForge.Proofs.Entries

/-!
# Directory listings

The files below a directory are found by a scan of the sorted paths: from the place of the
directory's name on, as long as the paths start with it. Paths with a common start stand side by side
in the order of the paths, so the scan finds all of them and nothing else
(`FileTree.filesIn_eq_filter`).
-/

namespace ModuleForge

/-! ## Texts with a common start -/

namespace Text

theorem not_lt_of_prefix {start cs : List Char} (h : start <+: cs) : ¬ cs < start := by
  induction start generalizing cs with
  | nil => exact List.not_lt_nil cs
  | cons c start ih =>
    obtain ⟨rest, rfl⟩ := h
    rw [List.cons_append, List.cons_lt_cons_iff]
    rintro (hlt | ⟨-, hlt⟩)
    · exact Char.lt_irrefl c hlt
    · exact ih (List.prefix_append start rest) hlt

/-- What stands between a text and one that starts with it starts with it too. -/
theorem prefix_of_between {start cs ds : List Char} (hstart : ¬ cs < start) (hlt : cs < ds)
    (h : start <+: ds) : start <+: cs := by
  induction start generalizing cs ds with
  | nil => exact List.nil_prefix
  | cons c start ih =>
    obtain ⟨rest, rfl⟩ := h
    cases cs with
    | nil => exact absurd (List.nil_lt_cons c start) hstart
    | cons d cs =>
      rw [List.cons_lt_cons_iff] at hstart
      rw [List.cons_append, List.cons_lt_cons_iff] at hlt
      obtain hlt | ⟨rfl, hlt⟩ := hlt
      · exact absurd (.inl hlt) hstart
      · exact List.cons_prefix_cons.2
          ⟨rfl, ih (fun hcs => hstart (.inr ⟨rfl, hcs⟩)) hlt (List.prefix_append start rest)⟩

end Text

namespace FileTree

variable {t : FileTree} {directory path : String}

theorem isFile_iff : t.isFile path = true ↔ path ∈ t.files.keys :=
  t.files.contains_iff_mem_keys path

theorem isFile_of_read? {text : String} (h : t.read? path = some text) : t.isFile path = true :=
  isFile_iff.2 ((t.files.mem_keys_iff_find? path).2 ⟨text, h⟩)

theorem exists_read?_of_isFile (h : t.isFile path = true) : ∃ text, t.read? path = some text :=
  (t.files.mem_keys_iff_find? path).1 (isFile_iff.1 h)

/-! ## The scan -/

/-- Behind the place of a text in a sorted list, the paths that start with it come first. -/
theorem takeWhile_prefix_eq_filter {start : List Char} {paths : List String}
    (hsorted : paths.Pairwise (· < ·)) (hplace : ∀ path ∈ paths, ¬ path.toList < start) :
    paths.takeWhile (fun path => start.isPrefixOf path.toList) =
      paths.filter fun path => start.isPrefixOf path.toList := by
  induction paths with
  | nil => rfl
  | cons path paths ih =>
    obtain ⟨hlt, hsorted⟩ := List.pairwise_cons.1 hsorted
    obtain ⟨hpath, hplace⟩ := List.forall_mem_cons.1 hplace
    rw [List.takeWhile_cons, List.filter_cons]
    by_cases hprefix : start.isPrefixOf path.toList = true
    · rw [if_pos hprefix, if_pos hprefix, ih hsorted hplace]
    · rw [if_neg hprefix, if_neg hprefix]
      refine (List.filter_eq_nil_iff.2 fun later hlater hstart => hprefix ?_).symm
      exact List.isPrefixOf_iff_prefix.2 (Text.prefix_of_between hpath (hlt later hlater)
        (List.isPrefixOf_iff_prefix.1 hstart))

theorem scan_eq_filter {start : String} {paths : List String} (hsorted : paths.Pairwise (· < ·)) :
    (paths.dropWhile (· < start)).takeWhile (fun path => start.toList.isPrefixOf path.toList) =
      paths.filter fun path => start.toList.isPrefixOf path.toList := by
  induction paths with
  | nil => rfl
  | cons path paths ih =>
    rw [List.dropWhile_cons]
    by_cases hlt : path < start
    · have hnot : ¬ start.toList.isPrefixOf path.toList = true := fun hprefix =>
        Text.not_lt_of_prefix (List.isPrefixOf_iff_prefix.1 hprefix) hlt
      rw [if_pos (decide_eq_true hlt), List.filter_cons, if_neg hnot,
        ih (List.pairwise_cons.1 hsorted).2]
    · rw [if_neg (by simpa using hlt)]
      refine takeWhile_prefix_eq_filter hsorted (List.forall_mem_cons.2 ⟨hlt, fun later hlater => ?_⟩)
      exact fun hstart => hlt (String.lt_trans ((List.pairwise_cons.1 hsorted).1 later hlater) hstart)

/-- **The scan finds the files below a directory**, in the order of their paths. -/
theorem filesIn_eq_filter (t : FileTree) (directory : String) :
    t.filesIn directory =
      t.files.keys.filter fun path => (startOf directory).toList.isPrefixOf path.toList :=
  scan_eq_filter t.files.increasing_keys

theorem mem_filesIn :
    path ∈ t.filesIn directory ↔
      t.isFile path = true ∧ (startOf directory).toList <+: path.toList := by
  rw [filesIn_eq_filter, List.mem_filter, isFile_iff, List.isPrefixOf_iff_prefix]

/-- The first path behind the place of a directory tells whether there is any file below it. -/
theorem isDirectory_iff_filesIn_ne_nil : t.isDirectory directory = true ↔ t.filesIn directory ≠ [] := by
  simp only [isDirectory, filesIn]
  cases t.pathsFrom (startOf directory) with
  | nil => simp
  | cons path paths =>
    rw [List.head?_cons, Option.any_some, List.takeWhile_cons]
    by_cases hstart : (startOf directory).toList.isPrefixOf path.toList = true
    · simp [hstart]
    · simp [hstart]

theorem isDirectory_iff :
    t.isDirectory directory = true ↔
      ∃ path, t.isFile path = true ∧ (startOf directory).toList <+: path.toList := by
  rw [isDirectory_iff_filesIn_ne_nil, Ne, ← List.isEmpty_iff, Bool.not_eq_true,
    List.isEmpty_eq_false_iff_exists_mem]
  simp only [mem_filesIn]

end FileTree

end ModuleForge
