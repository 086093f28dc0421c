import ModuleForge.Proofs.ByteOrder
import ModuleForge.Proofs.Candidates

/-!
# Canonical paths

A canonical path is `/` and behind it segments with single slashes between them, none of which is
empty, `.` or `..`. These are the paths that are their own normal form (`Path.isCanonical_iff`).

- `Path.join_join`: one relative path after another is the path of both together. A `..` goes up
  from wherever the walk is and stays at the root, so the law rests on the walk over the segments
  (`Path.segments_slash`) and not on segments that cancel.
- `FileTree.isNormal_after`: whatever a project and its manifests call their files, the files lie at
  canonical paths.
- `FileTree.filesIn_listing`: the scan of a directory lists what lies below it, in byte order.
-/

namespace ModuleForge

namespace Path

variable {path base relative first second : String}

/-- `/`, and behind it segments with single slashes between them. -/
def IsCanonical (path : String) : Prop :=
  ∃ segs, (∀ seg ∈ segs, IsSegment seg) ∧ path.toList = ofSegments segs

theorem isCanonical_normalize (path : String) : IsCanonical (normalize path) := by
  refine ⟨segments path.toList, isSegment_of_mem_segments path.toList, ?_⟩
  rw [normalize, String.toList_ofList]

theorem IsCanonical.normalize_eq (h : IsCanonical path) : normalize path = path := by
  obtain ⟨segs, hsegs, hpath⟩ := h
  rw [normalize, hpath, segments_ofSegments hsegs, ← hpath, String.ofList_toList]

/-- **The canonical paths are those that are their own normal form.** -/
theorem isCanonical_iff : IsCanonical path ↔ normalize path = path :=
  ⟨IsCanonical.normalize_eq, fun h => h ▸ isCanonical_normalize path⟩

theorem exists_last_segment {segs : List (List Char)} (hne : segs ≠ []) :
    ∃ front last, ofSegments segs = front ++ last ∧ last ∈ segs := by
  obtain rfl | ⟨init, last, rfl⟩ := List.eq_nil_or_concat' segs
  · exact absurd rfl hne
  have hmem : last ∈ init ++ [last] := List.mem_append_right _ List.mem_cons_self
  by_cases hinit : init = []
  · subst hinit
    exact ⟨['/'], last, by simp [ofSegments], hmem⟩
  · exact ⟨ofSegments init ++ ['/'], last, by simp [ofSegments_append_singleton hinit], hmem⟩

/-- Only the root ends in a slash. -/
theorem IsCanonical.endsWith_slash_iff (h : IsCanonical path) :
    endsWith path "/" = true ↔ path = "/" := by
  obtain ⟨segs, hsegs, hpath⟩ := h
  refine ⟨fun hend => ?_, fun hroot => by rw [hroot]; rfl⟩
  by_cases hne : segs = []
  · rw [hne] at hpath
    exact String.toList_inj.1 hpath
  · obtain ⟨front, last, hlast, hmem⟩ := exists_last_segment hne
    have hseg := hsegs last hmem
    have hsuffix : ['/'] <:+ front ++ last := by
      rw [← hlast, ← hpath]
      exact List.isSuffixOf_iff_suffix.1 hend
    have hslash : ['/'] <:+ last :=
      List.suffix_of_suffix_length_le hsuffix (List.suffix_append front last)
        (List.length_pos_iff.2 hseg.ne_nil)
    exact absurd (hslash.subset List.mem_cons_self) hseg.slash

/-! ## One relative path after another -/

/-- A path behind a slash is walked from where the path before it leads. -/
theorem segments_slash (base relative : String) :
    segments (base ++ "/" ++ relative).toList =
      (Text.splitOn '/' relative.toList).foldl step (segments base.toList) := by
  rw [String.toList_append, String.toList_append, List.append_assoc]
  exact segments_append base.toList relative.toList

theorem join_of_relative (h : relative.toList.head? ≠ some '/') :
    join base relative = normalize (base ++ "/" ++ relative) :=
  if_neg h

theorem segments_join (h : relative.toList.head? ≠ some '/') :
    segments (join base relative).toList =
      (Text.splitOn '/' relative.toList).foldl step (segments base.toList) := by
  rw [join_of_relative h, segments_normalize, segments_slash]

theorem head?_append_of_ne_empty (hne : first ≠ "") (rest : String) :
    (first ++ rest).toList.head? = first.toList.head? := by
  obtain ⟨c, cs, hcs⟩ := List.exists_cons_of_ne_nil (mt String.toList_eq_nil_iff.1 hne)
  rw [String.toList_append, hcs]
  rfl

/-- **Two relative paths, one after the other, are one.** -/
theorem join_join (base : String) (hfirst : first.toList.head? ≠ some '/')
    (hsecond : second.toList.head? ≠ some '/') (hne : first ≠ "") :
    join (join base first) second = join base (first ++ "/" ++ second) := by
  have hboth : (first ++ "/" ++ second).toList.head? ≠ some '/' := by
    rw [String.append_assoc, head?_append_of_ne_empty hne]
    exact hfirst
  apply eq_of_segments_eq (normalize_join _ _) (normalize_join _ _)
  calc segments (join (join base first) second).toList
      = (Text.splitOn '/' second.toList).foldl step (segments (join base first).toList) :=
        segments_join hsecond
    _ = (Text.splitOn '/' second.toList).foldl step
          ((Text.splitOn '/' first.toList).foldl step (segments base.toList)) := by
        rw [segments_join hfirst]
    _ = (Text.splitOn '/' (first ++ "/" ++ second).toList).foldl step (segments base.toList) := by
        rw [String.toList_append, String.toList_append, List.append_assoc, ← List.foldl_append]
        exact congrArg (List.foldl step _) (Text.splitOn_append '/' _ _).symm
    _ = segments (join base (first ++ "/" ++ second)).toList := (segments_join hboth).symm

end Path

/-! ## Trees of files -/

namespace FileTree

/-- A change of a tree: a text is put at a path, or all files of a manifest at theirs. -/
inductive Change where
  | insert (path content : String)
  | overlay (m : Manifest)

def Change.apply (t : FileTree) : Change → FileTree
  | .insert path content => t.insert path content
  | .overlay m => t.overlay m

/-- The tree behind changes, one after the other. -/
def after (t : FileTree) (changes : List Change) : FileTree := changes.foldl Change.apply t

variable {t : FileTree}

theorem IsNormal.apply (h : t.IsNormal) (c : Change) : (c.apply t).IsNormal := by
  cases c with
  | insert path content => exact h.insert path content
  | overlay m => exact h.overlay m

theorem IsNormal.after (h : t.IsNormal) (changes : List Change) : (t.after changes).IsNormal :=
  List.foldlRecOn changes Change.apply h fun _ h c _ => h.apply c

/-- **All files lie at canonical paths**, whatever the paths were that they were put at. -/
theorem isNormal_after (listed : List (List String × ByteArray)) (changes : List Change) :
    ((ofDirectory listed).after changes).IsNormal :=
  (isNormal_ofDirectory listed).after changes

/-! ## Directories -/

theorem startOf_root {directory : String} (h : Path.normalize directory = "/") :
    startOf directory = "/" := by
  rw [startOf, h]
  rfl

theorem startOf_of_ne_root {directory : String} (h : Path.normalize directory ≠ "/") :
    startOf directory = Path.normalize directory ++ "/" := by
  have hend := mt (Path.isCanonical_normalize directory).endsWith_slash_iff.1 h
  simp only [startOf, if_neg hend]

theorem isPrefixOf_bytes (start path : String) :
    start.toList.isPrefixOf path.toList = (Text.bytes start).isPrefixOf (Text.bytes path) := by
  rw [Bool.eq_iff_iff, List.isPrefixOf_iff_prefix, List.isPrefixOf_iff_prefix,
    Text.bytes_prefix_iff]

/-- **The scan of a directory is a filter.** In every tree, the files below a directory are all
paths that start with its normal form and a slash, and all paths if that is the root; they are
listed in the order of their bytes, and the path is a directory if and only if there are any. -/
theorem filesIn_listing (listed : List (List String × ByteArray)) (changes : List Change)
    (directory : String) :
    let t := (ofDirectory listed).after changes
    let top := Path.normalize directory
    t.filesIn directory = t.files.keys.filter (fun path =>
        top = "/" || (Text.bytes (top ++ "/")).isPrefixOf (Text.bytes path)) ∧
      (t.filesIn directory).Pairwise (fun a b => Text.bytes a < Text.bytes b) ∧
      (t.isDirectory directory = true ↔ t.filesIn directory ≠ []) := by
  intro t top
  refine ⟨?_, ?_, isDirectory_iff_filesIn_ne_nil⟩
  · rw [filesIn_eq_filter]
    refine List.filter_congr fun path hpath => ?_
    by_cases hroot : top = "/"
    · -- every path starts at the root
      have hnormal := isNormal_after listed changes path (isFile_iff.2 hpath)
      obtain ⟨segs, -, hlist⟩ := Path.isCanonical_iff.2 hnormal
      rw [startOf_root hroot, hlist, Path.ofSegments]
      simp [hroot]
    · rw [startOf_of_ne_root hroot, isPrefixOf_bytes]
      simp [hroot, top]
  · rw [filesIn_eq_filter]
    apply List.Pairwise.filter
    exact t.files.increasing_keys.imp fun hlt => Text.bytes_lt_iff.2 hlt

example :
    let t := (ofDirectory []).after (["/a-b", "/a.js", "/a/x", "/a/é", "/aX"].map (.insert · ""))
    t.filesIn "b/../a/." = ["/a/x", "/a/é"] ∧ t.isDirectory "/a.js" = false := by
  decide +kernel

end FileTree

end ModuleForge
