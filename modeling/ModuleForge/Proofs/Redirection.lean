import ModuleForge.Proofs.Paths
import ModuleForge.Proofs.Resolution
import Mathlib.Combinatorics.Pigeonhole
import Mathlib.Data.Set.Card

/-!
# Directories that lead to directories

The description of a directory redirects a search to another path, and its description perhaps to the
next one (`Resolver.hop`). A search ends exactly when these redirections do not run in a circle
(`Resolver.probe_eq_endless_iff`), and then every directory is left at most once
(`Resolver.exists_last_hop`). A description that leads to its own directory is passed over, but two
directories can still lead to each other (`Resolver.resolve_circle`).
-/

namespace ModuleForge

/-! ## Directories -/

/-- The directories of a file tree, in normal form. -/
def FileTree.directories (t : FileTree) : Set String :=
  {path | Path.normalize path = path ∧ t.isDirectory path = true}

namespace FileTree

variable {t : FileTree} {path : String}

theorem prefix_startOf (h : Path.normalize path = path) :
    path.toList <+: (startOf path).toList := by
  rw [startOf, h]
  split
  · exact List.prefix_rfl
  · rw [String.toList_append]
    exact List.prefix_append _ _

/-- Every directory is the start of the path of a file, so there are finitely many. -/
theorem finite_directories (t : FileTree) : t.directories.Finite := by
  refine (List.finite_toSet
    (t.files.keys.flatMap fun file => file.toList.inits.map String.ofList)).subset ?_
  rintro path ⟨hnormal, hdirectory⟩
  obtain ⟨file, hfile, hstart⟩ := isDirectory_iff.1 hdirectory
  refine List.mem_flatMap.2 ⟨file, isFile_iff.1 hfile, List.mem_map.2 ⟨path.toList, ?_, ?_⟩⟩
  · exact (List.mem_inits _ _).2 ((prefix_startOf hnormal).trans hstart)
  · exact String.ofList_toList

end FileTree

namespace Resolver

variable {r : Resolver} {t : FileTree} {target next path specifier source : String} {m n : Nat}

/-! ## Redirections -/

/-- Where a search at a path goes on: where the description of the directory leads, if the path is not
a file already. -/
def redirect? (t : FileTree) (target : String) : Option String :=
  if (fileAt? t target).isNone && t.isDirectory target then entryOf? t target else none

/-- Where a search is after a number of redirections, if there are as many. -/
def hop (t : FileTree) : (redirections : Nat) → (target : String) → Option String
  | 0, target => some target
  | n + 1, target => (redirect? t target).bind (hop t n)

theorem hop_add (t : FileTree) (m n : Nat) (target : String) :
    hop t (m + n) target = (hop t m target).bind (hop t n) := by
  induction m generalizing target with
  | zero => rw [Nat.zero_add]; rfl
  | succ m ih =>
    rw [Nat.succ_add, hop, hop]
    cases redirect? t target with
    | none => rfl
    | some next => exact ih next

theorem hop_isSome_of_le (hle : m ≤ n) (h : (hop t n target).isSome = true) :
    (hop t m target).isSome = true := by
  obtain ⟨k, rfl⟩ := Nat.exists_eq_add_of_le hle
  rw [hop_add] at h
  exact Option.isSome_of_isSome_bind h

/-- **A search within a number of redirections comes to no end exactly when there are as many.** -/
theorem probeWithin_eq_endless_iff :
    probeWithin t n target = .endless ↔ (hop t n target).isSome = true := by
  induction n generalizing target with
  | zero => exact iff_of_true rfl rfl
  | succ n ih =>
    have hindex : ((indexOf? t target).map Probe.found).getD .missing ≠ .endless := by
      cases indexOf? t target <;> simp
    rw [probeWithin, hop, redirect?]
    cases hfile : fileAt? t target with
    | some file => simp
    | none =>
      cases hdirectory : t.isDirectory target with
      | false => simp
      | true =>
        cases hentry : entryOf? t target with
        | none => simpa using hindex
        | some next =>
          have hnext := @ih next
          simp only [Option.isNone_none, Bool.and_true, if_true, Option.bind_some, Bool.not_true,
            Bool.false_eq_true, if_false]
          rw [← hnext]
          cases probeWithin t n next with
          | found file => simp
          | missing => simpa using hindex
          | endless => simp

theorem entryOf?_spec (h : entryOf? t target = some next) :
    Path.normalize next = next ∧ next ≠ target ∧
      t.isFile (Path.join target "package.json") = true := by
  simp only [entryOf?, Option.bind_eq_bind, Option.bind_eq_some_iff] at h
  obtain ⟨text, htext, description, -, entry, -, h⟩ := h
  split at h
  · cases h
  · rename_i hne
    cases h
    exact ⟨Path.normalize_join target entry, hne, FileTree.isFile_of_read? htext⟩

theorem redirect?_spec (h : redirect? t target = some next) :
    Path.normalize next = next ∧ next ≠ target ∧ t.isDirectory target = true ∧
      t.isFile (Path.join target "package.json") = true := by
  unfold redirect? at h
  split at h
  · rename_i hcond
    rw [Bool.and_eq_true] at hcond
    obtain ⟨hnormal, hne, hfile⟩ := entryOf?_spec h
    exact ⟨hnormal, hne, hcond.2, hfile⟩
  · cases h

theorem normalize_of_hop (hnormal : Path.normalize target = target)
    (h : hop t n target = some path) : Path.normalize path = path := by
  induction n generalizing target with
  | zero => cases h; exact hnormal
  | succ n ih =>
    obtain ⟨next, hredirect, h⟩ := Option.bind_eq_some_iff.1 h
    exact ih (redirect?_spec hredirect).1 h

/-! ## Circles -/

/-- The redirections from a path come to a directory from which they come back to it, over at least
one other. -/
def LeadsInCircle (t : FileTree) (target : String) : Prop :=
  ∃ m n path, 2 ≤ n ∧ hop t m target = some path ∧ hop t n path = some path

theorem hop_mul (h : hop t n path = some path) (k : Nat) : hop t (n * k) path = some path := by
  induction k with
  | zero => rfl
  | succ k ih => rw [Nat.mul_succ, hop_add, ih]; exact h

theorem LeadsInCircle.hop_isSome (h : LeadsInCircle t target) (k : Nat) :
    (hop t k target).isSome = true := by
  obtain ⟨m, n, path, hn, hm, hcircle⟩ := h
  have hround : hop t (m + n * k) target = some path := by
    rw [hop_add, hm]
    exact hop_mul hcircle k
  have hle : k ≤ m + n * k := by
    have := Nat.le_mul_of_pos_left k (show 0 < n by omega)
    omega
  exact hop_isSome_of_le hle (by rw [hround]; rfl)

theorem leadsInCircle_of_hop_eq (hlt : m < n) (hm : hop t m target = some path)
    (hn : hop t n target = some path) : LeadsInCircle t target := by
  obtain ⟨k, rfl⟩ := Nat.exists_eq_add_of_lt hlt
  rw [Nat.add_assoc, hop_add, hm, Option.bind_some] at hn
  refine ⟨m, k + 1, path, ?_, hm, hn⟩
  cases k with
  | zero =>
    -- one redirection never leads back to where it started
    obtain ⟨next, hredirect, hnext⟩ := Option.bind_eq_some_iff.1 hn
    cases hnext
    exact absurd rfl (redirect?_spec hredirect).2.1
  | succ k => omega

/-- More redirections than there are marks for the directories that are left lead in a circle. -/
theorem leadsInCircle_of_card_lt (mark : String → String) (marks : Finset String)
    (hmark : ∀ path next, Path.normalize path = path → redirect? t path = some next →
      mark path ∈ marks)
    (hinj : ∀ path other, Path.normalize path = path → Path.normalize other = other →
      mark path = mark other → path = other)
    (hnormal : Path.normalize target = target) (hcard : marks.card < n)
    (h : (hop t n target).isSome = true) : LeadsInCircle t target := by
  have hstep : ∀ i < n, ∃ path next, hop t i target = some path ∧ redirect? t path = some next := by
    intro i hi
    obtain ⟨next, hnext⟩ := Option.isSome_iff_exists.1 (hop_isSome_of_le (Nat.succ_le_of_lt hi) h)
    rw [Nat.succ_eq_add_one, hop_add] at hnext
    obtain ⟨path, hpath, hone⟩ := Option.bind_eq_some_iff.1 hnext
    obtain ⟨after, hafter, -⟩ := Option.bind_eq_some_iff.1 hone
    exact ⟨path, after, hpath, hafter⟩
  have hmaps : ∀ i ∈ Finset.range n, mark ((hop t i target).getD "") ∈ marks := by
    intro i hi
    obtain ⟨path, next, hpath, hnext⟩ := hstep i (Finset.mem_range.1 hi)
    rw [hpath]
    exact hmark path next (normalize_of_hop hnormal hpath) hnext
  obtain ⟨i, hi, j, hj, hne, heq⟩ := Finset.exists_ne_map_eq_of_card_lt_of_maps_to
    (by rwa [Finset.card_range]) hmaps
  obtain ⟨path, -, hpath, -⟩ := hstep i (Finset.mem_range.1 hi)
  obtain ⟨other, -, hother, -⟩ := hstep j (Finset.mem_range.1 hj)
  rw [hpath, hother] at heq
  obtain rfl := hinj path other (normalize_of_hop hnormal hpath) (normalize_of_hop hnormal hother) heq
  obtain hlt | hlt := Nat.lt_or_gt_of_ne hne
  · exact leadsInCircle_of_hop_eq hlt hpath hother
  · exact leadsInCircle_of_hop_eq hlt hother hpath

theorem isSegment_package : Path.IsSegment "package.json".toList := by
  constructor <;> decide

/-- Each directory that is left has a description of its own, so the number of files bounds the
redirections of a search that does not lead in a circle. -/
theorem probeWithin_eq_endless_iff_leadsInCircle (hnormal : Path.normalize target = target)
    (hn : t.size < n) : probeWithin t n target = .endless ↔ LeadsInCircle t target := by
  rw [probeWithin_eq_endless_iff]
  refine ⟨fun h => ?_, fun h => h.hop_isSome _⟩
  refine leadsInCircle_of_card_lt (fun path => Path.join path "package.json")
    t.files.keys.toFinset (fun path next _ hredirect => ?_)
    (fun path other hpath hother => Path.join_name_injective isSegment_package hpath hother)
    hnormal ?_ h
  · exact List.mem_toFinset.2 (FileTree.isFile_iff.1 (redirect?_spec hredirect).2.2.2)
  · have hcard := List.toFinset_card_le t.files.keys
    have hkeys : t.files.keys.length = t.size := by
      simp [Dictionary.keys, FileTree.size, Dictionary.size]
    omega

/-- **A search comes to no end exactly when the redirections lead in a circle.** -/
theorem probe_eq_endless_iff (hnormal : Path.normalize target = target) :
    probe t target = .endless ↔ LeadsInCircle t target :=
  probeWithin_eq_endless_iff_leadsInCircle hnormal (by omega)

/-- A search that does not lead in a circle leaves every directory at most once. -/
theorem exists_last_hop (hnormal : Path.normalize target = target)
    (h : ¬ LeadsInCircle t target) :
    ∃ n ≤ t.directories.ncard, (hop t n target).isSome = true ∧ hop t (n + 1) target = none := by
  have hfinite := t.finite_directories
  have hend : hop t (t.directories.ncard + 1) target = none := by
    by_contra hsome
    refine h (leadsInCircle_of_card_lt id hfinite.toFinset (fun path next hpath hredirect => ?_)
      (fun path other _ _ => id) hnormal ?_ (Option.isSome_iff_ne_none.2 hsome))
    · exact hfinite.mem_toFinset.2 ⟨hpath, (redirect?_spec hredirect).2.2.1⟩
    · rw [← Set.ncard_eq_toFinset_card _ hfinite]
      exact Nat.lt_succ_self _
  -- the last redirection is the one before the first that is missing
  have hnone : ∃ n, hop t n target = none := ⟨_, hend⟩
  obtain ⟨n, hn⟩ := Nat.exists_eq_succ_of_ne_zero (n := Nat.find hnone) fun hzero => by
    have hstart := Nat.find_spec hnone
    rw [hzero] at hstart
    cases hstart
  have hfirst := Nat.find_spec hnone
  rw [hn] at hfirst
  refine ⟨n, ?_, ?_, hfirst⟩
  · have hle := Nat.find_min' hnone hend
    omega
  · exact Option.isSome_iff_ne_none.2 (Nat.find_min hnone (by omega))

/-! ## Specifiers -/

theorem normalize_of_searchPath? (h : r.searchPath? t specifier source = some target) :
    Path.normalize target = target := by
  unfold searchPath? at h
  split at h
  · cases h
  · split at h
    · cases h
      exact Path.normalize_join _ _
    · split at h
      · cases h
        exact Path.normalize_normalize _
      · dsimp only at h
        split at h
        · cases h
          cases (splitPackage specifier).2 with
          | none => exact Path.normalize_join _ _
          | some path => exact Path.normalize_join _ _
        · cases h

theorem resolveFile_eq_endless_iff {found : String} :
    r.resolveFile t target specifier source = .error (.endless found) ↔
      probe t target = .endless ∧ target = found := by
  unfold resolveFile
  cases probe t target <;> simp

/-- **A specifier has no meaning that can be found exactly when the search for it leads in a circle.**
The redirections of such a search never end; any other search leaves each directory of the tree at
most once. -/
theorem resolve_endless_iff (r : Resolver) (t : FileTree) (specifier source : String) :
    (∀ target, r.resolve t specifier source = .error (.endless target) ↔
      r.searchPath? t specifier source = some target ∧ LeadsInCircle t target) ∧
    ∀ target, r.searchPath? t specifier source = some target →
      (LeadsInCircle t target → ∀ k, (hop t k target).isSome = true) ∧
      (¬ LeadsInCircle t target →
        ∃ n ≤ t.directories.ncard, (hop t n target).isSome = true ∧ hop t (n + 1) target = none) := by
  refine ⟨fun target => ?_, fun target hsearch =>
    ⟨LeadsInCircle.hop_isSome, exists_last_hop (normalize_of_searchPath? hsearch)⟩⟩
  cases hsearch : r.searchPath? t specifier source with
  | none =>
    obtain ⟨name, hresolve⟩ | ⟨name, hresolve⟩ := resolve_of_searchPath?_eq_none hsearch <;>
      simp [hresolve]
  | some start =>
    rw [resolve_of_searchPath? hsearch, resolveFile_eq_endless_iff,
      probe_eq_endless_iff (normalize_of_searchPath? hsearch), Option.some_inj]
    exact ⟨fun h => ⟨h.2, h.2 ▸ h.1⟩, fun h => ⟨h.1 ▸ h.2, h.1⟩⟩

/-- A directory whose description leads to another one, which has an index file. -/
def chainedFiles : FileTree :=
  (({} : FileTree).insert "/a/package.json" "\x7b\"main\":\"../b\"\x7d").insert "/b/index.js" ""

theorem resolve_endless_iff_chained :
    (ofRoot "/node_modules").searchPath? chainedFiles "/a" "/index.js" = some "/a" ∧
      ¬ LeadsInCircle chainedFiles "/a" ∧ hop chainedFiles 1 "/a" = some "/b" ∧
      ∃ n ≤ chainedFiles.directories.ncard,
        (hop chainedFiles n "/a").isSome = true ∧ hop chainedFiles (n + 1) "/a" = none := by
  have hsearch : (ofRoot "/node_modules").searchPath? chainedFiles "/a" "/index.js" = some "/a" := by
    decide +kernel
  have hend : hop chainedFiles 2 "/a" = none := by decide +kernel
  have hcircle : ¬ LeadsInCircle chainedFiles "/a" := fun h => by
    have hsome := h.hop_isSome 2
    rw [hend] at hsome
    cases hsome
  exact ⟨hsearch, hcircle, by decide +kernel,
    ((resolve_endless_iff (ofRoot "/node_modules") chainedFiles "/a" "/index.js").2 "/a" hsearch).2
      hcircle⟩

/-- Two directories whose descriptions lead to each other. -/
def circlingFiles : FileTree :=
  (({} : FileTree).insert "/a/package.json" "\x7b\"main\":\"../b\"\x7d").insert
    "/b/package.json" "\x7b\"main\":\"../a\"\x7d"

/-- The search at one of two directories that lead to each other has no end. -/
theorem resolve_circle :
    (ofRoot "/node_modules").resolve circlingFiles "/a" "/index.js" = .error (.endless "/a") ∧
      ∀ k, (hop circlingFiles k "/a").isSome = true := by
  have hcircle : LeadsInCircle circlingFiles "/a" :=
    ⟨0, 2, "/a", Nat.le_refl 2, rfl, by decide +kernel⟩
  exact ⟨by decide +kernel, hcircle.hop_isSome⟩

end Resolver

end ModuleForge
