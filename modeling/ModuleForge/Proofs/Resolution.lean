import ModuleForge.Project.Resolver
import ModuleForge.Proofs.Listing

/-!
# What specifiers mean

A specifier is a module of the environment, a package that is not there, or a path at which a search
starts (`resolve_cases`). It means a file exactly if a search finds one (`fileMeant?_eq_some_iff`), and
a search that finds something finds a file (`isFile_of_fileMeant?`).
-/

namespace ModuleForge.Resolver

variable {r : Resolver} {t : FileTree} {target path specifier source : String}

/-! ## Where a search starts -/

/-- The path of a file that a specifier asks for, as long as it is neither a module of the environment
nor in a package that is not installed. -/
def searchPath? (r : Resolver) (t : FileTree) (specifier source : String) : Option String :=
  if builtins.contains (withoutMark specifier) then none
  else if isRelative specifier then some (Path.join (Path.dirname source) specifier)
  else if specifier.toList.head? = some '/' then some (Path.normalize specifier)
  else
    let (name, path) := splitPackage specifier
    let directory := Path.join r.root name
    if t.isDirectory directory then some ((path.map (Path.join directory)).getD directory) else none

/-- **What becomes of a specifier**: a module of the environment, a search, or a package that is not
there. -/
theorem resolve_cases (r : Resolver) (t : FileTree) (specifier source : String) :
    (builtins.contains (withoutMark specifier) = true ∧
      r.searchPath? t specifier source = none ∧
      r.resolve t specifier source = .ok (.builtin (withoutMark specifier))) ∨
    (builtins.contains (withoutMark specifier) = false ∧ ∃ target,
      r.searchPath? t specifier source = some target ∧
      r.resolve t specifier source = r.resolveFile t target specifier source) ∨
    (builtins.contains (withoutMark specifier) = false ∧
      r.searchPath? t specifier source = none ∧
      t.isDirectory (Path.join r.root (splitPackage specifier).1) = false ∧
      r.resolve t specifier source = .error (.packageNotFound (splitPackage specifier).1)) := by
  unfold searchPath? resolve resolvePackage
  dsimp only
  cases builtins.contains (withoutMark specifier) with
  | true => exact .inl ⟨rfl, rfl, rfl⟩
  | false =>
    refine .inr ?_
    cases isRelative specifier with
    | true => exact .inl ⟨rfl, _, rfl, rfl⟩
    | false =>
      by_cases habsolute : specifier.toList.head? = some '/'
      · rw [if_pos habsolute, if_pos habsolute]
        exact .inl ⟨rfl, _, rfl, rfl⟩
      · rw [if_neg habsolute, if_neg habsolute]
        cases t.isDirectory (Path.join r.root (splitPackage specifier).1) with
        | true => exact .inl ⟨rfl, _, rfl, rfl⟩
        | false => exact .inr ⟨rfl, rfl, rfl, rfl⟩

theorem resolve_of_searchPath? (h : r.searchPath? t specifier source = some target) :
    r.resolve t specifier source = r.resolveFile t target specifier source := by
  obtain ⟨-, hnone, -⟩ | ⟨-, start, hsome, hresolve⟩ | ⟨-, hnone, -⟩ :=
    r.resolve_cases t specifier source
  · cases h.symm.trans hnone
  · cases h.symm.trans hsome
    exact hresolve
  · cases h.symm.trans hnone

theorem resolve_of_searchPath?_eq_none (h : r.searchPath? t specifier source = none) :
    (∃ name, r.resolve t specifier source = .ok (.builtin name)) ∨
      ∃ name, r.resolve t specifier source = .error (.packageNotFound name) := by
  obtain ⟨-, -, hresolve⟩ | ⟨-, start, hsome, -⟩ | ⟨-, -, -, hresolve⟩ :=
    r.resolve_cases t specifier source
  · exact .inl ⟨_, hresolve⟩
  · cases h.symm.trans hsome
  · exact .inr ⟨_, hresolve⟩

/-! ## Existing files -/

/-- The file that a specifier means, of the project or of a package. -/
def fileMeant? (r : Resolver) (t : FileTree) (specifier source : String) : Option String :=
  match r.resolve t specifier source with
  | .ok (.localFile path) => some path
  | .ok (.package path) => some path
  | _ => none

theorem isFile_of_fileAt? (h : fileAt? t target = some path) : t.isFile path = true :=
  List.find?_some h

theorem isFile_of_indexOf? (h : indexOf? t target = some path) : t.isFile path = true :=
  List.find?_some h

theorem isFile_of_probeWithin {redirects : Nat} (h : probeWithin t redirects target = .found path) :
    t.isFile path = true := by
  have hindex (target : String)
      (h : ((indexOf? t target).map Probe.found).getD .missing = .found path) :
      t.isFile path = true := by
    cases hi : indexOf? t target with
    | none => simp [hi] at h
    | some file =>
      simp only [hi, Option.map_some, Option.getD_some, Probe.found.injEq] at h
      exact h ▸ isFile_of_indexOf? hi
  induction redirects generalizing target with
  | zero => cases h
  | succ redirects ih =>
    rw [probeWithin] at h
    split at h
    · cases h
      exact isFile_of_fileAt? ‹_›
    · split at h
      · cases h
      · split at h
        · exact hindex _ h
        · split at h
          · cases h
            exact ih ‹_›
          · exact hindex _ h
          · cases h

theorem fileMeant?_eq_some_iff :
    r.fileMeant? t specifier source = some path ↔
      ∃ target, r.searchPath? t specifier source = some target ∧ probe t target = .found path := by
  unfold fileMeant?
  cases hsearch : r.searchPath? t specifier source with
  | none =>
    obtain ⟨name, hresolve⟩ | ⟨name, hresolve⟩ := resolve_of_searchPath?_eq_none hsearch <;>
      simp [hresolve]
  | some target =>
    rw [resolve_of_searchPath? hsearch, resolveFile]
    cases hprobe : probe t target with
    | found file => cases hpackage : r.isPackagePath file <;> simp [hprobe, hpackage]
    | missing => simp [hprobe]
    | endless => simp [hprobe]

/-- **Only existing files are found.** -/
theorem isFile_of_fileMeant? (h : r.fileMeant? t specifier source = some path) :
    t.isFile path = true := by
  obtain ⟨target, -, hprobe⟩ := fileMeant?_eq_some_iff.1 h
  exact isFile_of_probeWithin hprobe

end ModuleForge.Resolver
