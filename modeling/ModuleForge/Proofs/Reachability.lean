import ModuleForge.Project.Build
import ModuleForge.Proofs.Resolution
import Mathlib.Data.List.Perm.Subperm
import Mathlib.Logic.Relation
import Mathlib.Order.Bounds.Basic

/-!
# The modules of a build

A build visits its first module and then all that the visited ones lead to. `Leads` says what a module
leads to, and `Explores` is the loop of the build without any bound on its steps. The loop comes to
its end within as many steps as there are files (`explores_visitsFrom`), visits no module twice
(`Explores.nodup`), and visits what can be reached and nothing else (`Explores.closed`,
`Explores.reachable`).
-/

namespace ModuleForge

namespace Graph

variable {nodes : List Node} {g : Graph}

theorem mem_paths_foldl_add {path : String} :
    path ∈ (nodes.foldl add g).paths ↔ path ∈ nodes.map (·.path) ∨ path ∈ g.paths := by
  induction nodes generalizing g with
  | nil => simp
  | cons node nodes ih =>
    have hadd : path ∈ (g.add node).paths ↔ path = node.path ∨ path ∈ g.paths :=
      g.modules.mem_keys_insert node.path node path
    rw [List.foldl_cons, ih, hadd, List.map_cons, List.mem_cons, or_left_comm, or_assoc]

theorem find?_foldl_add_of_notMem {path : String} (h : path ∉ nodes.map (·.path)) :
    (nodes.foldl add g).find? path = g.find? path := by
  induction nodes generalizing g with
  | nil => rfl
  | cons node nodes ih =>
    rw [List.map_cons, List.mem_cons, not_or] at h
    rw [List.foldl_cons, ih h.2]
    exact (g.modules.find?_insert node.path node path).trans (if_neg (Ne.symm h.1))

/-- Modules with different paths do not get into each other's way. -/
theorem find?_foldl_add {node : Node} (hnodup : (nodes.map (·.path)).Nodup) (h : node ∈ nodes) :
    (nodes.foldl add g).find? node.path = some node := by
  induction nodes generalizing g with
  | nil => cases h
  | cons first nodes ih =>
    obtain ⟨hfirst, hnodup⟩ := List.nodup_cons.1 hnodup
    rw [List.foldl_cons]
    obtain rfl | h := List.mem_cons.1 h
    · rw [find?_foldl_add_of_notMem hfirst]
      exact (g.modules.find?_insert node.path node node.path).trans (if_pos rfl)
    · exact ih hnodup h

end Graph

namespace Build

variable {s : Setup} {path source target entry : String} {seen : List String}

/-! ## What a module leads to -/

/-- What is found out when a module is transpiled. -/
def contextOf (s : Setup) (path source : String) : Transpile.Context :=
  (s.transpiler.transpile source (.ofPath path s.options)).2

/-- **A module leads to a file**: one of its specifiers means it, or it is a module below one of the
directories that the module may load from. Data leads nowhere. -/
inductive Leads (s : Setup) (path : String) : String → Prop
  | dependency {source specifier target : String} (hread : s.files.read? path = some source)
      (hcode : Path.endsWith path ".json" = false)
      (hspecifier : specifier ∈ (contextOf s path source).dependencies)
      (htarget : s.resolver.fileMeant? s.files specifier path = some target) : Leads s path target
  | watched {source directory target : String} (hread : s.files.read? path = some source)
      (hcode : Path.endsWith path ".json" = false)
      (hdirectory : directory ∈ (contextOf s path source).directories)
      (hfile : s.files.isFile target = true)
      (hbelow : (FileTree.startOf (Path.join (Path.dirname path) directory)).toList <+:
        target.toList)
      (hmodule : isModuleFile target = true) : Leads s path target

theorem Leads.isFile (h : Leads s path target) : s.files.isFile target = true := by
  cases h with
  | dependency _ _ _ htarget => exact Resolver.isFile_of_fileMeant? htarget
  | watched _ _ _ hfile => exact hfile

theorem path_follow (node : Graph.Node) (specifier : String) :
    (follow s node specifier).path = node.path := by
  unfold follow
  split <;> rfl

theorem dependencies_follow (node : Graph.Node) (specifier : String) :
    (follow s node specifier).dependencies =
      node.dependencies ++ (s.resolver.fileMeant? s.files specifier node.path).toList := by
  unfold follow Resolver.fileMeant?
  cases s.resolver.resolve s.files specifier node.path with
  | ok meaning => cases meaning <;> simp
  | error e => simp

theorem path_foldl_follow (specifiers : List String) (node : Graph.Node) :
    (specifiers.foldl (follow s) node).path = node.path := by
  induction specifiers generalizing node with
  | nil => rfl
  | cons specifier specifiers ih => rw [List.foldl_cons, ih, path_follow]

theorem dependencies_foldl_follow (specifiers : List String) (node : Graph.Node) :
    (specifiers.foldl (follow s) node).dependencies =
      node.dependencies ++
        specifiers.filterMap (s.resolver.fileMeant? s.files · node.path) := by
  induction specifiers generalizing node with
  | nil => simp
  | cons specifier specifiers ih =>
    rw [List.foldl_cons, ih, dependencies_follow, path_follow, List.append_assoc]
    cases h : s.resolver.fileMeant? s.files specifier node.path <;> simp [h]

/-- A visit to code, in terms of the node that its specifiers are added to. -/
theorem exists_visit_eq (s : Setup) (source : String)
    (hcode : Path.endsWith path ".json" = false) :
    ∃ node : Graph.Node, node.path = path ∧ node.dependencies = [] ∧
      visit s path source =
        let c := contextOf s path source
        let node := c.dependencies.foldl (follow s) node
        let directories := c.directories.map (Path.join (Path.dirname path))
        ({ node with directories },
          node.dependencies ++
            directories.flatMap fun d => (s.files.filesIn d).filter isModuleFile) := by
  unfold visit contextOf
  rw [if_neg (by simp [hcode])]
  generalize s.transpiler.transpile source (.ofPath path s.options) = outcome
  obtain ⟨result, context⟩ := outcome
  cases result with
  | ok code =>
    refine ⟨{ path, code }, rfl, rfl, ?_⟩
    dsimp only
  | error e =>
    refine ⟨{ path, code := source, errors := [e.message] }, rfl, rfl, ?_⟩
    dsimp only

theorem visit_of_data (s : Setup) (source : String) (hdata : Path.endsWith path ".json" = true) :
    ∃ code, visit s path source = ({ path, code }, []) := by
  unfold visit
  rw [if_pos hdata]
  exact ⟨_, rfl⟩

theorem path_visit : (visit s path source).1.path = path := by
  cases hcode : Path.endsWith path ".json" with
  | true =>
    obtain ⟨code, hvisit⟩ := visit_of_data s source hcode
    rw [hvisit]
  | false =>
    obtain ⟨node, hpath, -, hvisit⟩ := exists_visit_eq s source hcode
    rw [hvisit]
    dsimp only
    rw [path_foldl_follow, hpath]

theorem dependencies_visit (hcode : Path.endsWith path ".json" = false) :
    (visit s path source).1.dependencies =
      (contextOf s path source).dependencies.filterMap
        (s.resolver.fileMeant? s.files · path) := by
  obtain ⟨node, hpath, hnone, hvisit⟩ := exists_visit_eq s source hcode
  rw [hvisit]
  dsimp only
  rw [dependencies_foldl_follow, hpath, hnone, List.nil_append]

theorem snd_visit (hcode : Path.endsWith path ".json" = false) :
    (visit s path source).2 =
      (visit s path source).1.dependencies ++
        ((contextOf s path source).directories.map (Path.join (Path.dirname path))).flatMap
          fun d => (s.files.filesIn d).filter isModuleFile := by
  obtain ⟨node, -, -, hvisit⟩ := exists_visit_eq s source hcode
  rw [hvisit]

theorem leads_of_mem_dependencies (hread : s.files.read? path = some source)
    (h : target ∈ (visit s path source).1.dependencies) : Leads s path target := by
  cases hcode : Path.endsWith path ".json" with
  | true =>
    obtain ⟨code, hvisit⟩ := visit_of_data s source hcode
    rw [hvisit] at h
    cases h
  | false =>
    rw [dependencies_visit hcode] at h
    obtain ⟨specifier, hspecifier, htarget⟩ := List.mem_filterMap.1 h
    exact .dependency hread hcode hspecifier htarget

/-- **A visit finds what the module leads to.** -/
theorem mem_snd_visit (hread : s.files.read? path = some source) :
    target ∈ (visit s path source).2 ↔ Leads s path target := by
  constructor
  · intro h
    cases hcode : Path.endsWith path ".json" with
    | true =>
      obtain ⟨code, hvisit⟩ := visit_of_data s source hcode
      rw [hvisit] at h
      cases h
    | false =>
      rw [snd_visit hcode, List.mem_append] at h
      obtain h | h := h
      · exact leads_of_mem_dependencies hread h
      · simp only [List.mem_flatMap, List.mem_map, exists_exists_and_eq_and, List.mem_filter,
          FileTree.mem_filesIn] at h
        obtain ⟨directory, hdirectory, ⟨hfile, hbelow⟩, hmodule⟩ := h
        exact .watched hread hcode hdirectory hfile hbelow hmodule
  · intro h
    cases h with
    | dependency hread' hcode hspecifier htarget =>
      cases hread.symm.trans hread'
      rw [snd_visit hcode, dependencies_visit hcode]
      exact List.mem_append_left _ (List.mem_filterMap.2 ⟨_, hspecifier, htarget⟩)
    | watched hread' hcode hdirectory hfile hbelow hmodule =>
      cases hread.symm.trans hread'
      rw [snd_visit hcode]
      refine List.mem_append_right _ (List.mem_flatMap.2 ⟨_, List.mem_map_of_mem hdirectory, ?_⟩)
      exact List.mem_filter.2 ⟨FileTree.mem_filesIn.2 ⟨hfile, hbelow⟩, hmodule⟩

/-! ## What is not known yet -/

theorem foldl_addUnknown (known items new : List String) (hnew : new.Nodup) :
    (∀ x, x ∈ items.foldl (addUnknown known) new ↔ x ∈ new ∨ x ∈ items ∧ x ∉ known) ∧
      (items.foldl (addUnknown known) new).Nodup := by
  induction items generalizing new with
  | nil => simpa using hnew
  | cons item items ih =>
    rw [List.foldl_cons, addUnknown]
    split
    · rename_i hknown
      simp only [Bool.or_eq_true, List.contains_iff_mem] at hknown
      obtain ⟨hmem, hnodup⟩ := ih new hnew
      refine ⟨fun x => (hmem x).trans ?_, hnodup⟩
      grind
    · rename_i hfresh
      simp only [Bool.or_eq_true, List.contains_iff_mem, not_or] at hfresh
      obtain ⟨hmem, hnodup⟩ := ih (new ++ [item]) (List.nodup_append.2 (by grind))
      refine ⟨fun x => (hmem x).trans ?_, hnodup⟩
      grind

theorem mem_unknown {known items : List String} {x : String} :
    x ∈ unknown known items ↔ x ∈ items ∧ x ∉ known :=
  ((foldl_addUnknown known items [] List.nodup_nil).1 x).trans (by simp)

theorem nodup_unknown (known items : List String) : (unknown known items).Nodup :=
  (foldl_addUnknown known items [] List.nodup_nil).2

/-! ## The loop -/

/-- **The loop of a build**: it takes the first path of the queue, until none is left. -/
inductive Explores (s : Setup) : (queue seen : List String) → List Graph.Node → Prop
  | done {seen : List String} : Explores s [] seen []
  | skip {path : String} {queue seen : List String} {nodes : List Graph.Node}
      (hread : s.files.read? path = none) (h : Explores s queue seen nodes) :
      Explores s (path :: queue) seen nodes
  | visit {path source : String} {queue seen : List String} {nodes : List Graph.Node}
      (hread : s.files.read? path = some source)
      (h : Explores s (queue ++ unknown seen (visit s path source).2)
        (seen ++ unknown seen (visit s path source).2) nodes) :
      Explores s (path :: queue) seen ((visit s path source).1 :: nodes)

/-- The files that have not been seen yet. -/
def unseen (s : Setup) (seen : List String) : List String :=
  s.files.files.keys.filter fun path => !seen.contains path

theorem mem_unseen : path ∈ unseen s seen ↔ s.files.isFile path = true ∧ path ∉ seen := by
  simp [unseen, FileTree.isFile_iff]

theorem nodup_unseen (seen : List String) : (unseen s seen).Nodup :=
  s.files.files.nodup_keys.filter _

theorem length_unseen_append {new : List String} (hnodup : new.Nodup)
    (hnew : ∀ path ∈ new, s.files.isFile path = true ∧ path ∉ seen) :
    new.length + (unseen s (seen ++ new)).length ≤ (unseen s seen).length := by
  rw [← List.length_append]
  refine (List.subperm_of_subset ?_ ?_).length_le
  · refine List.nodup_append.2 ⟨hnodup, nodup_unseen _, fun a ha b hb hab => ?_⟩
    exact (mem_unseen.1 hb).2 (List.mem_append_right _ (hab ▸ ha))
  · intro path hpath
    obtain hpath | hpath := List.mem_append.1 hpath
    · exact mem_unseen.2 (hnew path hpath)
    · obtain ⟨hfile, hseen⟩ := mem_unseen.1 hpath
      exact mem_unseen.2 ⟨hfile, fun h => hseen (List.mem_append_left _ h)⟩

/-- As many steps as there are paths in the queue and files that have not been seen are enough. -/
theorem explores_visits {fuel : Nat} {queue : List String}
    (hfuel : queue.length + (unseen s seen).length ≤ fuel) :
    Explores s queue seen (visits s fuel queue seen) := by
  induction fuel generalizing queue seen with
  | zero =>
    obtain rfl : queue = [] := List.eq_nil_of_length_eq_zero (by omega)
    exact .done
  | succ fuel ih =>
    cases queue with
    | nil => exact .done
    | cons path queue =>
      rw [List.length_cons] at hfuel
      rw [visits]
      split
      · exact .skip ‹_› (ih (by omega))
      · rename_i source hread
        dsimp only
        refine .visit hread (ih ?_)
        have hless := length_unseen_append (s := s) (nodup_unknown seen (visit s path source).2)
          fun target htarget =>
            have h := mem_unknown.1 htarget
            ⟨((mem_snd_visit hread).1 h.1).isFile, h.2⟩
        rw [List.length_append]
        omega

theorem explores_visitsFrom (s : Setup) (entry : String) :
    Explores s [entry] [entry] (visitsFrom s entry) := by
  refine explores_visits ?_
  have hle : (unseen s [entry]).length ≤ s.files.files.keys.length := List.length_filter_le _ _
  have hsize : s.files.files.keys.length = s.files.size := List.length_map _
  rw [List.length_singleton]
  omega

namespace Explores

variable {queue seen : List String} {nodes : List Graph.Node}

theorem exists_visit (h : Explores s queue seen nodes) :
    ∀ node ∈ nodes, ∃ source, s.files.read? node.path = some source ∧
      node = (Build.visit s node.path source).1 := by
  induction h with
  | done => simp
  | skip _ _ ih => exact ih
  | @visit path source _ _ _ hread _ ih =>
    refine List.forall_mem_cons.2 ⟨⟨source, ?_⟩, ih⟩
    rw [path_visit]
    exact ⟨hread, rfl⟩

theorem visited (h : Explores s queue seen nodes) (hqueue : path ∈ queue)
    (hfile : s.files.isFile path = true) : path ∈ nodes.map (·.path) := by
  induction h with
  | done => cases hqueue
  | @skip first _ _ _ hread _ ih =>
    obtain rfl | hqueue := List.mem_cons.1 hqueue
    · obtain ⟨text, htext⟩ := FileTree.exists_read?_of_isFile hfile
      rw [hread] at htext
      cases htext
    · exact ih hqueue
  | visit _ _ ih =>
    rw [List.map_cons, path_visit]
    obtain rfl | hqueue := List.mem_cons.1 hqueue
    · exact List.mem_cons_self
    · exact List.mem_cons_of_mem _ (ih (List.mem_append_left _ hqueue))

/-- What is visited was waiting in the queue, or had not been seen; and nothing is visited twice. -/
theorem nodup (h : Explores s queue seen nodes) (hqueue : queue.Nodup)
    (hseen : ∀ path ∈ queue, path ∈ seen) :
    (nodes.map (·.path)).Nodup ∧ ∀ path ∈ nodes.map (·.path), path ∈ queue ∨ path ∉ seen := by
  induction h with
  | done => simp
  | skip _ _ ih =>
    obtain ⟨hnodup, hfresh⟩ := ih (List.nodup_cons.1 hqueue).2 fun path hpath =>
      hseen path (List.mem_cons_of_mem _ hpath)
    exact ⟨hnodup, fun path hpath => (hfresh path hpath).imp_left (List.mem_cons_of_mem _)⟩
  | @visit path source queue seen nodes hread _ ih =>
    obtain ⟨hfirst, hqueue⟩ := List.nodup_cons.1 hqueue
    obtain ⟨hpath, hseen⟩ := List.forall_mem_cons.1 hseen
    have hnew (x : String) (hx : x ∈ unknown seen (Build.visit s path source).2) : x ∉ seen :=
      (mem_unknown.1 hx).2
    obtain ⟨hnodup, hfresh⟩ := ih
      (List.nodup_append.2 ⟨hqueue, nodup_unknown _ _, fun a ha b hb hab =>
        hnew b hb (hab ▸ hseen a ha)⟩)
      fun x hx => (List.mem_append.1 hx).elim (fun hx => List.mem_append_left _ (hseen x hx))
        (List.mem_append_right _)
    rw [List.map_cons, path_visit]
    refine ⟨List.nodup_cons.2 ⟨fun hagain => ?_, hnodup⟩, List.forall_mem_cons.2
      ⟨.inl List.mem_cons_self, fun x hx => ?_⟩⟩
    · obtain hx | hx := hfresh path hagain
      · exact (List.mem_append.1 hx).elim hfirst fun hx => hnew path hx hpath
      · exact hx (List.mem_append_left _ hpath)
    · obtain hx | hx := hfresh x hx
      · exact (List.mem_append.1 hx).imp (List.mem_cons_of_mem _) (hnew x)
      · exact .inr fun h => hx (List.mem_append_left _ h)

theorem closed (h : Explores s queue seen nodes) (hpath : path ∈ nodes.map (·.path))
    (hleads : Leads s path target) : target ∈ seen ∨ target ∈ nodes.map (·.path) := by
  induction h with
  | done => cases hpath
  | skip _ _ ih => exact ih hpath
  | @visit first source queue seen nodes hread hrest ih =>
    have hseen : target ∈ seen ++ unknown seen (Build.visit s first source).2 ∨
        target ∈ nodes.map (·.path) := by
      rw [List.map_cons, path_visit] at hpath
      obtain rfl | hpath := List.mem_cons.1 hpath
      · by_cases hknown : target ∈ seen
        · exact .inl (List.mem_append_left _ hknown)
        · exact .inl (List.mem_append_right _
            (mem_unknown.2 ⟨(mem_snd_visit hread).2 hleads, hknown⟩))
      · exact ih hpath
    rw [List.map_cons, List.mem_cons]
    obtain hseen | hvisited := hseen
    · refine (List.mem_append.1 hseen).imp_right fun hnew => .inr ?_
      exact hrest.visited (List.mem_append_right _ hnew) hleads.isFile
    · exact .inr (.inr hvisited)

theorem reachable (h : Explores s queue seen nodes) (hpath : path ∈ nodes.map (·.path)) :
    ∃ start ∈ queue, Relation.ReflTransGen (Leads s) start path := by
  induction h with
  | done => cases hpath
  | skip _ _ ih =>
    obtain ⟨start, hstart, hreach⟩ := ih hpath
    exact ⟨start, List.mem_cons_of_mem _ hstart, hreach⟩
  | @visit first source queue seen nodes hread _ ih =>
    rw [List.map_cons, path_visit] at hpath
    obtain rfl | hpath := List.mem_cons.1 hpath
    · exact ⟨path, List.mem_cons_self, .refl⟩
    · obtain ⟨start, hstart, hreach⟩ := ih hpath
      obtain hstart | hstart := List.mem_append.1 hstart
      · exact ⟨start, List.mem_cons_of_mem _ hstart, hreach⟩
      · have hleads := (mem_snd_visit hread).1 (mem_unknown.1 hstart).1
        exact ⟨first, List.mem_cons_self, .head hleads hreach⟩

end Explores

/-! ## The graph -/

theorem mem_paths_graphFrom :
    path ∈ (graphFrom s entry).paths ↔ path ∈ (visitsFrom s entry).map (·.path) := by
  rw [graphFrom, Graph.mem_paths_foldl_add]
  exact or_iff_left List.not_mem_nil

theorem nodup_visitsFrom (s : Setup) (entry : String) :
    ((visitsFrom s entry).map (·.path)).Nodup :=
  ((explores_visitsFrom s entry).nodup (List.nodup_singleton entry) fun _ h => h).1

theorem exists_find?_graphFrom (h : path ∈ (graphFrom s entry).paths) :
    ∃ source, s.files.read? path = some source ∧
      (graphFrom s entry).find? path = some (visit s path source).1 := by
  obtain ⟨node, hnode, rfl⟩ := List.mem_map.1 (mem_paths_graphFrom.1 h)
  obtain ⟨source, hread, hvisit⟩ := (explores_visitsFrom s entry).exists_visit node hnode
  exact ⟨source, hread, hvisit ▸ Graph.find?_foldl_add (nodup_visitsFrom s entry) hnode⟩

theorem mem_paths_of_leads (hentry : s.files.isFile entry = true)
    (hpath : path ∈ (graphFrom s entry).paths) (hleads : Leads s path target) :
    target ∈ (graphFrom s entry).paths := by
  have hexplores := explores_visitsFrom s entry
  rw [mem_paths_graphFrom] at hpath ⊢
  obtain htarget | htarget := hexplores.closed hpath hleads
  · exact hexplores.visited htarget (List.mem_singleton.1 htarget ▸ hentry)
  · exact htarget

/-- **The graph of a build is what can be reached.** From a file as its first module, the loop of the
build comes to its end. The paths of the graph are the least set that has the first module and all
that its members lead to; the build visits each of them exactly once, and its node is what this visit
yields; and the dependencies of every node are modules of the graph. -/
theorem graphFrom_closure (s : Setup) {entry : String} (hentry : s.files.isFile entry = true) :
    Explores s [entry] [entry] (visitsFrom s entry) ∧
      IsLeast {S : Set String | entry ∈ S ∧ ∀ path ∈ S, ∀ target, Leads s path target → target ∈ S}
        {path | path ∈ (graphFrom s entry).paths} ∧
      ((visitsFrom s entry).map (·.path)).Perm (graphFrom s entry).paths ∧
      (∀ path ∈ (graphFrom s entry).paths, ∃ source, s.files.read? path = some source ∧
        (graphFrom s entry).find? path = some (visit s path source).1) ∧
      ∀ node ∈ (graphFrom s entry).modules.values, ∀ dependency ∈ node.dependencies,
        dependency ∈ (graphFrom s entry).paths := by
  have hexplores := explores_visitsFrom s entry
  refine ⟨hexplores, ⟨⟨?_, fun path hpath target => mem_paths_of_leads hentry hpath⟩, ?_⟩, ?_,
    fun path => exists_find?_graphFrom, ?_⟩
  · exact mem_paths_graphFrom.2 (hexplores.visited List.mem_cons_self hentry)
  · -- the least: whatever is visited has been reached from the first module
    rintro S ⟨hfirst, hclosed⟩ path hpath
    obtain ⟨start, hstart, hreach⟩ := hexplores.reachable (mem_paths_graphFrom.1 hpath)
    obtain rfl := List.mem_singleton.1 hstart
    clear hpath
    induction hreach with
    | refl => exact hfirst
    | tail _ hleads ih => exact hclosed _ ih _ hleads
  · exact (List.perm_ext_iff_of_nodup (nodup_visitsFrom s entry)
      (graphFrom s entry).modules.nodup_keys).2 fun path => mem_paths_graphFrom.symm
  · intro node hnode dependency hdependency
    obtain ⟨⟨path, node⟩, hmem, rfl⟩ := List.mem_map.1 hnode
    have hfind := ((graphFrom s entry).modules.mem_iff_find? path node).1 hmem
    have hpath : path ∈ (graphFrom s entry).paths :=
      ((graphFrom s entry).modules.mem_keys_iff_find? path).2 ⟨node, hfind⟩
    obtain ⟨source, hread, hvisit⟩ := exists_find?_graphFrom hpath
    cases hfind.symm.trans hvisit
    exact mem_paths_of_leads hentry hpath (leads_of_mem_dependencies hread hdependency)

/-- Modules that load each other, with a directory to load from and a file that nobody loads. -/
def circularPackage : Setup :=
  setup { transpile := { dependencyRoot := "/n" } } {} <| [("/n/p/a.js", "require('./b')"),
    ("/n/p/b.js", "require('p/a');require(`./m/$\x7bx\x7d`)"),
    ("/n/p/m/c.json", "1"), ("/n/p/m/d.txt", "")].foldl
      (fun files file => files.insert file.1 file.2) {}

theorem graphFrom_closure_circular :
    circularPackage.files.isFile "/n/p/a.js" = true ∧
      IsLeast {S : Set String | "/n/p/a.js" ∈ S ∧
          ∀ path ∈ S, ∀ target, Leads circularPackage path target → target ∈ S}
        {path | path ∈ ["/n/p/a.js", "/n/p/b.js", "/n/p/m/c.json"]} ∧
      ((visitsFrom circularPackage "/n/p/a.js").map (·.path)).Perm
        ["/n/p/a.js", "/n/p/b.js", "/n/p/m/c.json"] := by
  have hentry : circularPackage.files.isFile "/n/p/a.js" = true := by decide +kernel
  have hpaths : (graphFrom circularPackage "/n/p/a.js").paths =
      ["/n/p/a.js", "/n/p/b.js", "/n/p/m/c.json"] := by
    decide +kernel
  obtain ⟨-, hleast, hvisits, -⟩ := graphFrom_closure circularPackage hentry
  rw [hpaths] at hleast hvisits
  exact ⟨hentry, hleast, hvisits⟩

end Build

end ModuleForge
