import ModuleForge.Command.Run
import ModuleForge.Proofs.CanonicalPaths
import ModuleForge.Proofs.Reachability

/-!
# The files that a build writes

A build writes the modules of its report below a directory. The modules are files of the project, so
their paths are canonical (`Build.isCanonical_of_mem_outputs`), and a canonical path is followed
downwards only. So nothing changes outside of the directory, also if packages with hostile paths
were laid over the project.

- `Disk.LiesIn directory file`: the file is below the directory.
- `Disk.SameOutside`: two disks have the same files outside of a directory. A write to a canonical
  path in the directory keeps them so (`Disk.sameOutside_writeFile`), and hence all writes of a
  report do (`Command.sameOutside_writeAll`).
-/

namespace ModuleForge

namespace Path

variable {segs : List (List Char)}

theorem dropWhile_slash_ofSegments (h : ∀ seg ∈ segs, IsSegment seg) :
    (ofSegments segs).dropWhile (· == '/') = ['/'].intercalate segs := by
  rw [ofSegments, List.dropWhile_cons_of_pos (by simp)]
  cases segs with
  | nil => rfl
  | cons seg segs =>
    have hseg := h seg List.mem_cons_self
    obtain ⟨c, cs, rfl⟩ := List.exists_cons_of_ne_nil hseg.ne_nil
    have hc : (c == '/') = false := by
      rw [beq_eq_false_iff_ne]
      rintro rfl
      exact hseg.slash List.mem_cons_self
    have hhead : ∃ rest, ['/'].intercalate ((c :: cs) :: segs) = c :: rest := by
      cases segs with
      | nil => exact ⟨cs, by simp⟩
      | cons next segs => exact ⟨_, by rw [List.intercalate_cons_cons]; rfl⟩
    obtain ⟨rest, hrest⟩ := hhead
    rw [hrest, List.dropWhile_cons_of_neg (by simp [hc])]

/-- A part that makes a step; an empty one and a dot are walked over. -/
def isNamed (part : List Char) : Bool := part ≠ [] && part ≠ ['.']

theorem foldl_step_filter_isNamed (parts : List (List Char)) :
    (parts.filter isNamed).foldl step segs = parts.foldl step segs := by
  induction parts generalizing segs with
  | nil => rfl
  | cons part parts ih =>
    rw [List.filter_cons, List.foldl_cons]
    by_cases hnamed : isNamed part = true
    · rw [if_pos hnamed, List.foldl_cons, ih]
    · have hstay : step segs part = segs := by
        have hpart : part = [] ∨ part = ['.'] := by
          by_contra hpart
          rw [not_or] at hpart
          exact hnamed (by simp [isNamed, hpart.1, hpart.2])
        rw [step, if_pos (by simpa using hpart)]
      rw [if_neg hnamed, hstay, ih]

end Path

/-! ## What is written -/

namespace Build

variable {config : Config} {client : Client} {d : Description} {t : FileTree}
  {requested : Option String} {r : Report} {output : String × String}

theorem report_of_findEntry {entry : String}
    (h : findEntry t (setup config d t).resolver d requested = .ok entry) :
    report config d t requested =
      let graph := graphFrom (setup config d t) entry
      .ok { graph, order := graph.order, cycles := graph.cycles } := by
  dsimp only [report]
  rw [h]
  rfl

theorem exists_isFile_of_mem_outputs (h : report config d t requested = .ok r)
    (houtput : output ∈ r.outputs) :
    ∃ path, t.isFile path = true ∧ output.1 = String.ofList (path.toList.dropWhile (· == '/')) := by
  cases hentry : findEntry t (setup config d t).resolver d requested with
  | error e =>
    dsimp only [report] at h
    rw [hentry] at h
    cases h
  | ok entry =>
    rw [report_of_findEntry hentry] at h
    cases h
    obtain ⟨path, -, hnode⟩ := List.mem_filterMap.1 houtput
    obtain ⟨node, hfind, rfl⟩ := Option.map_eq_some_iff.1 hnode
    have hpath : path ∈ (graphFrom (setup config d t) entry).paths :=
      ((graphFrom (setup config d t) entry).modules.mem_keys_iff_find? path).2 ⟨node, hfind⟩
    obtain ⟨source, hread, -⟩ := exists_find?_graphFrom hpath
    exact ⟨path, FileTree.isFile_of_read? hread, rfl⟩

/-- Below the output directory, a file of the project keeps its path. -/
theorem isCanonical_of_mem_outputs (ht : t.IsNormal) (h : report config d t requested = .ok r)
    (houtput : output ∈ r.outputs) : Path.IsCanonical ("/" ++ output.1) := by
  obtain ⟨path, hfile, hpath⟩ := exists_isFile_of_mem_outputs h houtput
  obtain ⟨segs, hsegs, hlist⟩ := Path.isCanonical_iff.2 (ht path hfile)
  refine ⟨segs, hsegs, ?_⟩
  rw [hpath, hlist, Path.dropWhile_slash_ofSegments hsegs, String.toList_append,
    String.toList_ofList (l := ['/'].intercalate segs)]
  rfl

/-- A project that needs no packages is built from its own files, without a request. -/
theorem run_of_isEmpty (hd : describe t = some d) (hempty : d.dependencies.isEmpty = true)
    (s : Fetch.Session) :
    (run config client t requested).run s = .ok (report config d t requested) s := by
  have hfetch : client.fetch d.dependencies s = .ok none s := by
    rw [Client.fetch, if_pos hempty]
    rfl
  simp only [run, hd, EStateM.run, bind, EStateM.bind, hfetch]
  rfl

/-- A build reports about the files of the project, after a manifest was laid over them or not. -/
theorem exists_report_of_run {s s' : Fetch.Session}
    (h : (run config client t requested).run s = .ok (.ok r) s') :
    ∃ d changes, report config d (t.after changes) requested = .ok r := by
  unfold run at h
  cases hd : describe t with
  | none =>
    rw [hd] at h
    cases h
  | some d =>
    rw [hd] at h
    simp only [EStateM.run, bind, EStateM.bind] at h
    cases hfetch : client.fetch d.dependencies s with
    | error e s1 =>
      rw [hfetch] at h
      cases h
    | ok download s1 =>
      rw [hfetch] at h
      cases download with
      | none =>
        injection h with hreport
        exact ⟨d, [], hreport⟩
      | some download =>
        injection h with hreport
        exact ⟨d, [.overlay download.manifest], hreport⟩

end Build

/-! ## Where a path leads on a disk -/

namespace Disk

variable {d d' : Disk} {directory path file : String} {bytes : ByteArray}

/-- Where the parts of a path lead is decided by the parts alone; the disk decides whether they
lead anywhere. -/
theorem map_toList_of_follow {here there parts : List String}
    (h : d.follow here parts = .ok there) :
    there.map String.toList =
      (parts.map String.toList).foldl Path.step (here.map String.toList) := by
  fun_induction follow d here parts with
  | case1 here => cases h; rfl
  | case2 => cases h
  | case3 here part rest _ hstay ih =>
    have hstep : Path.step (here.map String.toList) part.toList = here.map String.toList := by
      rw [Path.step, if_pos]
      rcases Bool.or_eq_true_iff.1 hstay with hpart | hpart <;>
        simp [of_decide_eq_true hpart]
    rw [ih h, List.map_cons, List.foldl_cons, hstep]
  | case4 => cases h
  | case5 here rest _ _ _ ih =>
    rw [ih h, List.map_cons, List.foldl_cons, List.map_dropLast]
    rfl
  | case6 here part rest _ hstay hup next _ ih =>
    have hstep : Path.step (here.map String.toList) part.toList = next.map String.toList := by
      simp only [Bool.or_eq_true, decide_eq_true_eq, not_or] at hstay
      have hempty : part.toList ≠ [] := mt String.toList_eq_nil_iff.1 hstay.1
      have hdot : part.toList ≠ ['.'] := fun hpart => hstay.2 (String.toList_inj.1 hpart)
      have hdots : part.toList ≠ ['.', '.'] := fun hpart => hup (String.toList_inj.1 hpart)
      simp [Path.step, hempty, hdot, hdots, next]
    rw [ih h, List.map_cons, List.foldl_cons, hstep]
  | case7 => cases h

theorem map_toList_partsOf (path : String) :
    (partsOf path).map String.toList = Text.splitOn '/' path.toList := by
  simp [partsOf, Function.comp_def]

/-- The parts of a path that are looked at when something is put there. -/
def namedParts (path : String) : List String :=
  (partsOf path).filter fun part => part ≠ "" && part ≠ "."

theorem splitPath_eq (path : String) :
    splitPath path = ((namedParts path).dropLast, (namedParts path).getLast?.getD "") :=
  rfl

theorem map_toList_namedParts (path : String) :
    (namedParts path).map String.toList = (Text.splitOn '/' path.toList).filter Path.isNamed := by
  rw [← map_toList_partsOf, List.filter_map, namedParts]
  refine congrArg _ (List.filter_congr fun part _ => ?_)
  have hempty : part.toList = [] ↔ part = "" := String.toList_eq_nil_iff
  have hdot : part.toList = ['.'] ↔ part = "." := by
    rw [← String.toList_inj]
    rfl
  simp only [Function.comp_apply, Path.isNamed, ne_eq, hempty, hdot]

/-- The directory of a file is looked at first, then its name. -/
theorem named_inDirectory (directory name : String) :
    (Text.splitOn '/' (Command.inDirectory directory name).toList).filter Path.isNamed =
      (Text.splitOn '/' directory.toList).filter Path.isNamed ++
        (Text.splitOn '/' name.toList).filter Path.isNamed := by
  have hslash (before : List Char) : Text.splitOn '/' (before ++ ['/']) =
      Text.splitOn '/' before ++ [[]] :=
    Text.splitOn_append '/' before []
  unfold Command.inDirectory
  split
  · rename_i hplain
    rw [String.toList_append]
    rcases Bool.or_eq_true_iff.1 hplain with hempty | hend
    · rw [String.isEmpty_iff.1 hempty]
      rfl
    · obtain ⟨before, hbefore⟩ := List.isSuffixOf_iff_suffix.1 hend
      have hdirectory : directory.toList = before ++ ['/'] := hbefore.symm
      rw [hdirectory, hslash, List.append_assoc, List.singleton_append, Text.splitOn_append,
        List.filter_append, List.filter_append]
      simp [Path.isNamed]
  · rw [String.toList_append, String.toList_append, List.append_assoc]
    exact (congrArg (List.filter _) (Text.splitOn_append '/' _ _)).trans (List.filter_append ..)

/-- In a directory, a canonical path adds its segments to what is looked at. -/
theorem map_toList_namedParts_inDirectory (directory : String) {name : String}
    {names : List (List Char)} (hnames : ∀ seg ∈ names, Path.IsSegment seg) (hne : names ≠ [])
    (hname : name.toList = ['/'].intercalate names) :
    (namedParts (Command.inDirectory directory name)).map String.toList =
      (Text.splitOn '/' directory.toList).filter Path.isNamed ++ names := by
  have hall : names.filter Path.isNamed = names := by
    refine List.filter_eq_self.2 fun seg hseg => ?_
    simp [Path.isNamed, (hnames seg hseg).ne_nil, (hnames seg hseg).ne_dot]
  obtain ⟨first, more, rfl⟩ := List.exists_cons_of_ne_nil hne
  rw [map_toList_namedParts, named_inDirectory, hname,
    Path.splitOn_intercalate (hnames first List.mem_cons_self).slash fun seg hseg =>
      (hnames seg (List.mem_cons_of_mem _ hseg)).slash, hall]

theorem namesDirectory_of_slash (before : List Char) (h : path.toList = before ++ ['/']) :
    namesDirectory path = true := by
  have hparts : Text.splitOn '/' path.toList = Text.splitOn '/' before ++ [[]] := by
    rw [h]
    exact Text.splitOn_append '/' before []
  rw [namesDirectory, partsOf, hparts]
  simp

theorem namesDirectory_inDirectory (directory : String) :
    Command.inDirectory directory "" = "" ∨
      namesDirectory (Command.inDirectory directory "") = true := by
  unfold Command.inDirectory
  split
  · rename_i hplain
    rw [String.append_empty]
    rcases Bool.or_eq_true_iff.1 hplain with hempty | hend
    · exact .inl (String.isEmpty_iff.1 hempty)
    · obtain ⟨before, hbefore⟩ := List.isSuffixOf_iff_suffix.1 hend
      exact .inr (namesDirectory_of_slash before hbefore.symm)
  · right
    apply namesDirectory_of_slash directory.toList
    rw [String.append_empty, String.toList_append]
    rfl

/-! ## Writes -/

/-- The file lies below the directory: behind where the directory leads its path has names. -/
def LiesIn (directory file : String) : Prop :=
  ∃ names, names ≠ [] ∧ (∀ name ∈ names, Path.IsSegment name) ∧
    file.toList = ['/'].intercalate (Path.segments directory.toList ++ names)

theorem exists_of_writeFile (h : d.writeFile path bytes = .ok d') :
    path ≠ "" ∧ namesDirectory path = false ∧
      ∃ here, d.follow [] (namedParts path).dropLast = .ok here ∧ d'.files =
        d.files.insert (pathOf (here ++ [(namedParts path).getLast?.getD ""])) bytes := by
  unfold writeFile at h
  split at h
  · cases h
  rename_i hpath
  refine ⟨mt String.isEmpty_iff.2 hpath, ?_⟩
  cases hfollow : d.follow [] (namedParts path).dropLast with
  | error e =>
    simp only [splitPath_eq, hfollow, bind, Except.bind] at h
    cases h
  | ok here =>
    simp only [splitPath_eq, hfollow, bind, Except.bind] at h
    split at h
    · cases h
    cases hdirectory : namesDirectory path ||
      d.isDirectory (here ++ [(namedParts path).getLast?.getD ""]) with
    | true =>
      simp only [hdirectory] at h
      cases h
    | false =>
      simp only [hdirectory] at h
      cases h
      exact ⟨(Bool.or_eq_false_iff.1 hdirectory).1, here, rfl, rfl⟩

/-- **A write to a canonical path in a directory** changes a file below it. -/
theorem exists_liesIn_of_writeFile {name : String} (hname : Path.IsCanonical ("/" ++ name))
    (h : d.writeFile (Command.inDirectory directory name) bytes = .ok d') :
    ∃ file, LiesIn directory file ∧ d'.files = d.files.insert file bytes := by
  obtain ⟨names, hnames, hslash⟩ := hname
  have hlist : name.toList = ['/'].intercalate names := by
    rw [String.toList_append] at hslash
    exact List.cons_injective hslash
  obtain ⟨hpath, hdirectory, here, hfollow, hfiles⟩ := exists_of_writeFile h
  -- without names the path would mean the directory itself
  have hne : names ≠ [] := by
    rintro rfl
    have hempty : name = "" := String.toList_eq_nil_iff.1 hlist
    rw [hempty] at hpath hdirectory
    rcases namesDirectory_inDirectory directory with hnone | hnames
    · exact hpath hnone
    · rw [hdirectory] at hnames
      cases hnames
  have hparts := map_toList_namedParts_inDirectory directory hnames hne hlist
  have hhere : here.map String.toList = Path.segments directory.toList ++ names.dropLast := by
    rw [map_toList_of_follow hfollow, List.map_dropLast, hparts, List.dropLast_append_of_ne_nil hne,
      List.foldl_append, Path.foldl_step_filter_isNamed,
      Path.foldl_step_of_isSegment fun name hname => hnames name (List.mem_of_mem_dropLast hname)]
    rfl
  have hlast : [((namedParts (Command.inDirectory directory name)).getLast?.getD "").toList] =
      [names.getLast hne] := by
    have hsome := congrArg List.getLast? hparts
    rw [List.getLast?_map, List.getLast?_append_of_ne_nil _ hne,
      List.getLast?_eq_some_getLast hne] at hsome
    obtain ⟨last, hlast, hnamed⟩ := Option.map_eq_some_iff.1 hsome
    rw [hlast, ← hnamed]
    rfl
  refine ⟨_, ⟨names, hne, hnames, ?_⟩, hfiles⟩
  rw [pathOf, String.toList_intercalate, List.map_append, hhere, List.map_singleton, hlast,
    List.append_assoc, List.dropLast_append_getLast hne]
  rfl

theorem files_of_makeFrom {here parts : List String} (h : d.makeFrom here parts = .ok d') :
    d'.files = d.files := by
  fun_induction makeFrom d here parts with
  | case1 => cases h; rfl
  | case2 _ _ _ _ _ ih => exact ih h
  | case3 _ _ _ _ ih => exact ih h
  | case4 => cases h
  | case5 _ _ _ _ _ _ _ _ _ ih => exact ih h
  | case6 _ _ _ _ _ _ _ _ _ ih => exact ih h

/-- The disks have the same files outside of the directory. -/
def SameOutside (directory : String) (d d' : Disk) : Prop :=
  ∀ file, ¬ LiesIn directory file → d'.files.find? file = d.files.find? file

theorem SameOutside.refl (directory : String) (d : Disk) : SameOutside directory d d :=
  fun _ _ => rfl

theorem SameOutside.trans {d₁ d₂ d₃ : Disk} (h₁ : SameOutside directory d₁ d₂)
    (h₂ : SameOutside directory d₂ d₃) : SameOutside directory d₁ d₃ :=
  fun file hfile => (h₂ file hfile).trans (h₁ file hfile)

theorem bind_apply {α β : Type} (m : StateM Disk α) (k : α → StateM Disk β) (d : Disk) :
    (m >>= k) d = k (m d).1 (m d).2 :=
  rfl

theorem host_makeDirectory (path : String) :
    host.makeDirectory path = update (·.makeDirectory path) :=
  rfl

theorem host_writeFile (path : String) (bytes : ByteArray) :
    host.writeFile path bytes = update (·.writeFile path bytes) :=
  rfl

theorem update_of_ok (change : Disk → Except Host.Error Disk) (h : change d = .ok d') :
    update change d = (.ok (), d') := by
  simp only [update, h]

theorem update_of_error (change : Disk → Except Host.Error Disk) {e : Host.Error}
    (h : change d = .error e) : update change d = (.error e, d) := by
  simp only [update, h]

theorem sameOutside_makeDirectory (directory : String) (h : d.makeDirectory path = .ok d') :
    SameOutside directory d d' :=
  fun file _ => by rw [files_of_makeFrom h]

theorem sameOutside_writeFile {name : String} (hname : Path.IsCanonical ("/" ++ name))
    (h : d.writeFile (Command.inDirectory directory name) bytes = .ok d') :
    SameOutside directory d d' := by
  intro file hfile
  obtain ⟨written, hwritten, hfiles⟩ := exists_liesIn_of_writeFile hname h
  rw [hfiles, Dictionary.find?_insert, if_neg]
  rintro rfl
  exact hfile hwritten

end Disk

namespace Command

/-- **The files of a report change nothing outside of the output directory**, whether all of them
can be written or not. -/
theorem sameOutside_writeAll (directory : String) {outputs : List (String × String)}
    (h : ∀ output ∈ outputs, Path.IsCanonical ("/" ++ output.1)) (written : Nat) (d : Disk) :
    Disk.SameOutside directory d ((writeAll Disk.host directory outputs written).run d).2 := by
  induction outputs generalizing written d with
  | nil => exact .refl directory d
  | cons output outputs ih =>
    obtain ⟨name, code⟩ := output
    obtain ⟨hname, houtputs⟩ := List.forall_mem_cons.1 h
    have ih := ih houtputs
    rw [writeAll, StateT.run, Disk.bind_apply, Disk.host_makeDirectory]
    cases hmake : d.makeDirectory (directoryOf (inDirectory directory name)) with
    | error e =>
      rw [Disk.update_of_error (·.makeDirectory _) hmake]
      exact .refl directory d
    | ok d₁ =>
      have hmade := Disk.sameOutside_makeDirectory directory hmake
      rw [Disk.update_of_ok (·.makeDirectory _) hmake]
      dsimp only
      rw [Disk.bind_apply, Disk.host_writeFile]
      cases hwrite : d₁.writeFile (inDirectory directory name) code.toUTF8 with
      | error e =>
        rw [Disk.update_of_error (·.writeFile _ _) hwrite]
        exact hmade
      | ok d₂ =>
        rw [Disk.update_of_ok (·.writeFile _ _) hwrite]
        exact (hmade.trans (Disk.sameOutside_writeFile hname hwrite)).trans (ih (written + 1) d₂)

end Command

/-! ## Paths all the way -/

/-- **Paths are canonical, and none leads out.** A normal form is canonical, and the canonical paths
are those that are their own normal form; relative paths can be followed one after the other or at
once. So all files of a project lie at canonical paths, whatever paths it or a manifest put them at;
and what a build of it writes has a canonical path below the output directory, outside of which no
file of any disk changes. -/
theorem paths_canonical :
    (∀ path, Path.IsCanonical (Path.normalize path)) ∧
      (∀ path, Path.normalize (Path.normalize path) = Path.normalize path) ∧
      (∀ path, Path.IsCanonical path ↔ Path.normalize path = path) ∧
      (∀ base first second : String, first.toList.head? ≠ some '/' →
        second.toList.head? ≠ some '/' → first ≠ "" →
        Path.join (Path.join base first) second = Path.join base (first ++ "/" ++ second)) ∧
      (∀ listed changes path, ((FileTree.ofDirectory listed).after changes).isFile path = true →
        Path.IsCanonical path) ∧
      ∀ config client listed changes requested s r s',
        (Build.run config client ((FileTree.ofDirectory listed).after changes) requested).run s =
          .ok (.ok r) s' →
        (∀ output ∈ r.outputs, Path.IsCanonical ("/" ++ output.1)) ∧
          ∀ directory disk, Disk.SameOutside directory disk
            ((Command.writeAll Disk.host directory r.outputs 0).run disk).2 := by
  refine ⟨Path.isCanonical_normalize, Path.normalize_normalize, fun path => Path.isCanonical_iff,
    fun base first second => Path.join_join base, fun listed changes path hfile => ?_,
    fun config client listed changes requested s r s' hrun => ?_⟩
  · exact Path.isCanonical_iff.2 (FileTree.isNormal_after listed changes path hfile)
  · obtain ⟨d, more, hreport⟩ := Build.exists_report_of_run hrun
    have hnormal := (FileTree.isNormal_after listed changes).after more
    have houtputs : ∀ output ∈ r.outputs, Path.IsCanonical ("/" ++ output.1) :=
      fun output => Build.isCanonical_of_mem_outputs hnormal hreport
    exact ⟨houtputs, fun directory disk => Command.sameOutside_writeAll directory houtputs 0 disk⟩

/-- Packages whose files are said to lie outside of the project. -/
def strayPackages : Manifest :=
  { contents := Dictionary.ofList
      [("../../src//index.js", { content := "require('../../../src/./lib/a')" }),
        ("/lib/../../src/lib/a.js", { content := "" })] }

/-- They lie in it all the same, and what is built of them lies in the output directory. -/
theorem paths_canonical_stray :
    let t := (FileTree.ofDirectory []).after [.overlay strayPackages]
    let config : Config := { transpile := { dependencyRoot := "/src" } }
    Path.join (Path.join "/a" "../../b") "./../c" = Path.join "/a" ("../../b" ++ "/" ++ "./../c") ∧
      (t.isFile "/src/index.js" = true ∧ Path.IsCanonical "/src/index.js") ∧
      ∃ r, (Build.run config { network := Network.offline } t none).run {} = .ok (.ok r) {} ∧
        r.outputs.map (·.1) = ["src/lib/a.js", "src/index.js"] ∧
        (∀ output ∈ r.outputs, Path.IsCanonical ("/" ++ output.1)) ∧
        ∀ disk, Disk.SameOutside "out/x" disk
          ((Command.writeAll Disk.host "out/x" r.outputs 0).run disk).2 := by
  intro t config
  obtain ⟨-, -, -, hjoin, hfiles, hbuild⟩ := paths_canonical
  have hfile : t.isFile "/src/index.js" = true := by decide +kernel
  have hdescribe : Build.describe t = some {} := by decide +kernel
  have hentry : Build.findEntry t (Build.setup config {} t).resolver {} none =
      .ok "/src/index.js" := by
    decide +kernel
  have hrun : (Build.run config { network := Network.offline } t none).run {} = .ok (.ok _) {} :=
    (Build.run_of_isEmpty hdescribe rfl {}).trans
      (congrArg (EStateM.Result.ok · _) (Build.report_of_findEntry hentry))
  obtain ⟨houtputs, hsame⟩ := hbuild _ _ _ _ _ _ _ _ hrun
  refine ⟨hjoin "/a" "../../b" "./../c" (by decide) (by decide) (by decide),
    ⟨hfile, hfiles _ _ _ hfile⟩, _, hrun, ?_, houtputs, hsame "out/x"⟩
  decide +kernel

end ModuleForge
