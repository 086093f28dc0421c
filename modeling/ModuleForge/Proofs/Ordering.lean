import ModuleForge.Proofs.Circles

/-!
# The order of the modules

A module gets its place when all modules that it loads have theirs. While places are given, a count
is kept for every module: the number of its dependencies without a place, and of those that have one
and are not counted yet (`Graph.Consistent`). In the end the founded modules have their places, each
behind all that it loads (`Graph.mem_placedPaths`, `Graph.dependenciesFirst_placedPaths`).

The others follow in the order of their paths, whether they are on a circle or only lead to one
(`Graph.mem_leftPaths`). So a module on no circle may stand before a module that it loads: which of the
two comes first is up to their paths.
-/

namespace ModuleForge.Graph

open Relation

variable {g : Graph} {path target : String} {p : Placement}

/-! ## Edges between modules -/

/-- The modules that a module loads, each as often as it does so. -/
def edges (g : Graph) (path : String) : List String := (g.dependenciesOf path).filter g.contains

/-- How many dependencies of a module are not among the given ones. -/
def openEdges (g : Graph) (placed : List String) (path : String) : Nat :=
  (g.edges path).countP fun dependency => !placed.contains dependency

theorem mem_edges : target ∈ g.edges path ↔ g.Loads path target := List.mem_filter

theorem edges_eq_edgesOf {node : Node} (h : g.modules.find? path = some node) :
    g.edges path = g.edgesOf node := by
  simp [edges, edgesOf, dependenciesOf, find?, h]

theorem exists_find?_of_contains (h : g.contains path = true) :
    ∃ node, g.modules.find? path = some node :=
  (g.modules.mem_keys_iff_find? path).1 (contains_iff_mem_paths.1 h)

theorem openEdges_nil (g : Graph) (path : String) : g.openEdges [] path = (g.edges path).length := by
  simp [openEdges]

theorem openEdges_eq_zero_iff {placed : List String} :
    g.openEdges placed path = 0 ↔ ∀ target, g.Loads path target → target ∈ placed := by
  simp [openEdges, List.countP_eq_zero, mem_edges]

theorem openEdges_append_singleton {placed : List String} (h : target ∉ placed) (path : String) :
    g.openEdges placed path =
      g.openEdges (placed ++ [target]) path + (g.edges path).count target := by
  unfold openEdges
  induction g.edges path with
  | nil => rfl
  | cons dependency rest ih =>
    rw [List.countP_cons, List.countP_cons, List.count_cons, ih]
    by_cases heq : dependency = target
    · simp [heq, h]
      omega
    · simp [heq]
      omega

/-- A module is a dependent of another as often as it loads it. -/
theorem count_dependents (h : g.contains path = true) :
    (g.dependents target).count path = (g.edges path).count target := by
  obtain ⟨node, hnode⟩ := exists_find?_of_contains h
  obtain ⟨before, after, hsplit⟩ := List.append_of_mem ((g.modules.mem_iff_find? path node).2 hnode)
  have hkeys := g.modules.nodup_keys
  rw [Dictionary.keys, hsplit, List.map_append, List.map_cons, List.nodup_middle,
    List.nodup_cons, List.mem_append, not_or] at hkeys
  have hother (entries : List (String × Node)) (hnot : path ∉ entries.map (·.1)) :
      (entries.flatMap fun entry =>
        List.replicate ((g.edgesOf entry.2).count target) entry.1).count path = 0 := by
    refine List.count_eq_zero.2 fun hmem => hnot ?_
    obtain ⟨entry, hentry, hpath⟩ := List.mem_flatMap.1 hmem
    exact List.mem_map.2 ⟨entry, hentry, (List.eq_of_mem_replicate hpath).symm⟩
  rw [dependents, hsplit, List.flatMap_append, List.flatMap_cons, List.count_append,
    List.count_append, hother before hkeys.1.1, hother after hkeys.1.2, List.count_replicate_self,
    edges_eq_edgesOf hnode, Nat.zero_add, Nat.add_zero]

/-! ## Dependencies first -/

/-- Every path of the list stands behind all modules that it loads. -/
def DependenciesFirst (g : Graph) (paths : List String) : Prop :=
  ∀ before path after, paths = before ++ path :: after →
    ∀ target, g.Loads path target → target ∈ before

namespace DependenciesFirst

variable {paths : List String}

theorem append_singleton (h : g.DependenciesFirst paths)
    (hpath : ∀ target, g.Loads path target → target ∈ paths) :
    g.DependenciesFirst (paths ++ [path]) := by
  intro before last after hsplit
  obtain rfl | ⟨init, final, rfl⟩ := List.eq_nil_or_concat after
  · obtain ⟨rfl, hlast⟩ := List.append_inj' hsplit rfl
    cases hlast
    exact hpath
  · rw [List.concat_eq_append, ← List.cons_append, ← List.append_assoc] at hsplit
    exact h before last init (List.append_inj' hsplit rfl).1

theorem of_append {more : List String} (h : g.DependenciesFirst (paths ++ more)) :
    g.DependenciesFirst paths := by
  rintro before path after rfl
  exact h before path (after ++ more) (by simp)

theorem founded (h : g.DependenciesFirst paths) : ∀ path ∈ paths, g.Founded path := by
  induction paths using List.reverseRecOn with
  | nil => simp
  | append_singleton paths path ih =>
    have hpaths := ih h.of_append
    refine List.forall_mem_append.2 ⟨hpaths, List.forall_mem_singleton.2 ⟨_, fun target hloads => ?_⟩⟩
    exact hpaths target (h paths path [] rfl target hloads)

theorem idxOf_lt_of_loads (h : g.DependenciesFirst paths) (hnodup : paths.Nodup)
    (hloads : g.Loads path target) (hpath : path ∈ paths) :
    target ∈ paths ∧ paths.idxOf target < paths.idxOf path := by
  obtain ⟨before, after, rfl⟩ := List.append_of_mem hpath
  have htarget := h before path after rfl target hloads
  have hnot : path ∉ before := fun hmem =>
    (List.nodup_append.1 hnodup).2.2 path hmem path List.mem_cons_self rfl
  refine ⟨List.mem_append_left _ htarget, ?_⟩
  rw [List.idxOf_append_of_mem htarget, List.idxOf_append_of_notMem hnot]
  exact Nat.lt_of_lt_of_le (List.idxOf_lt_length_of_mem htarget) (Nat.le_add_right _ _)

theorem idxOf_lt_of_transGen (h : g.DependenciesFirst paths) (hnodup : paths.Nodup)
    (hreach : TransGen g.Loads path target) (hpath : path ∈ paths) :
    target ∈ paths ∧ paths.idxOf target < paths.idxOf path := by
  induction hreach with
  | single hloads => exact h.idxOf_lt_of_loads hnodup hloads hpath
  | tail _ hloads ih =>
    obtain ⟨hmem, hlt⟩ := h.idxOf_lt_of_loads hnodup hloads ih.1
    exact ⟨hmem, hlt.trans ih.2⟩

end DependenciesFirst

/-! ## One step -/

/-- **What holds while places are given.** `pending` are the modules that a dependency has got its place
for, without being told yet, each as often as there are such dependencies. -/
structure Consistent (g : Graph) (pending : List String) (p : Placement) : Prop where
  nodup : (p.placed ++ p.ready).Nodup
  contains : ∀ path ∈ p.placed ++ p.ready, g.contains path = true
  pending_contains : ∀ path ∈ pending, g.contains path = true
  missing : ∀ path, g.contains path = true →
    p.missing.find? path = some (g.openEdges p.placed path + pending.count path)
  mem_iff : ∀ path, g.contains path = true →
    (path ∈ p.placed ++ p.ready ↔ g.openEdges p.placed path + pending.count path = 0)
  first : g.DependenciesFirst p.placed

namespace Placement

/-- As `release`, but a count that would fall below zero is a failure. -/
def release? (p : Placement) (path : String) : Option Placement :=
  if p.missing.find? path = some 0 then none else some (p.release path)

theorem release_eq {count : Nat} (h : p.missing.find? path = some (count + 1)) :
    p.release path =
      { p with
        missing := p.missing.insert path count
        ready := p.ready ++ if count = 0 then [path] else [] } := by
  rw [release, h]
  dsimp only
  split
  · rename_i hzero
    obtain rfl : count = 0 := hzero
    rfl
  · rename_i hzero
    rw [if_neg (by simpa using hzero), List.append_nil]
    rfl

theorem placed_release (p : Placement) (path : String) : (p.release path).placed = p.placed := by
  unfold release
  split
  · rfl
  · dsimp only
    split <;> rfl

theorem placed_foldl_release (p : Placement) (paths : List String) :
    (paths.foldl release p).placed = p.placed := by
  induction paths generalizing p with
  | nil => rfl
  | cons path paths ih => rw [List.foldl_cons, ih, placed_release]

end Placement

namespace Consistent

variable {pending rest : List String}

/-- A module is told that a dependency got its place. That one was counted, so the count is not zero;
with the last one the module is ready. -/
theorem release (h : g.Consistent (path :: pending) p) :
    p.release? path = some (p.release path) ∧ g.Consistent pending (p.release path) := by
  have hpath : g.contains path = true := h.pending_contains path List.mem_cons_self
  obtain ⟨count, hcount⟩ : ∃ count, g.openEdges p.placed path + pending.count path = count :=
    ⟨_, rfl⟩
  have hfind : p.missing.find? path = some (count + 1) := by
    rw [h.missing path hpath, List.count_cons_self, ← Nat.add_assoc, hcount]
  have hnot : path ∉ p.placed ++ p.ready := by
    rw [h.mem_iff path hpath, List.count_cons_self]
    omega
  have hother {other : String} (hne : other ≠ path) :
      (path :: pending).count other = pending.count other := List.count_cons_of_ne (Ne.symm hne)
  have hnew (other : String) :
      other ∈ (if count = 0 then [path] else []) ↔ other = path ∧ count = 0 := by
    split <;> simp [*]
  refine ⟨by simp [Placement.release?, hfind], ?_⟩
  rw [Placement.release_eq hfind]
  refine ⟨?_, fun other hmem => ?_,
    fun other hmem => h.pending_contains other (List.mem_cons_of_mem _ hmem),
    fun other hcontains => ?_, fun other hcontains => ?_, h.first⟩
  · rw [← List.append_assoc]
    exact List.nodup_append.2 ⟨h.nodup, by split <;> simp, fun a ha b hb hab =>
      hnot (((hnew b).1 hb).1 ▸ hab ▸ ha)⟩
  · rw [← List.append_assoc, List.mem_append] at hmem
    exact hmem.elim (h.contains other) fun hmem => ((hnew other).1 hmem).1 ▸ hpath
  · dsimp only
    rw [Dictionary.find?_insert]
    split
    · rename_i heq
      rw [← heq, hcount]
    · rename_i hne
      rw [h.missing other hcontains, hother (Ne.symm hne)]
  · dsimp only
    rw [← List.append_assoc, List.mem_append, hnew]
    by_cases heq : other = path
    · subst heq
      simp only [hnot, false_or, true_and, hcount]
    · rw [h.mem_iff other hcontains, hother heq]
      simp only [heq, false_and, or_false]

theorem releaseAll (h : g.Consistent pending p) :
    pending.foldlM Placement.release? p = some (pending.foldl Placement.release p) ∧
      g.Consistent [] (pending.foldl Placement.release p) := by
  induction pending generalizing p with
  | nil => exact ⟨rfl, h⟩
  | cons path pending ih =>
    obtain ⟨hchecked, hnext⟩ := h.release
    obtain ⟨hrest, hend⟩ := ih hnext
    refine ⟨?_, hend⟩
    rw [List.foldlM_cons, hchecked]
    exact hrest

theorem take (h : g.Consistent [] p) (hready : p.ready = path :: rest) :
    g.Consistent (g.dependents path) { p with ready := rest, placed := p.placed ++ [path] } := by
  have hmem : path ∈ p.placed ++ p.ready := by simp [hready]
  have hpath : g.contains path = true := h.contains path hmem
  have hsame : (p.placed ++ [path]) ++ rest = p.placed ++ p.ready := by simp [hready]
  have hnot : path ∉ p.placed := by
    intro hplaced
    have hnodup := h.nodup
    rw [hready] at hnodup
    exact (List.nodup_append.1 hnodup).2.2 path hplaced path List.mem_cons_self rfl
  have hcount {other : String} (hother : g.contains other = true) :
      g.openEdges p.placed other + ([] : List String).count other =
        g.openEdges (p.placed ++ [path]) other + (g.dependents path).count other := by
    rw [openEdges_append_singleton hnot, count_dependents hother, List.count_nil, Nat.add_zero]
  refine ⟨hsame ▸ h.nodup, hsame ▸ h.contains, fun other hother => ?_, fun other hother => ?_,
    fun other hother => ?_, ?_⟩
  · obtain ⟨entry, hentry, hreplicate⟩ := List.mem_flatMap.1 hother
    rw [List.eq_of_mem_replicate hreplicate, contains_iff_mem_paths]
    exact List.mem_map_of_mem hentry
  · rw [h.missing other hother, hcount hother]
  · dsimp only
    rw [hsame, h.mem_iff other hother, hcount hother]
  · refine h.first.append_singleton (openEdges_eq_zero_iff.1 ?_)
    exact (h.mem_iff path hpath).1 hmem

end Consistent

/-! ## The whole run -/

/-- As `place`, but a count that would fall below zero is a failure. -/
def place? (g : Graph) : Nat → Placement → Option Placement
  | 0, p => some p
  | fuel + 1, p =>
    match p.ready with
    | [] => some p
    | path :: rest => do
      let p := { p with ready := rest, placed := p.placed ++ [path] }
      place? g fuel (← (g.dependents path).foldlM Placement.release? p)

theorem consistent_initialPlacement (g : Graph) : g.Consistent [] g.initialPlacement := by
  have hfind (path : String) : g.initialPlacement.missing.find? path =
      (g.modules.find? path).map fun node => (g.edgesOf node).length :=
    g.modules.find?_map _ path
  have hmissing (path : String) (hpath : g.contains path = true) :
      g.initialPlacement.missing.find? path = some (g.edges path).length := by
    obtain ⟨node, hnode⟩ := exists_find?_of_contains hpath
    rw [hfind, hnode, edges_eq_edgesOf hnode, Option.map_some]
  have hready (path : String) :
      path ∈ g.initialPlacement.ready ↔ g.initialPlacement.missing.find? path = some 0 := by
    rw [← Dictionary.mem_iff_find?]
    simp [initialPlacement]
  have hcontains (path : String) (hpath : path ∈ g.initialPlacement.ready) :
      g.contains path = true := by
    rw [hready, hfind] at hpath
    obtain ⟨node, hnode, -⟩ := Option.map_eq_some_iff.1 hpath
    exact contains_iff_mem_paths.2 ((g.modules.mem_keys_iff_find? path).2 ⟨node, hnode⟩)
  have hcount (path : String) : g.openEdges [] path + ([] : List String).count path =
      (g.edges path).length := by
    rw [openEdges_nil, List.count_nil, Nat.add_zero]
  refine ⟨?_, hcontains, by simp, fun path hpath => ?_, fun path hpath => ?_, ?_⟩
  · exact (List.filter_sublist.map _).nodup g.initialPlacement.missing.nodup_keys
  · exact (hmissing path hpath).trans (congrArg some (hcount path).symm)
  · refine (hready path).trans ?_
    rw [hmissing path hpath, Option.some_inj]
    exact iff_of_eq (congrArg (· = 0) (hcount path).symm)
  · intro before path after hsplit
    simp [initialPlacement] at hsplit

/-- No count ever falls below zero. -/
theorem Consistent.place (h : g.Consistent [] p) (fuel : Nat) :
    g.place? fuel p = some (g.place fuel p) ∧ g.Consistent [] (g.place fuel p) := by
  induction fuel generalizing p with
  | zero => exact ⟨rfl, h⟩
  | succ fuel ih =>
    rw [place?, Graph.place]
    cases hready : p.ready with
    | nil => exact ⟨rfl, h⟩
    | cons path rest =>
      obtain ⟨hchecked, hnext⟩ := (h.take hready).releaseAll
      dsimp only
      rw [hchecked]
      exact ih hnext

/-- There are enough steps for all modules. -/
theorem Consistent.ready_place_eq_nil {fuel : Nat} (h : g.Consistent [] p)
    (hfuel : g.modules.size ≤ p.placed.length + fuel) : (g.place fuel p).ready = [] := by
  induction fuel generalizing p with
  | zero =>
    have hle := length_le_size h.nodup h.contains
    rw [List.length_append] at hle
    exact List.eq_nil_of_length_eq_zero (show p.ready.length = 0 by omega)
  | succ fuel ih =>
    rw [Graph.place]
    split
    · assumption
    · rename_i path rest hready
      refine ih (h.take hready).releaseAll.2 ?_
      rw [Placement.placed_foldl_release, List.length_append, List.length_singleton]
      omega

/-- The modules that get their place by turns. -/
def placedPaths (g : Graph) : List String := (g.place g.modules.size g.initialPlacement).placed

/-- The modules that are left, in the order of their paths. -/
def leftPaths (g : Graph) : List String := g.paths.filter fun path => !g.placedPaths.contains path

theorem order_eq_append (g : Graph) : g.order = g.placedPaths ++ g.leftPaths := rfl

theorem ready_place_initialPlacement (g : Graph) :
    (g.place g.modules.size g.initialPlacement).ready = [] :=
  g.consistent_initialPlacement.ready_place_eq_nil (Nat.le_add_left _ _)

theorem consistent_place_initialPlacement (g : Graph) :
    g.Consistent [] (g.place g.modules.size g.initialPlacement) :=
  (g.consistent_initialPlacement.place _).2

theorem dependenciesFirst_placedPaths (g : Graph) : g.DependenciesFirst g.placedPaths :=
  g.consistent_place_initialPlacement.first

theorem nodup_placedPaths (g : Graph) : g.placedPaths.Nodup :=
  (List.nodup_append.1 g.consistent_place_initialPlacement.nodup).1

/-- **The founded modules get their place, and no others.** -/
theorem mem_placedPaths : path ∈ g.placedPaths ↔ g.contains path = true ∧ g.Founded path := by
  have hend := g.consistent_place_initialPlacement
  constructor
  · intro hpath
    exact ⟨hend.contains path (List.mem_append_left _ hpath),
      g.dependenciesFirst_placedPaths.founded path hpath⟩
  · rintro ⟨hpath, hfounded⟩
    induction hfounded with
    | intro path _ ih =>
      -- all that the module loads has a place, so nothing kept it from being ready
      have hopen : g.openEdges g.placedPaths path = 0 :=
        openEdges_eq_zero_iff.2 fun target hloads => ih target hloads hloads.2
      have hmem := (hend.mem_iff path hpath).2 hopen
      rwa [ready_place_initialPlacement, List.append_nil] at hmem

theorem mem_leftPaths : path ∈ g.leftPaths ↔ g.contains path = true ∧ ¬ g.Founded path := by
  rw [leftPaths, List.mem_filter, ← contains_iff_mem_paths, Bool.not_eq_true', List.contains_eq_mem,
    decide_eq_false_iff_not, mem_placedPaths]
  exact and_congr_right fun hpath => not_congr (and_iff_right hpath)

theorem increasing_leftPaths (g : Graph) : g.leftPaths.Pairwise (· < ·) :=
  g.modules.increasing_keys.filter _

theorem leftPaths_eq_nil_iff : g.leftPaths = [] ↔ g.cycles = [] := by
  rw [cycles_eq_nil_iff, List.eq_nil_iff_forall_not_mem]
  constructor
  · intro h path hcycle
    obtain ⟨next, hloads, -⟩ := TransGen.head'_iff.1 hcycle
    refine h path (mem_leftPaths.2 ⟨hloads.contains_left, fun hfounded => ?_⟩)
    exact hfounded.not_reachesCycle ⟨path, .refl, hcycle⟩
  · intro h path hpath
    refine (mem_leftPaths.1 hpath).2 (founded_of_not_reachesCycle ?_)
    rintro ⟨start, -, hcycle⟩
    exact h start hcycle

theorem nodup_order (g : Graph) : g.order.Nodup := by
  refine List.nodup_append.2 ⟨g.nodup_placedPaths, g.modules.nodup_keys.filter _, ?_⟩
  rintro path hplaced other hleft rfl
  exact (mem_leftPaths.1 hleft).2 (mem_placedPaths.1 hplaced).2

theorem mem_order : path ∈ g.order ↔ path ∈ g.paths := by
  rw [order_eq_append, List.mem_append, mem_placedPaths, mem_leftPaths, ← and_or_left,
    contains_iff_mem_paths]
  exact and_iff_left (Classical.em _)

/-- **The order of the modules.** Every module is listed once. First come the modules from which no
circle can be reached, each behind all modules that it loads; the others follow in the order of their
paths, and there are none exactly if no circle is found. On the way no count falls below zero. -/
theorem order_split (g : Graph) :
    ∃ first rest, g.order = first ++ rest ∧
      g.order.Nodup ∧ (∀ path, path ∈ g.order ↔ path ∈ g.paths) ∧
      (∀ path, path ∈ first ↔ path ∈ g.paths ∧ ¬ g.ReachesCycle path) ∧
      g.DependenciesFirst first ∧
      (∀ path, path ∈ rest ↔ path ∈ g.paths ∧ g.ReachesCycle path) ∧ rest.Pairwise (· < ·) ∧
      (∃ p, g.place? g.modules.size g.initialPlacement = some p ∧ p.ready = [] ∧ p.placed = first) ∧
      (rest = [] ↔ g.cycles = []) := by
  refine ⟨g.placedPaths, g.leftPaths, rfl, g.nodup_order, fun path => mem_order, fun path => ?_,
    g.dependenciesFirst_placedPaths, fun path => ?_, g.increasing_leftPaths,
    ⟨_, (g.consistent_initialPlacement.place _).1, g.ready_place_initialPlacement, rfl⟩,
    leftPaths_eq_nil_iff⟩
  · rw [mem_placedPaths, founded_iff_not_reachesCycle, contains_iff_mem_paths]
  · rw [mem_leftPaths, founded_iff_not_reachesCycle, not_not, contains_iff_mem_paths]

/-! ## Which of two modules comes first -/

theorem idxOf_lt_idxOf_iff {paths : List String} (hsorted : paths.Pairwise (· < ·))
    (hpath : path ∈ paths) (htarget : target ∈ paths) :
    paths.idxOf path < paths.idxOf target ↔ path < target := by
  have hmono {a b : String} (ha : a ∈ paths) (hb : b ∈ paths)
      (hlt : paths.idxOf a < paths.idxOf b) : a < b := by
    have h := List.pairwise_iff_getElem.1 hsorted _ _ (List.idxOf_lt_length_of_mem ha)
      (List.idxOf_lt_length_of_mem hb) hlt
    rwa [List.getElem_idxOf, List.getElem_idxOf] at h
  refine ⟨hmono hpath htarget, fun hlt => ?_⟩
  obtain h | h | h := Nat.lt_trichotomy (paths.idxOf path) (paths.idxOf target)
  · exact h
  · exact absurd ((List.idxOf_inj hpath).1 h) (Dictionary.ne_of_lt hlt)
  · exact absurd (String.lt_trans hlt (hmono htarget hpath h)) (String.lt_irrefl path)

/-- **A module stands behind what it leads to** exactly if no circle can be reached from there, or the
order of the paths happens to say the same. -/
theorem idxOf_order_lt_iff (h : TransGen g.Loads path target) :
    g.order.idxOf target < g.order.idxOf path ↔ ¬ g.ReachesCycle target ∨ target < path := by
  obtain ⟨next, hloads, -⟩ := TransGen.head'_iff.1 h
  have hpath : g.contains path = true := hloads.contains_left
  obtain ⟨last, -, hlast⟩ := TransGen.tail'_iff.1 h
  have htarget : g.contains target = true := hlast.2
  rw [order_eq_append]
  by_cases hfounded : g.Founded target
  · refine iff_of_true ?_ (.inl hfounded.not_reachesCycle)
    have hplaced := mem_placedPaths.2 ⟨htarget, hfounded⟩
    rw [List.idxOf_append_of_mem hplaced]
    by_cases hmem : path ∈ g.placedPaths
    · rw [List.idxOf_append_of_mem hmem]
      exact (g.dependenciesFirst_placedPaths.idxOf_lt_of_transGen g.nodup_placedPaths h hmem).2
    · rw [List.idxOf_append_of_notMem hmem]
      exact Nat.lt_of_lt_of_le (List.idxOf_lt_length_of_mem hplaced) (Nat.le_add_right _ _)
  · -- from the module the same circle can be reached, so both are left in the end
    have hcycle : g.ReachesCycle target := not_not.1 (mt founded_of_not_reachesCycle hfounded)
    have habove : ¬ g.Founded path := fun hpath' => by
      obtain ⟨start, hreach, hround⟩ := hcycle
      exact hpath'.not_reachesCycle ⟨start, h.to_reflTransGen.trans hreach, hround⟩
    have hnot {other : String} (hother : ¬ g.Founded other) : other ∉ g.placedPaths :=
      fun hmem => hother (mem_placedPaths.1 hmem).2
    rw [List.idxOf_append_of_notMem (hnot hfounded), List.idxOf_append_of_notMem (hnot habove),
      Nat.add_lt_add_iff_left, idxOf_lt_idxOf_iff g.increasing_leftPaths
        (mem_leftPaths.2 ⟨htarget, hfounded⟩) (mem_leftPaths.2 ⟨hpath, habove⟩)]
    exact (or_iff_right (not_not_intro hcycle)).symm

/-- Two modules that load each other, and a module before them that loads one of the two. -/
def aboveCircle : Graph :=
  [("/a.js", ["/b.js"]), ("/b.js", ["/c.js"]), ("/c.js", ["/b.js"])].foldl
    (fun g entry => g.add { path := entry.1, dependencies := entry.2 }) {}

theorem idxOf_order_lt_iff_aboveCircle :
    TransGen aboveCircle.Loads "/a.js" "/c.js" ∧ aboveCircle.ReachesCycle "/c.js" ∧
      (aboveCircle.order.idxOf "/c.js" < aboveCircle.order.idxOf "/a.js" ↔
        ¬ aboveCircle.ReachesCycle "/c.js" ∨ "/c.js" < "/a.js") := by
  have hab : aboveCircle.Loads "/a.js" "/b.js" := by decide
  have hbc : aboveCircle.Loads "/b.js" "/c.js" := by decide
  have hcb : aboveCircle.Loads "/c.js" "/b.js" := by decide
  have hreach : TransGen aboveCircle.Loads "/a.js" "/c.js" := .tail (.single hab) hbc
  exact ⟨hreach, ⟨"/c.js", .refl, .tail (.single hcb) hbc⟩, idxOf_order_lt_iff hreach⟩

/-- A module on no circle stands before a module that it loads and that does not lead back to it. -/
theorem order_aboveCircle :
    aboveCircle.Loads "/a.js" "/b.js" ∧ ¬ TransGen aboveCircle.Loads "/b.js" "/a.js" ∧
      ¬ TransGen aboveCircle.Loads "/a.js" "/a.js" ∧
      aboveCircle.order.idxOf "/a.js" < aboveCircle.order.idxOf "/b.js" := by
  have hclosed : ∀ path ∈ aboveCircle.paths, ∀ target ∈ aboveCircle.dependenciesOf path,
      target ∈ ["/b.js", "/c.js"] := by
    decide
  have hnever (path : String) (h : TransGen aboveCircle.Loads path "/a.js") : False := by
    obtain ⟨last, -, hlast⟩ := TransGen.tail'_iff.1 h
    exact absurd (hclosed last (contains_iff_mem_paths.1 hlast.contains_left) _ hlast.1) (by decide)
  exact ⟨by decide, hnever _, hnever _, by decide⟩

end ModuleForge.Graph
