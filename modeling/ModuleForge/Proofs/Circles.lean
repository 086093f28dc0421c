import ModuleForge.Project.Graph
import ModuleForge.Proofs.Entries
import Mathlib.Data.Fintype.Card
import Mathlib.Data.List.Chain
import Mathlib.Data.List.Perm.Subperm
import Mathlib.Data.Set.Finite.List
import Mathlib.Logic.Relation

/-!
# Circles of modules

`Graph.Loads` is the relation between a module and the modules that it loads. A module is *founded*
if every chain of modules that load each other ends, wherever it goes on from the module. The graph
is finite, so these are the modules from which no circle can be reached
(`Graph.founded_iff_not_reachesCycle`).

`Graph.Explores` is the depth-first walk without any bound on its depth. The walk comes to its end
(`Graph.explores_foldl_walkNext`), all that it closes are circles (`Graph.Explores.forall_cycles`),
and no chain of modules goes on for ever without a step that closed one (`Graph.Explores.settled`).
So it closes a circle exactly if there is one (`Graph.cycles_eq_nil_iff`).
-/

namespace ModuleForge.Graph

open Relation

variable {g : Graph} {path target : String} {cycle way : List String}

/-! ## Modules that load each other -/

/-- A module loads a module. -/
def Loads (g : Graph) (path target : String) : Prop :=
  target ∈ g.dependenciesOf path ∧ g.contains target = true

instance (g : Graph) (path target : String) : Decidable (g.Loads path target) :=
  inferInstanceAs (Decidable (_ ∧ _))

/-- From the path a circle of modules can be reached. -/
def ReachesCycle (g : Graph) (path : String) : Prop :=
  ∃ start, ReflTransGen g.Loads path start ∧ TransGen g.Loads start start

/-- All chains of modules that start at the path end. -/
def Founded (g : Graph) (path : String) : Prop := Acc (Function.swap g.Loads) path

theorem contains_iff_mem_paths : g.contains path = true ↔ path ∈ g.paths :=
  g.modules.contains_iff_mem_keys path

theorem contains_of_mem_dependenciesOf (h : target ∈ g.dependenciesOf path) :
    g.contains path = true := by
  rw [contains_iff_mem_paths]
  refine (g.modules.mem_keys_iff_find? path).2 ?_
  rw [dependenciesOf, find?] at h
  cases hfind : g.modules.find? path with
  | none => simp [hfind] at h
  | some node => exact ⟨node, rfl⟩

theorem Loads.contains_left (h : g.Loads path target) : g.contains path = true :=
  contains_of_mem_dependenciesOf h.1

theorem ReachesCycle.exists_loads (h : g.ReachesCycle path) :
    ∃ next, g.Loads path next ∧ g.ReachesCycle next := by
  obtain ⟨start, hreach, hcycle⟩ := h
  obtain rfl | ⟨next, hloads, hnext⟩ := hreach.cases_head
  · obtain ⟨next, hloads, hback⟩ := TransGen.head'_iff.1 hcycle
    exact ⟨next, hloads, path, hback, hcycle⟩
  · exact ⟨next, hloads, start, hnext, hcycle⟩

theorem Founded.not_reachesCycle (h : g.Founded path) : ¬ g.ReachesCycle path := by
  induction h with
  | intro path _ ih =>
    intro hcycle
    obtain ⟨next, hloads, hnext⟩ := hcycle.exists_loads
    exact ih next hloads hnext

theorem finite_reachable (g : Graph) (path : String) :
    {target | ReflTransGen g.Loads path target}.Finite := by
  refine (List.finite_toSet (path :: g.paths)).subset fun target hreach => ?_
  obtain rfl | ⟨_, _, hloads⟩ := ReflTransGen.cases_tail hreach
  · exact List.mem_cons_self
  · exact List.mem_cons_of_mem _ (contains_iff_mem_paths.1 hloads.2)

/-- Without a circle, to be reached over at least one step is a strict order on what can be reached,
and there is no endless descent in a finite order. -/
theorem founded_of_not_reachesCycle (h : ¬ g.ReachesCycle path) : g.Founded path := by
  let reached := {target // ReflTransGen g.Loads path target}
  let below : reached → reached → Prop := fun a b => TransGen g.Loads b.1 a.1
  have : Finite reached := g.finite_reachable path
  have : IsTrans reached below := ⟨fun _ _ _ hab hbc => hbc.trans hab⟩
  have : Std.Irrefl below := ⟨fun a hcycle => h ⟨a.1, a.2, hcycle⟩⟩
  have hall (a : reached) : g.Founded a.1 := by
    induction a using (Finite.wellFounded_of_trans_of_irrefl below).induction with
    | _ a ih => exact ⟨_, fun next hloads => ih ⟨next, a.2.tail hloads⟩ (.single hloads)⟩
  exact hall ⟨path, .refl⟩

/-- **From a founded module no circle can be reached**, and from every other one a circle can. -/
theorem founded_iff_not_reachesCycle : g.Founded path ↔ ¬ g.ReachesCycle path :=
  ⟨Founded.not_reachesCycle, founded_of_not_reachesCycle⟩

/-! ## Closed circles -/

/-- What is closed leads from the one place of the path on the way back to the path. -/
theorem closedCycle?_eq_some_iff :
    closedCycle? way path = some cycle ↔
      ∃ before after, way = before ++ path :: after ∧ path ∉ before ∧
        cycle = path :: after ++ [path] := by
  constructor
  · intro h
    have hmem : path ∈ way := by
      by_contra hnot
      simp [closedCycle?, hnot] at h
    obtain ⟨before, after, rfl, hbefore⟩ := List.eq_append_cons_of_mem hmem
    refine ⟨before, after, rfl, hbefore, ?_⟩
    rw [closedCycle?, if_pos (List.contains_iff_mem.2 hmem), Option.some_inj,
      List.dropWhile_append_of_pos fun other hother => by
        simpa using ne_of_mem_of_not_mem hother hbefore,
      List.dropWhile_cons_of_neg (by simp)] at h
    exact h.symm
  · rintro ⟨before, after, rfl, hbefore, rfl⟩
    rw [closedCycle?, if_pos (by simp),
      List.dropWhile_append_of_pos fun other hother => by
        simpa using ne_of_mem_of_not_mem hother hbefore,
      List.dropWhile_cons_of_neg (by simp)]

theorem closedCycle?_eq_none_iff : closedCycle? way path = none ↔ path ∉ way := by
  simp [closedCycle?]

theorem mem_of_closedCycle? (h : closedCycle? way path = some cycle) : path ∈ way := by
  obtain ⟨before, after, rfl, -⟩ := closedCycle?_eq_some_iff.1 h
  simp

/-- A circle of modules, from one of them back to it. -/
structure IsCircle (g : Graph) (cycle : List String) : Prop where
  two_le_length : 2 ≤ cycle.length
  closed : cycle.head? = cycle.getLast?
  loads : cycle.IsChain g.Loads

/-- A step back onto the way closes a circle, which has no module twice as the way has none. -/
theorem isCircle_of_closedCycle? (hnodup : way.Nodup)
    (hway : (way ++ [path]).IsChain fun a b => b ∈ g.dependenciesOf a)
    (h : closedCycle? way path = some cycle) : g.IsCircle cycle ∧ cycle.dropLast.Nodup := by
  obtain ⟨before, after, rfl, -, rfl⟩ := closedCycle?_eq_some_iff.1 h
  rw [List.append_assoc] at hway
  have hchain := List.isChain_iff_forall_rel_of_append_cons_cons.1 hway.right_of_append
  -- on a circle everything is a module, as everything loads something
  have hmodule : ∀ other ∈ path :: after, g.contains other = true := by
    intro other hother
    obtain ⟨front, back, hsplit⟩ := List.append_of_mem hother
    obtain ⟨next, rest, hrest⟩ := List.exists_cons_of_ne_nil (List.concat_ne_nil path back)
    refine contains_of_mem_dependenciesOf (@hchain other next front rest ?_)
    rw [hsplit, List.append_assoc, List.cons_append, ← hrest]
  refine ⟨⟨by simp, ?_, List.isChain_iff_forall_rel_of_append_cons_cons.2 ?_⟩, ?_⟩
  · rw [List.getLast?_concat]
    rfl
  · intro a b front back hsplit
    refine ⟨hchain hsplit, hmodule b ?_⟩
    have hb : b ∈ path :: after ++ [path] := by simp [hsplit]
    obtain hb | hb := List.mem_append.1 hb
    · exact hb
    · exact List.mem_singleton.1 hb ▸ List.mem_cons_self
  · rw [List.dropLast_concat]
    exact (List.nodup_append.1 hnodup).2.1

theorem exists_transGen_of_isChain {r : String → String → Prop} (hlength : 2 ≤ cycle.length)
    (hclosed : cycle.head? = cycle.getLast?) (h : cycle.IsChain r) :
    ∃ path, TransGen r path path := by
  obtain ⟨first, rest, rfl⟩ := List.exists_cons_of_length_pos (Nat.lt_of_succ_lt hlength)
  obtain ⟨second, rest, rfl⟩ := List.exists_cons_of_length_pos (Nat.lt_of_succ_lt_succ hlength)
  refine ⟨first, .head' h.rel (List.relationReflTransGen_of_exists_isChain_cons rest h.tail ?_)⟩
  rw [List.head?_cons, List.getLast?_cons_cons,
    List.getLast?_eq_some_getLast (List.cons_ne_nil _ _), Option.some_inj] at hclosed
  exact hclosed.symm

theorem not_transGen_of_acc {r : String → String → Prop} (h : Acc (Function.swap r) path) :
    ¬ TransGen r path path := by
  induction h with
  | intro path _ ih =>
    intro hcycle
    obtain ⟨next, hstep, hback⟩ := TransGen.head'_iff.1 hcycle
    exact ih next hstep (.tail' hback hstep)

theorem exists_isCircle_of_transGen (h : TransGen g.Loads path path) :
    ∃ cycle, g.IsCircle cycle := by
  obtain ⟨next, hloads, hback⟩ := TransGen.head'_iff.1 h
  obtain ⟨rest, hchain, hlast⟩ := List.exists_isChain_cons_of_relationReflTransGen hback
  refine ⟨path :: next :: rest, by simp, ?_, List.isChain_cons_cons.2 ⟨hloads, hchain⟩⟩
  rw [List.head?_cons, List.getLast?_cons_cons,
    List.getLast?_eq_some_getLast (List.cons_ne_nil _ _), hlast]

/-! ## The walk -/

/-- How a walk that has come along `way` treats one dependency of the last path. -/
def walkNext (g : Graph) (fuel : Nat) (way : List String) (w : Walk) (dependency : String) : Walk :=
  match closedCycle? way dependency with
  | some cycle => { w with cycles := w.cycles ++ [cycle] }
  | none =>
    if w.visited.contains dependency then w else g.walkFrom fuel way dependency w

theorem walkFrom_succ (g : Graph) (fuel : Nat) (way : List String) (path : String) (w : Walk) :
    g.walkFrom (fuel + 1) way path w =
      (g.dependenciesOf path).foldl (g.walkNext fuel (way ++ [path]))
        { w with visited := path :: w.visited } := rfl

/-- From the start there is no way yet: all modules are treated like dependencies. -/
theorem cycles_eq_foldl_walkNext (g : Graph) :
    g.cycles = (g.paths.foldl (g.walkNext g.maxWay []) {}).cycles := rfl

/-- The walk without a bound on its depth: having come along `way`, it treats the paths `todo` one
after another. -/
inductive Explores (g : Graph) : (way todo : List String) → Walk → Walk → Prop
  | done {way : List String} {w : Walk} : Explores g way [] w w
  /-- A path on the way closes a circle. -/
  | close {way todo cycle : List String} {path : String} {w w' : Walk} :
      closedCycle? way path = some cycle →
      Explores g way todo { w with cycles := w.cycles ++ [cycle] } w' →
      Explores g way (path :: todo) w w'
  /-- A path that the walk has been to before is passed over. -/
  | pass {way todo : List String} {path : String} {w w' : Walk} :
      path ∉ way → path ∈ w.visited → Explores g way todo w w' →
      Explores g way (path :: todo) w w'
  | enter {way todo : List String} {path : String} {w w' w'' : Walk} :
      path ∉ way → path ∉ w.visited →
      Explores g (way ++ [path]) (g.dependenciesOf path) { w with visited := path :: w.visited }
        w' →
      Explores g way todo w' w'' → Explores g way (path :: todo) w w''

theorem length_le_size {paths : List String} (hnodup : paths.Nodup)
    (hpaths : ∀ path ∈ paths, g.contains path = true) : paths.length ≤ g.modules.size := by
  have hle := (List.subperm_of_subset hnodup
    fun path hpath => contains_iff_mem_paths.1 (hpaths path hpath)).length_le
  rwa [Graph.paths, Dictionary.keys, List.length_map] at hle

section

variable {way todo : List String} {w w' : Walk}

theorem nodup_append_singleton (hway : way.Nodup) (hpath : path ∉ way) : (way ++ [path]).Nodup :=
  List.nodup_append.2 ⟨hway, List.nodup_singleton path, fun _ hp _ hq hpq =>
    hpath (List.mem_singleton.1 hq ▸ hpq ▸ hp)⟩

/-- **The walk comes to its end.** It never runs out of steps, since no way has a module twice and
so none is longer than the graph has modules. -/
theorem explores_foldl_walkNext {fuel : Nat} (hfuel : g.maxWay ≤ way.length + fuel)
    (hnodup : way.Nodup) (hway : ∀ path ∈ way, g.contains path = true) :
    g.Explores way todo w (todo.foldl (g.walkNext fuel way) w) := by
  induction fuel generalizing way todo w with
  | zero =>
    have hle := length_le_size hnodup hway
    rw [maxWay] at hfuel
    omega
  | succ fuel ih =>
    have henter (path : String) (w : Walk) (hpath : path ∉ way) : g.Explores (way ++ [path])
        (g.dependenciesOf path) { w with visited := path :: w.visited }
        (g.walkFrom (fuel + 1) way path w) := by
      rw [walkFrom_succ]
      cases hdependencies : g.dependenciesOf path with
      | nil => exact .done
      | cons next rest =>
        -- the path loads something, so it is a module and the way may go on from it
        have hmodule : g.contains path = true :=
          contains_of_mem_dependenciesOf (hdependencies ▸ List.mem_cons_self)
        refine ih ?_ (nodup_append_singleton hnodup hpath)
          (List.forall_mem_append.2 ⟨hway, List.forall_mem_singleton.2 hmodule⟩)
        rw [List.length_append, List.length_singleton]
        omega
    induction todo generalizing w with
    | nil => exact .done
    | cons path todo ihtodo =>
      rw [List.foldl_cons]
      cases hclosed : closedCycle? way path with
      | some cycle =>
        rw [show g.walkNext (fuel + 1) way w path = { w with cycles := w.cycles ++ [cycle] } by
          rw [walkNext, hclosed]]
        exact .close hclosed ihtodo
      | none =>
        have hpath := closedCycle?_eq_none_iff.1 hclosed
        by_cases hvisited : path ∈ w.visited
        · rw [show g.walkNext (fuel + 1) way w path = w by
            rw [walkNext, hclosed]; exact if_pos (List.contains_iff_mem.2 hvisited)]
          exact .pass hpath hvisited ihtodo
        · rw [show g.walkNext (fuel + 1) way w path = g.walkFrom (fuel + 1) way path w by
            rw [walkNext, hclosed]; exact if_neg (mt List.contains_iff_mem.1 hvisited)]
          exact .enter hpath hvisited (henter path w hpath) ihtodo

theorem exists_explores (g : Graph) : ∃ w, g.Explores [] g.paths {} w ∧ w.cycles = g.cycles :=
  ⟨_, explores_foldl_walkNext (Nat.le_add_left _ _) List.nodup_nil (by simp),
    (cycles_eq_foldl_walkNext g).symm⟩

namespace Explores

theorem eq (h : g.Explores way todo w w') {w'' : Walk} (h' : g.Explores way todo w w'') :
    w'' = w' := by
  induction h generalizing w'' with
  | done => cases h'; rfl
  | close hclosed _ ih =>
    cases h' with
    | close hclosed' hrest =>
      obtain rfl := Option.some.inj (hclosed.symm.trans hclosed')
      exact ih hrest
    | pass hpath => exact absurd (mem_of_closedCycle? hclosed) hpath
    | enter hpath => exact absurd (mem_of_closedCycle? hclosed) hpath
  | pass hpath hvisited _ ih =>
    cases h' with
    | close hclosed => exact absurd (mem_of_closedCycle? hclosed) hpath
    | pass _ _ hrest => exact ih hrest
    | enter _ hnew => exact absurd hvisited hnew
  | enter hpath hnew _ _ ihpath ih =>
    cases h' with
    | close hclosed => exact absurd (mem_of_closedCycle? hclosed) hpath
    | pass _ hvisited => exact absurd hvisited hnew
    | enter _ _ hbelow hrest =>
      obtain rfl := ihpath hbelow
      exact ih hrest

theorem extends_walk (h : g.Explores way todo w w') :
    w.visited ⊆ w'.visited ∧ w.cycles ⊆ w'.cycles := by
  induction h with
  | done => exact ⟨List.Subset.refl _, List.Subset.refl _⟩
  | close _ _ ih => exact ⟨ih.1, List.Subset.trans (List.subset_append_left _ _) ih.2⟩
  | pass _ _ _ ih => exact ih
  | enter _ _ _ _ ihpath ih =>
    exact ⟨List.Subset.trans (List.Subset.trans (List.subset_cons_self _ _) ihpath.1) ih.1,
      List.Subset.trans ihpath.2 ih.2⟩

/-! ## What is closed is a circle -/

/-- A property of all circles that a step back onto a way closes is one of all that a walk closes.
-/
theorem forall_cycles {P : List String → Prop}
    (hclosed : ∀ way path cycle, way.Nodup →
      (way ++ [path]).IsChain (fun a b => b ∈ g.dependenciesOf a) →
      closedCycle? way path = some cycle → P cycle)
    (h : g.Explores way todo w w') (hnodup : way.Nodup)
    (hway : ∀ path ∈ todo, (way ++ [path]).IsChain fun a b => b ∈ g.dependenciesOf a)
    (hw : ∀ cycle ∈ w.cycles, P cycle) : ∀ cycle ∈ w'.cycles, P cycle := by
  induction h with
  | done => exact hw
  | close hcycle _ ih =>
    obtain ⟨hpath, htodo⟩ := List.forall_mem_cons.1 hway
    exact ih hnodup htodo (List.forall_mem_append.2
      ⟨hw, List.forall_mem_singleton.2 (hclosed _ _ _ hnodup hpath hcycle)⟩)
  | pass _ _ _ ih => exact ih hnodup (List.forall_mem_cons.1 hway).2 hw
  | @enter way todo path _ _ _ hpath _ _ _ ihpath ih =>
    obtain ⟨hchain, htodo⟩ := List.forall_mem_cons.1 hway
    refine ih hnodup htodo (ihpath (nodup_append_singleton hnodup hpath) (fun next hnext => ?_) hw)
    refine List.isChain_append.2
      ⟨hchain, List.isChain_singleton _, fun last hlast target htarget => ?_⟩
    rw [List.getLast?_append, List.getLast?_singleton, Option.some_or, Option.mem_some_iff] at hlast
    rw [List.head?_cons, Option.mem_some_iff] at htarget
    exact hlast ▸ htarget ▸ hnext

end Explores

/-! ## Steps that close no circle -/

/-- A step from one module to another is the last one of a circle in the list. -/
def Closes (cycles : List (List String)) (path target : String) : Prop :=
  ∃ cycle ∈ cycles, [path, target] <:+ cycle

/-- A module loads a module, and the step closes no circle of the list. -/
def LoadsOpen (g : Graph) (cycles : List (List String)) (path target : String) : Prop :=
  g.Loads path target ∧ ¬ Closes cycles path target

theorem suffix_of_closedCycle? (h : closedCycle? (way ++ [path]) target = some cycle) :
    [path, target] <:+ cycle := by
  obtain ⟨before, after, hway, -, rfl⟩ := closedCycle?_eq_some_iff.1 h
  have hsuffix : [path] <:+ target :: after := by
    refine List.suffix_of_suffix_length_le (List.suffix_append way [path]) ?_ (by simp)
    exact hway ▸ List.suffix_append before (target :: after)
  obtain ⟨front, hfront⟩ := hsuffix
  exact ⟨front, by rw [← hfront, List.append_assoc]; rfl⟩

theorem LoadsOpen.mono {cycles cycles' : List (List String)} (hsubset : cycles ⊆ cycles')
    (h : g.LoadsOpen cycles' path target) : g.LoadsOpen cycles path target :=
  ⟨h.1, fun ⟨cycle, hcycle, hsuffix⟩ => h.2 ⟨cycle, hsubset hcycle, hsuffix⟩⟩

/-- A walk has been to all of its way, and from what it has been to besides no chain of modules goes
on for ever, unless over a step that has closed a circle. -/
structure Settled (g : Graph) (way : List String) (w : Walk) : Prop where
  way_visited : ∀ path ∈ way, path ∈ w.visited
  ends : ∀ path ∈ w.visited, path ∉ way → Acc (Function.swap (g.LoadsOpen w.cycles)) path

theorem Settled.addCycle (h : g.Settled way w) (cycle : List String) :
    g.Settled way { w with cycles := w.cycles ++ [cycle] } :=
  ⟨h.way_visited, fun path hpath hnot => Subrelation.accessible
    (fun hloads => hloads.mono (List.subset_append_left _ _)) (h.ends path hpath hnot)⟩

theorem Settled.enter (h : g.Settled way w) :
    g.Settled (way ++ [path]) { w with visited := path :: w.visited } := by
  refine ⟨fun p hp => ?_, fun p hp hnot => ?_⟩
  · obtain hp | hp := List.mem_append.1 hp
    · exact List.mem_cons_of_mem _ (h.way_visited p hp)
    · exact List.mem_singleton.1 hp ▸ List.mem_cons_self
  · rw [List.mem_append, List.mem_singleton, not_or] at hnot
    exact h.ends p (List.mem_of_ne_of_mem hnot.2 hp) hnot.1

/-- Behind a path all steps from which are settled, the way before it is settled. -/
theorem Settled.leave (h : g.Settled (way ++ [path]) w)
    (hpath : ∀ target ∈ g.dependenciesOf path, target ∈ w.visited ∧
      (target ∈ way ++ [path] → ∃ cycle ∈ w.cycles,
        closedCycle? (way ++ [path]) target = some cycle)) : g.Settled way w := by
  have hends : Acc (Function.swap (g.LoadsOpen w.cycles)) path := by
    refine ⟨_, fun target hloads => ?_⟩
    obtain ⟨hvisited, hway⟩ := hpath target hloads.1.1
    refine h.ends target hvisited fun hmem => hloads.2 ?_
    obtain ⟨cycle, hcycle, hclosed⟩ := hway hmem
    exact ⟨cycle, hcycle, suffix_of_closedCycle? hclosed⟩
  refine ⟨fun p hp => h.way_visited p (List.mem_append_left _ hp), fun p hp hnot => ?_⟩
  by_cases heq : p = path
  · exact heq ▸ hends
  · exact h.ends p hp (by simp [hnot, heq])

/-- **A walk settles what it has been told to do**: it has been everywhere, and has closed a circle
wherever it came back onto its way. -/
theorem Explores.settled (h : g.Explores way todo w w') (hw : g.Settled way w) :
    g.Settled way w' ∧ ∀ path ∈ todo, path ∈ w'.visited ∧
      (path ∈ way → ∃ cycle ∈ w'.cycles, closedCycle? way path = some cycle) := by
  induction h with
  | done => exact ⟨hw, by simp⟩
  | close hclosed hrest ih =>
    obtain ⟨hsettled, htodo⟩ := ih (hw.addCycle _)
    obtain ⟨hvisited, hcycles⟩ := hrest.extends_walk
    refine ⟨hsettled, List.forall_mem_cons.2 ⟨⟨?_, fun _ => ⟨_, ?_, hclosed⟩⟩, htodo⟩⟩
    · exact hvisited (hw.way_visited _ (mem_of_closedCycle? hclosed))
    · exact hcycles (List.mem_append_right _ List.mem_cons_self)
  | pass hpath hvisited hrest ih =>
    obtain ⟨hsettled, htodo⟩ := ih hw
    exact ⟨hsettled, List.forall_mem_cons.2
      ⟨⟨hrest.extends_walk.1 hvisited, fun hmem => absurd hmem hpath⟩, htodo⟩⟩
  | enter hpath _ hbelow hrest ihbelow ih =>
    obtain ⟨hinside, hdependencies⟩ := ihbelow hw.enter
    obtain ⟨hsettled, htodo⟩ := ih (hinside.leave hdependencies)
    refine ⟨hsettled, List.forall_mem_cons.2 ⟨⟨?_, fun hmem => absurd hmem hpath⟩, htodo⟩⟩
    exact hrest.extends_walk.1 (hbelow.extends_walk.1 List.mem_cons_self)

end

/-! ## The circles of a graph -/

/-- Every chain of modules comes to a step that closes a reported circle, or to its end. -/
theorem acc_loadsOpen_cycles (hpath : g.contains path = true) :
    Acc (Function.swap (g.LoadsOpen g.cycles)) path := by
  obtain ⟨w, hexplores, hcycles⟩ := g.exists_explores
  obtain ⟨hsettled, hvisited⟩ := hexplores.settled ⟨by simp, by simp⟩
  exact hcycles ▸ hsettled.ends path (hvisited path (contains_iff_mem_paths.1 hpath)).1 (by simp)

theorem isCircle_of_mem_cycles : ∀ cycle ∈ g.cycles, g.IsCircle cycle ∧ cycle.dropLast.Nodup := by
  obtain ⟨w, hexplores, hcycles⟩ := g.exists_explores
  exact hcycles ▸ hexplores.forall_cycles
    (fun way path cycle hnodup hway => isCircle_of_closedCycle? hnodup hway)
    List.nodup_nil (fun path _ => List.isChain_singleton path) (by simp)

/-- Every circle goes over a step that closes a reported circle. -/
theorem IsCircle.exists_closes (h : g.IsCircle cycle) :
    ∃ path target, [path, target] <:+: cycle ∧ Closes g.cycles path target := by
  by_contra hopen
  push Not at hopen
  have hchain : cycle.IsChain (g.LoadsOpen g.cycles) :=
    List.isChain_iff_forall_rel_of_append_cons_cons.2 fun path target front back hsplit =>
      ⟨List.isChain_iff_forall_rel_of_append_cons_cons.1 h.loads hsplit,
        hopen path target ⟨front, back, by simp [hsplit]⟩⟩
  obtain ⟨path, hcycle⟩ := exists_transGen_of_isChain h.two_le_length h.closed hchain
  obtain ⟨next, hloads, -⟩ := TransGen.head'_iff.1 hcycle
  exact not_transGen_of_acc (acc_loadsOpen_cycles hloads.1.contains_left) hcycle

/-- **The walk closes a circle exactly if there is one.** -/
theorem cycles_eq_nil_iff : g.cycles = [] ↔ ∀ path, ¬ TransGen g.Loads path path := by
  constructor
  · intro h path hcycle
    obtain ⟨cycle, hcircle⟩ := exists_isCircle_of_transGen hcycle
    obtain ⟨-, -, -, reported, hreported, -⟩ := hcircle.exists_closes
    exact List.not_mem_nil (h ▸ hreported)
  · intro h
    refine List.eq_nil_iff_forall_not_mem.2 fun cycle hcycle => ?_
    have hcircle := (isCircle_of_mem_cycles cycle hcycle).1
    obtain ⟨path, htrans⟩ :=
      exists_transGen_of_isChain hcircle.two_le_length hcircle.closed hcircle.loads
    exact h path htrans

/-- **The report of the circles is sound and complete.** The walk comes to its end, in one way only.
What it reports are circles, with no module twice but the one at both ends. It reports one exactly
if there is one, and every circle goes over a step that closes a reported one. -/
theorem cycles_sound_complete (g : Graph) :
    (∃ w, (∀ w', g.Explores [] g.paths {} w' ↔ w' = w) ∧ w.cycles = g.cycles) ∧
      (∀ cycle ∈ g.cycles, g.IsCircle cycle ∧ cycle.dropLast.Nodup) ∧
      (g.cycles ≠ [] ↔ ∃ path, TransGen g.Loads path path) ∧
      ∀ cycle, g.IsCircle cycle →
        ∃ path target, [path, target] <:+: cycle ∧ Closes g.cycles path target := by
  obtain ⟨w, hexplores, hcycles⟩ := g.exists_explores
  refine ⟨⟨w, fun w' => ⟨hexplores.eq, fun h => h ▸ hexplores⟩, hcycles⟩, isCircle_of_mem_cycles,
    ?_, fun cycle => IsCircle.exists_closes⟩
  rw [ne_eq, cycles_eq_nil_iff, not_forall]
  simp only [not_not]

end ModuleForge.Graph
