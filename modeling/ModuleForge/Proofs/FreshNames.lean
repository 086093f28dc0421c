import Mathlib.Data.List.Perm.Subperm
import ModuleForge.CommonJs.Names
import ModuleForge.Statement

/-!
# New names

A base name gets underscores until it is no name that is taken. Among one more candidates than names
that are taken there is one that is free, so the search ends.

- `fresh_spec`: the name that a base name gets is the first candidate that is free.
- `run_spec`: names that were reserved or given out stay taken, whatever is called later, and a call
  that gives out a name ends with one that was not taken.
- `GivesOut`: names that are given out one after another are different from each other and from all
  names that were taken before.
-/

namespace ModuleForge.CommonJs

namespace Names

/-! ## One name -/

/-- A name with underscores behind it. -/
def padded (base : String) (k : Nat) : String :=
  String.ofList (base.toList ++ List.replicate k '_')

@[simp]
theorem toList_padded (base : String) (k : Nat) :
    (padded base k).toList = base.toList ++ List.replicate k '_' :=
  String.toList_ofList

theorem padded_zero (base : String) : padded base 0 = base := by
  simp [padded]

theorem padded_push (base : String) (k : Nat) :
    padded (base.push '_') k = padded base (k + 1) := by
  simp [padded, List.replicate_succ]

theorem padded_inj {base : String} {j k : Nat} (h : padded base j = padded base k) : j = k := by
  have := congrArg (·.toList.length) h
  simpa using this

theorem isUsed_iff {n : Names} {name : String} : n.isUsed name = true ↔ name ∈ n.used := by
  simp [isUsed]

/-- The candidates are tried in order. Only the last one is not looked up. -/
theorem freshFrom_eq (n : Names) (tries : Nat) (name : String) :
    ∃ k ≤ tries, n.freshFrom tries name = padded name k ∧
      (∀ j < k, padded name j ∈ n.used) ∧ (k < tries → padded name k ∉ n.used) := by
  induction tries generalizing name with
  | zero => exact ⟨0, Nat.le_refl _, (padded_zero name).symm, by simp, by simp⟩
  | succ tries ih =>
    rw [freshFrom]
    split
    · rename_i hused
      obtain ⟨k, hk, heq, hlt, hfree⟩ := ih (name.push '_')
      simp only [padded_push] at heq hlt hfree
      refine ⟨k + 1, Nat.succ_le_succ hk, heq, fun j hj => ?_, fun h => hfree (by omega)⟩
      cases j with
      | zero => rw [padded_zero]; exact isUsed_iff.1 hused
      | succ j => exact hlt j (by omega)
    · rename_i hfree
      refine ⟨0, Nat.zero_le _, (padded_zero name).symm, by simp, fun _ => ?_⟩
      rw [padded_zero]
      exact fun h => hfree (isUsed_iff.2 h)

theorem exists_padded_not_used (n : Names) (base : String) :
    ∃ k ≤ n.used.length, padded base k ∉ n.used := by
  by_contra h
  have hall : ∀ k ≤ n.used.length, padded base k ∈ n.used := by simpa using h
  have hnodup : ((List.range (n.used.length + 1)).map (padded base)).Nodup :=
    List.Pairwise.map _ (fun _ _ hne h => hne (padded_inj h)) List.nodup_range
  have hsub : (List.range (n.used.length + 1)).map (padded base) ⊆ n.used := by
    intro name hname
    obtain ⟨k, hk, rfl⟩ := List.mem_map.1 hname
    exact hall k (Nat.le_of_lt_succ (List.mem_range.1 hk))
  have hle := (List.subperm_of_subset hnodup hsub).length_le
  rw [List.length_map, List.length_range] at hle
  omega

/-- **The name that a base name gets** is the first candidate that is free. -/
theorem fresh_spec (n : Names) (base : String) :
    ∃ k, n.fresh base = padded base k ∧ padded base k ∉ n.used ∧
      ∀ j < k, padded base j ∈ n.used := by
  obtain ⟨k, hk, heq, hlt, hfree⟩ := freshFrom_eq n n.used.length base
  refine ⟨k, heq, ?_, hlt⟩
  rcases Nat.lt_or_eq_of_le hk with hk | rfl
  · exact hfree hk
  · -- all candidates but the last are taken, so the last one is the free one
    obtain ⟨j, hj, hfree⟩ := exists_padded_not_used n base
    rcases Nat.lt_or_eq_of_le hj with hj | rfl
    · exact absurd (hlt j hj) hfree
    · exact hfree

theorem fresh_not_used (n : Names) (base : String) : n.fresh base ∉ n.used := by
  obtain ⟨k, heq, hfree, -⟩ := n.fresh_spec base
  rwa [heq]

/-! ## Calls one after another -/

/-- The calls that change the names that are taken. -/
inductive Call where
  | reserve (name : String)
  | allocate (base : String)
  | forSpecifier (specifier : String)

/-- The base name of a call that gives out a name. -/
def Call.base? : Call → Option String
  | reserve _ => none
  | allocate base => some base
  | forSpecifier specifier => some (bindingBase specifier)

/-- The name that a call reserves or gives out, and the names that are taken then. -/
def call (n : Names) : Call → String × Names
  | .reserve name => (name, n.reserve name)
  | .allocate base => n.allocate base
  | .forSpecifier specifier => n.forSpecifier specifier

/-- The names that calls reserve or give out one after another, and the names that are taken
then. -/
def run (n : Names) : List Call → List String × Names
  | [] => ([], n)
  | c :: rest =>
    let (name, n) := n.call c
    let (names, n) := n.run rest
    (name :: names, n)

theorem call_used (n : Names) (c : Call) : (n.call c).2.used = (n.call c).1 :: n.used := by
  cases c <;> rfl

theorem call_of_base {n : Names} {c : Call} {base : String} (h : c.base? = some base) :
    (n.call c).1 = n.fresh base := by
  cases c with
  | reserve name => cases h
  | allocate b => obtain rfl := Option.some.inj h; rfl
  | forSpecifier specifier => obtain rfl := Option.some.inj h; rfl

/-- **Names that were reserved or given out stay taken.** -/
theorem run_used (n : Names) (calls : List Call) :
    (n.run calls).2.used = (n.run calls).1.reverse ++ n.used := by
  induction calls generalizing n with
  | nil => rfl
  | cons c rest ih => simp [run, ih, call_used]

/-- **The law of the names**, behind every sequence of calls: what was taken, reserved or given out
is taken, and the next name that is given out is the first candidate that is not. -/
theorem run_spec (n : Names) (calls : List Call) :
    (∀ name ∈ n.used ++ (n.run calls).1, (n.run calls).2.isUsed name = true) ∧
      ∀ c base, Call.base? c = some base → ∃ k, ((n.run calls).2.call c).1 = padded base k ∧
        (n.run calls).2.isUsed (padded base k) = false ∧
        ∀ j < k, (n.run calls).2.isUsed (padded base j) = true := by
  refine ⟨fun name hname => ?_, fun c base hbase => ?_⟩
  · rw [isUsed_iff, run_used]
    simpa [or_comm] using hname
  · obtain ⟨k, hk, hfree, hlt⟩ := (n.run calls).2.fresh_spec base
    refine ⟨k, (call_of_base hbase).trans hk, ?_, fun j hj => isUsed_iff.2 (hlt j hj)⟩
    exact Bool.eq_false_iff.2 fun h => hfree (isUsed_iff.1 h)

theorem run_append (n : Names) (xs ys : List Call) :
    n.run (xs ++ ys) =
      ((n.run xs).1 ++ ((n.run xs).2.run ys).1, ((n.run xs).2.run ys).2) := by
  induction xs generalizing n with
  | nil => rfl
  | cons c rest ih => simp [run, ih]

end Names

/-! ## Names of new bindings -/

/-- An identifier that starts as all names of new bindings do. -/
def IsBindingName (name : String) : Prop :=
  isIdentifierName name = true ∧ bindingPrefix.toList <+: name.toList

theorem IsBindingName.padded {base : String} (h : IsBindingName base) (k : Nat) :
    IsBindingName (Names.padded base k) := by
  obtain ⟨hident, hprefix⟩ := h
  refine ⟨?_, ?_⟩
  · unfold isIdentifierName at hident ⊢
    rw [Names.toList_padded]
    split at hident
    · cases hident
    · rename_i c rest hbase
      rw [hbase]
      simpa using hident
  · rw [Names.toList_padded]
    exact hprefix.trans (List.prefix_append _ _)

theorem IsBindingName.fresh {base : String} (h : IsBindingName base) (n : Names) :
    IsBindingName (n.fresh base) := by
  obtain ⟨k, hk, -⟩ := n.fresh_spec base
  rw [hk]
  exact h.padded k

/-- The names `names` are given out one after another, for base names that start as they have to. -/
def GivesOut (n : Names) (names : List String) (n' : Names) : Prop :=
  ∃ bases : List String, (∀ base ∈ bases, IsBindingName base) ∧
    n.run (bases.map .allocate) = (names, n')

namespace GivesOut

variable {n n' n'' : Names} {names names' : List String}

theorem nil (n : Names) : GivesOut n [] n :=
  ⟨[], by simp, rfl⟩

theorem single {base : String} (h : IsBindingName base) (n : Names) :
    GivesOut n [n.fresh base] (n.reserve (n.fresh base)) :=
  ⟨[base], by simpa using h, rfl⟩

theorem append (h : GivesOut n names n') (h' : GivesOut n' names' n'') :
    GivesOut n (names ++ names') n'' := by
  obtain ⟨bases, hb, hrun⟩ := h
  obtain ⟨bases', hb', hrun'⟩ := h'
  refine ⟨bases ++ bases', fun base hbase => ?_, ?_⟩
  · exact (List.mem_append.1 hbase).elim (hb base) (hb' base)
  · rw [List.map_append, Names.run_append, hrun, hrun']

/-- **Names that are given out** are different from each other and from those that were taken. -/
theorem spec (h : GivesOut n names n') :
    names.Nodup ∧ ∀ name ∈ names, IsBindingName name ∧ name ∉ n.used := by
  obtain ⟨bases, hb, hrun⟩ := h
  induction bases generalizing n names with
  | nil =>
    obtain ⟨rfl, rfl⟩ := Prod.mk.inj hrun
    simp
  | cons base bases ih =>
    obtain ⟨hbase, hb⟩ := List.forall_mem_cons.1 hb
    obtain ⟨rfl, rfl⟩ := Prod.mk.inj hrun
    -- the names behind the first are not taken when the first one is
    obtain ⟨hnodup, hspec⟩ := ih hb (n := n.reserve (n.fresh base)) rfl
    refine ⟨List.nodup_cons.2 ⟨fun hmem => ?_, hnodup⟩, List.forall_mem_cons.2 ⟨?_, ?_⟩⟩
    · exact (hspec _ hmem).2 (List.mem_cons_self ..)
    · exact ⟨hbase.fresh n, n.fresh_not_used base⟩
    · exact fun name hname =>
        ⟨(hspec name hname).1, fun hused => (hspec name hname).2 (List.mem_cons_of_mem _ hused)⟩

end GivesOut

end ModuleForge.CommonJs
