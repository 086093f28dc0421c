import ModuleForge.Dictionary
import Mathlib.Data.List.Sort

/-!
# Dictionaries as maps

A dictionary is the map that its entries denote: what is found under a key is what stands beside it
(`Dictionary.mem_iff_find?`), and dictionaries in which the same is found are equal
(`Dictionary.ext_find?`). A list of entries builds the map in which the last value of a key counts
(`Dictionary.find?_ofList`), and the entries of a dictionary build the dictionary itself
(`Dictionary.ofList_entries`).
-/

namespace ModuleForge

namespace Dictionary

variable {α : Type}

/-- The value that a list of entries gives to a key, where the last of several counts. -/
def lastValue? (entries : List (String × α)) (key : String) : Option α :=
  entries.reverse.lookup key

theorem mem_iff_find? (d : Dictionary α) (k : String) (v : α) :
    (k, v) ∈ d.entries ↔ d.find? k = some v := by
  obtain ⟨entries, hinc⟩ := d
  simp only [find?]
  induction entries with
  | nil => simp
  | cons e rest ih =>
    obtain ⟨hlt, hrest⟩ := List.pairwise_cons.1 hinc
    rw [List.mem_cons, List.find?_cons]
    by_cases he : e.1 = k
    · subst he
      have hnot : (e.1, v) ∉ rest := fun hmem => String.lt_irrefl _ (hlt (e.1, v) hmem)
      simp only [hnot, or_false, beq_self_eq_true, Option.map_some, Option.some.injEq]
      constructor
      · intro h
        rw [← h]
      · intro h
        rw [← h]
    · have hne : (k, v) ≠ e := fun h => he (by rw [← h])
      simp only [hne, false_or, beq_eq_false_iff_ne.2 he]
      exact ih hrest

theorem ext_entries {d e : Dictionary α} (h : d.entries = e.entries) : d = e := by
  cases d
  cases e
  exact (mk.injEq ..).mpr h

/-- Two dictionaries in which the same is found are equal. -/
theorem ext_find? {d e : Dictionary α} (h : ∀ k, d.find? k = e.find? k) : d = e := by
  have hmem : ∀ x, x ∈ d.entries ↔ x ∈ e.entries := by
    rintro ⟨k, v⟩
    rw [mem_iff_find?, mem_iff_find?, h]
  have : Std.Irrefl fun a b : String × α => a.1 < b.1 := ⟨fun a => String.lt_irrefl a.1⟩
  have : Std.Antisymm fun a b : String × α => a.1 < b.1 :=
    ⟨fun a b hab hba => absurd (String.lt_trans hab hba) (String.lt_irrefl a.1)⟩
  exact ext_entries (d.increasing.eq_of_mem_iff e.increasing hmem)

theorem find?_insertAll (d : Dictionary α) (entries : List (String × α)) (k : String) :
    (d.insertAll entries).find? k = (lastValue? entries k).or (d.find? k) := by
  induction entries generalizing d with
  | nil => rfl
  | cons e rest ih =>
    obtain ⟨key, value⟩ := e
    have hrest : (d.insertAll ((key, value) :: rest)).find? k =
        (lastValue? rest k).or ((d.insert key value).find? k) := ih (d.insert key value)
    rw [hrest, find?_insert, lastValue?, lastValue?, List.reverse_cons, List.lookup_append,
      Option.or_assoc]
    congr 1
    by_cases hk : key = k
    · simp [hk]
    · simp [hk, List.lookup_cons, beq_eq_false_iff_ne.2 (Ne.symm hk)]

theorem find?_ofList (entries : List (String × α)) (k : String) :
    (ofList entries).find? k = lastValue? entries k := by
  rw [ofList, find?_insertAll]
  cases lastValue? entries k <;> rfl

theorem mem_of_mem_ofList {entries : List (String × α)} {e : String × α}
    (h : e ∈ (ofList entries).entries) : e ∈ entries := by
  obtain ⟨k, v⟩ := e
  rw [mem_iff_find?, find?_ofList, lastValue?] at h
  obtain ⟨before, after, hsplit, -⟩ := List.lookup_eq_some_iff.1 h
  rw [← List.mem_reverse, hsplit]
  simp

theorem ofList_eq_iff {l l' : List (String × α)} :
    ofList l = ofList l' ↔ ∀ k, lastValue? l k = lastValue? l' k := by
  constructor
  · intro h k
    rw [← find?_ofList, h, find?_ofList]
  · intro h
    exact ext_find? fun k => by rw [find?_ofList, find?_ofList, h]

theorem lastValue?_entries (d : Dictionary α) (k : String) : lastValue? d.entries k = d.find? k := by
  cases h : lastValue? d.entries k with
  | none =>
    cases hk : d.find? k with
    | none => rfl
    | some v =>
      have hmem := List.mem_reverse.2 ((mem_iff_find? d k v).2 hk)
      simpa using List.lookup_eq_none_iff.1 h _ hmem
  | some v =>
    obtain ⟨before, after, hsplit, -⟩ := List.lookup_eq_some_iff.1 h
    refine ((mem_iff_find? d k v).1 ?_).symm
    rw [← List.mem_reverse, hsplit]
    simp

theorem ofList_entries (d : Dictionary α) : ofList d.entries = d :=
  ext_find? fun k => by rw [find?_ofList, lastValue?_entries]

theorem find?_map {β : Type} (f : α → β) (d : Dictionary α) (k : String) :
    (d.map f).find? k = (d.find? k).map f := by
  simp only [find?, map, List.find?_map, Option.map_map]
  rfl

/-! ## Keys -/

theorem mem_keys_iff_find? (d : Dictionary α) (k : String) :
    k ∈ d.keys ↔ ∃ v, d.find? k = some v := by
  simp only [keys, List.mem_map, Prod.exists, exists_eq_right, mem_iff_find?, exists_and_right]

theorem contains_iff_mem_keys (d : Dictionary α) (k : String) : d.contains k = true ↔ k ∈ d.keys := by
  simp [contains, keys]

theorem increasing_keys (d : Dictionary α) : d.keys.Pairwise (· < ·) :=
  List.pairwise_map.2 d.increasing

theorem nodup_keys (d : Dictionary α) : d.keys.Nodup :=
  d.increasing_keys.imp ne_of_lt

theorem mem_keys_insert (d : Dictionary α) (key : String) (value : α) (k : String) :
    k ∈ (d.insert key value).keys ↔ k = key ∨ k ∈ d.keys := by
  rw [mem_keys_iff_find?, find?_insert, mem_keys_iff_find?]
  by_cases h : key = k <;> simp [h, eq_comm]

end Dictionary

end ModuleForge
