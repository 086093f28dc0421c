/-!
# Dictionaries

A dictionary maps texts to values and lists them in the order of their bytes, which is the order of
the code points. Its entries are strictly increasing, so two dictionaries with the same entries are
equal.

- `find?_insert`: an insertion changes the value of its own key and no other.
- `find?_erase`: nothing is found under an erased key.
-/

namespace ModuleForge

/-- Entries with strictly increasing keys. -/
structure Dictionary (α : Type) where
  entries : List (String × α)
  increasing : entries.Pairwise fun a b => a.1 < b.1
  deriving DecidableEq

namespace Dictionary

variable {α β : Type}

/-! ## Order of keys -/

theorem lt_of_not_lt_of_ne {a b : String} (h : ¬ a < b) (hne : a ≠ b) : b < a := by
  by_cases hba : b < a
  · exact hba
  · exact absurd (String.le_antisymm (String.not_lt.1 hba) (String.not_lt.1 h)) hne

theorem ne_of_lt {a b : String} (h : a < b) : a ≠ b :=
  fun heq => String.lt_irrefl b (heq ▸ h)

/-! ## Operations on entries -/

/-- Puts an entry at its place, over one of the same key. -/
def insertEntry (key : String) (value : α) : List (String × α) → List (String × α)
  | [] => [(key, value)]
  | (k, v) :: rest =>
    if key < k then (key, value) :: (k, v) :: rest
    else if key = k then (key, value) :: rest
    else (k, v) :: insertEntry key value rest

theorem mem_insertEntry {key : String} {value : α} {entries : List (String × α)} {e : String × α}
    (h : e ∈ insertEntry key value entries) : e = (key, value) ∨ e ∈ entries := by
  induction entries with
  | nil => simpa [insertEntry] using h
  | cons kv rest ih =>
    obtain ⟨k, v⟩ := kv
    rw [insertEntry] at h
    split at h
    · simpa using h
    · split at h
      · rcases List.mem_cons.1 h with rfl | h
        · exact .inl rfl
        · exact .inr (List.mem_cons_of_mem _ h)
      · rcases List.mem_cons.1 h with rfl | h
        · exact .inr List.mem_cons_self
        · exact (ih h).imp_right (List.mem_cons_of_mem _)

theorem insertEntry_increasing (key : String) (value : α) {entries : List (String × α)}
    (h : entries.Pairwise fun a b => a.1 < b.1) :
    (insertEntry key value entries).Pairwise fun a b => a.1 < b.1 := by
  induction entries with
  | nil => exact List.pairwise_singleton _ _
  | cons kv rest ih =>
    obtain ⟨k, v⟩ := kv
    obtain ⟨hk, hrest⟩ := List.pairwise_cons.1 h
    rw [insertEntry]
    split
    · rename_i hlt
      refine List.pairwise_cons.2 ⟨fun e he => ?_, h⟩
      rcases List.mem_cons.1 he with rfl | he
      · exact hlt
      · exact String.lt_trans hlt (hk e he)
    · rename_i hlt
      split
      · rename_i heq
        exact List.pairwise_cons.2 ⟨fun e he => heq ▸ hk e he, hrest⟩
      · rename_i hne
        refine List.pairwise_cons.2 ⟨fun e he => ?_, ih hrest⟩
        rcases mem_insertEntry he with rfl | he
        · exact lt_of_not_lt_of_ne hlt hne
        · exact hk e he

/-! ## Dictionaries -/

def empty : Dictionary α := ⟨[], .nil⟩

instance : Inhabited (Dictionary α) := ⟨empty⟩

instance : EmptyCollection (Dictionary α) := ⟨empty⟩

/-- Sets the value of a key. -/
def insert (d : Dictionary α) (key : String) (value : α) : Dictionary α :=
  ⟨insertEntry key value d.entries, insertEntry_increasing key value d.increasing⟩

/-- Removes a key. -/
def erase (d : Dictionary α) (key : String) : Dictionary α :=
  ⟨d.entries.filter (·.1 != key), d.increasing.filter _⟩

/-- The value of a key. -/
def find? (d : Dictionary α) (key : String) : Option α :=
  (d.entries.find? (·.1 == key)).map (·.2)

def contains (d : Dictionary α) (key : String) : Bool := d.entries.any (·.1 == key)

def keys (d : Dictionary α) : List String := d.entries.map (·.1)

def values (d : Dictionary α) : List α := d.entries.map (·.2)

def size (d : Dictionary α) : Nat := d.entries.length

def isEmpty (d : Dictionary α) : Bool := d.entries.isEmpty

/-- Sets the values of a list of entries from left to right. -/
def insertAll (d : Dictionary α) (entries : List (String × α)) : Dictionary α :=
  entries.foldl (fun d e => d.insert e.1 e.2) d

/-- The dictionary of a list of entries; of a repeated key the last value counts. -/
def ofList (entries : List (String × α)) : Dictionary α := insertAll empty entries

/-- Changes the values. -/
def map (f : α → β) (d : Dictionary α) : Dictionary β :=
  ⟨d.entries.map fun e => (e.1, f e.2), by
    simpa [List.pairwise_map] using d.increasing⟩

/-! ## Look-up -/

theorem find?_insertEntry (key : String) (value : α) (entries : List (String × α)) (k : String) :
    ((insertEntry key value entries).find? (·.1 == k)).map (·.2) =
      if key = k then some value else (entries.find? (·.1 == k)).map (·.2) := by
  induction entries with
  | nil => by_cases h : key = k <;> simp [insertEntry, h]
  | cons kv rest ih =>
    obtain ⟨k', v⟩ := kv
    rw [insertEntry]
    split
    · by_cases h : key = k <;> simp [h]
    · split
      · rename_i heq
        subst heq
        by_cases h : key = k <;> simp [h]
      · rename_i hne
        by_cases h : k' = k
        · subst h
          simp [hne]
        · simpa [h] using ih

theorem find?_insert (d : Dictionary α) (key : String) (value : α) (k : String) :
    (d.insert key value).find? k = if key = k then some value else d.find? k :=
  find?_insertEntry key value d.entries k

theorem find?_erase (d : Dictionary α) (key : String) : (d.erase key).find? key = none := by
  simp [find?, erase]

theorem find?_erase_of_ne (d : Dictionary α) {key k : String} (h : k ≠ key) :
    (d.erase key).find? k = d.find? k := by
  simp only [find?, erase, List.find?_filter]
  congr 2
  funext e
  by_cases he : e.1 = k <;> simp [he, h]

end Dictionary

end ModuleForge
