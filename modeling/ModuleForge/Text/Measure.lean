/-!
# Byte lengths and slices

Offsets into a text count the bytes of its UTF-8 encoding. A slice exists only between two character
boundaries inside the text.

- `splitBytes?_eq_some_iff`: a split at an offset exists exactly when the offset is a boundary.
- `slice?_append`: the part between two boundaries is what stands there.
-/

namespace ModuleForge.Text

/-- The number of bytes of the UTF-8 encoding. -/
def byteLength : List Char → Nat
  | [] => 0
  | c :: cs => c.utf8Size + byteLength cs

@[simp]
theorem byteLength_nil : byteLength [] = 0 := rfl

@[simp]
theorem byteLength_cons (c : Char) (cs : List Char) :
    byteLength (c :: cs) = c.utf8Size + byteLength cs := rfl

@[simp]
theorem byteLength_append (xs ys : List Char) :
    byteLength (xs ++ ys) = byteLength xs + byteLength ys := by
  induction xs with
  | nil => simp
  | cons c cs ih => simp [ih, Nat.add_assoc]

/-- Splits a text at a byte offset; `none` past the end or inside a character. -/
def splitBytes? : Nat → List Char → Option (List Char × List Char)
  | 0, cs => some ([], cs)
  | _ + 1, [] => none
  | n + 1, c :: cs =>
    if c.utf8Size ≤ n + 1 then
      (splitBytes? (n + 1 - c.utf8Size) cs).map fun (taken, rest) => (c :: taken, rest)
    else none

theorem splitBytes?_byteLength (xs ys : List Char) :
    splitBytes? (byteLength xs) (xs ++ ys) = some (xs, ys) := by
  induction xs with
  | nil => simp [splitBytes?]
  | cons c cs ih =>
    have hpos := c.utf8Size_pos
    obtain ⟨n, hn⟩ : ∃ n, byteLength (c :: cs) = n + 1 := ⟨byteLength (c :: cs) - 1, by simp; omega⟩
    have hle : c.utf8Size ≤ n + 1 := by rw [← hn]; simp
    have hsub : n + 1 - c.utf8Size = byteLength cs := by rw [← hn]; simp
    rw [hn, List.cons_append, splitBytes?, if_pos hle, hsub, ih]
    rfl

theorem splitBytes?_eq_some_iff {n : Nat} {cs xs ys : List Char} :
    splitBytes? n cs = some (xs, ys) ↔ cs = xs ++ ys ∧ byteLength xs = n := by
  constructor
  · intro h
    fun_induction splitBytes? n cs generalizing xs ys with
    | case1 cs => simp_all
    | case2 => simp at h
    | case3 n c cs hle ih =>
      obtain ⟨⟨taken, rest⟩, hp, he⟩ := Option.map_eq_some_iff.1 h
      obtain ⟨rfl, rfl⟩ := Prod.mk.inj he
      obtain ⟨rfl, hlen⟩ := ih hp
      exact ⟨rfl, by simp [hlen]; omega⟩
    | case4 => simp at h
  · rintro ⟨rfl, rfl⟩
    exact splitBytes?_byteLength xs ys

/-- The text between two byte offsets; `none` if the offsets are not two boundaries in order. -/
def slice? (start stop : Nat) (cs : List Char) : Option (List Char) :=
  if start ≤ stop then
    (splitBytes? start cs).bind fun (_, rest) => (splitBytes? (stop - start) rest).map Prod.fst
  else none

theorem slice?_append (xs ys zs : List Char) :
    slice? (byteLength xs) (byteLength xs + byteLength ys) (xs ++ (ys ++ zs)) = some ys := by
  simp [slice?, splitBytes?_byteLength]

end ModuleForge.Text
