import ModuleForge.Text.Measure

/-!
# Boundaries of a text

The offsets between the characters of a text are its boundaries. Between two of them there is a
slice, and slices that meet make up the slice from the first boundary to the last.
-/

namespace ModuleForge.Text

/-- The offset `n` stands between two characters of the text, or at one of its ends. -/
def IsBoundary (cs : List Char) (n : Nat) : Prop :=
  ∃ before after, cs = before ++ after ∧ byteLength before = n

theorem byteLength_eq_zero {cs : List Char} (h : byteLength cs = 0) : cs = [] := by
  cases cs with
  | nil => rfl
  | cons c cs => have := c.utf8Size_pos; simp only [byteLength_cons] at h; omega

theorem byteLength_pos {cs : List Char} (h : cs ≠ []) : 0 < byteLength cs :=
  Nat.pos_of_ne_zero fun hzero => h (byteLength_eq_zero hzero)

theorem isBoundary_zero (cs : List Char) : IsBoundary cs 0 :=
  ⟨[], cs, rfl, rfl⟩

theorem isBoundary_byteLength (cs : List Char) : IsBoundary cs (byteLength cs) :=
  ⟨cs, [], by simp, rfl⟩

/-- A boundary behind the start of a part of the text cuts that part. -/
theorem IsBoundary.cut {xs ys : List Char} {n : Nat} (h : IsBoundary (xs ++ ys) n)
    (hle : byteLength xs ≤ n) :
    ∃ mid rest, ys = mid ++ rest ∧ byteLength xs + byteLength mid = n := by
  obtain ⟨before, after, hcs, hn⟩ := h
  rcases List.append_eq_append_iff.1 hcs with ⟨mid, rfl, rfl⟩ | ⟨mid, rfl, rfl⟩
  · exact ⟨mid, after, rfl, by simpa using hn⟩
  · have hmid : mid = [] := byteLength_eq_zero (by simp only [byteLength_append] at hle; omega)
    exact ⟨[], ys, rfl, by simp [hmid, hn]⟩

end ModuleForge.Text
