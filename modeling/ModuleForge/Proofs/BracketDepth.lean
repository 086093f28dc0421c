import ModuleForge.Proofs.OpenBrackets

/-!
# The depth of the walk over assignments

The walk holds a frame for each open bracket. How many those are is told by a count alone, one up at
an opening bracket and one down at a closing one, but never below zero. A bracket is still open if
the count has been greater than in front of it ever since.

- `depthBefore`, `StillOpen`: the count, and the brackets that it leaves open.
- `length_openBefore`, `mem_openBefore_iff`: they agree with the stack of open brackets.
- `walk_keepsDepth`: so does what the walk holds, wherever it comes, and it only goes forward.
-/

namespace ModuleForge.CommonJs.Reassignment

open Token (Kind)
open Grammar (depthAfter)

variable {tokens : Array Token} {name : String} {t : Token} {c : Context} {i j o : Nat}

/-! ## The count -/

/-- The bracket depth in front of a token. A closing bracket where none is open does not count. -/
def depthBefore (tokens : Array Token) (i : Nat) : Nat :=
  ((tokens.toList.take i).map (·.kind)).foldl depthAfter 0

theorem depthBefore_succ (ht : tokens[i]? = some t) :
    depthBefore tokens (i + 1) = depthAfter (depthBefore tokens i) t.kind := by
  simp [depthBefore, List.take_add_one, ht]

theorem depthBefore_succ_of_none (ht : tokens[i]? = none) :
    depthBefore tokens (i + 1) = depthBefore tokens i := by
  simp [depthBefore, List.take_add_one, ht]

/-- **The depth is the number of open brackets.** -/
theorem length_openBefore (tokens : Array Token) (i : Nat) :
    (openBefore tokens i).length = depthBefore tokens i := by
  induction i with
  | zero => rfl
  | succ i ih =>
    cases ht : tokens[i]? with
    | none => rw [depthBefore_succ_of_none ht, ← ih]; simp [openBefore, ht]
    | some t =>
      rw [depthBefore_succ ht, ← ih]
      cases hopen : t.kind.isOpen with
      | true => simp [openBefore_open ht hopen, depthAfter, hopen]
      | false =>
        cases hclose : t.kind.isClose with
        | true => simp [openBefore_close ht hopen hclose, depthAfter, hopen, hclose]
        | false => simp [openBefore_other ht hopen hclose, depthAfter, hopen, hclose]

/-! ## Brackets that are still open -/

/-- The bracket at `o` has been opened and not been closed in front of the token at `i`: the depth
has been greater than in front of the bracket ever since. -/
def StillOpen (tokens : Array Token) (o i : Nat) : Prop :=
  o < i ∧ (∃ t, tokens[o]? = some t ∧ t.kind.isOpen = true) ∧
    ∀ j, o < j → j ≤ i → depthBefore tokens o < depthBefore tokens j

/-- What can happen to the open brackets at a token. -/
theorem openBefore_succ_cases (tokens : Array Token) (i : Nat) :
    (∃ t, tokens[i]? = some t ∧ t.kind.isOpen = true ∧
      openBefore tokens (i + 1) = i :: openBefore tokens i) ∨
    openBefore tokens (i + 1) = (openBefore tokens i).tail ∨
    openBefore tokens (i + 1) = openBefore tokens i := by
  rw [openBefore]
  split
  · exact .inr (.inr rfl)
  rename_i t ht
  split
  · exact .inl ⟨t, ht, ‹_›, rfl⟩
  split
  · exact .inr (.inl rfl)
  · exact .inr (.inr rfl)

/-- Under a bracket on the stack are those that were open in front of it. -/
theorem openBefore_of_eq_append {inner outer : List Nat}
    (h : openBefore tokens i = inner ++ o :: outer) :
    (∃ t, tokens[o]? = some t ∧ t.kind.isOpen = true) ∧ openBefore tokens o = outer := by
  induction i generalizing inner with
  | zero => simp [openBefore] at h
  | succ i ih =>
    rcases openBefore_succ_cases tokens i with ⟨t, ht, hopen, heq⟩ | heq | heq
    · rw [heq] at h
      cases inner with
      | nil =>
        obtain ⟨rfl, rfl⟩ := List.cons.inj h
        exact ⟨⟨t, ht, hopen⟩, rfl⟩
      | cons x inner => exact ih (List.cons.inj h).2
    · rw [heq] at h
      cases hbs : openBefore tokens i with
      | nil => simp [hbs] at h
      | cons x bs =>
        rw [hbs, List.tail_cons] at h
        exact @ih (x :: inner) (by rw [hbs, h, List.cons_append])
    · rw [heq] at h
      exact ih h

theorem mem_openBefore_of_succ (h : o ∈ openBefore tokens (i + 1)) (hlt : o < i) :
    o ∈ openBefore tokens i := by
  rcases openBefore_succ_cases tokens i with ⟨t, -, -, heq⟩ | heq | heq
  · rw [heq] at h
    exact List.mem_of_ne_of_mem (Nat.ne_of_lt hlt) h
  · rw [heq] at h
    exact List.mem_of_mem_tail h
  · rw [heq] at h
    exact h

theorem mem_openBefore_of_le (h : o ∈ openBefore tokens i) (hlt : o < j) (hle : j ≤ i) :
    o ∈ openBefore tokens j := by
  induction i with
  | zero => cases h
  | succ i ih =>
    rcases Nat.lt_or_eq_of_le hle with hji | rfl
    · have hji := Nat.le_of_lt_succ hji
      exact ih (mem_openBefore_of_succ h (Nat.lt_of_lt_of_le hlt hji)) hji
    · exact h

theorem depthBefore_lt_of_mem (h : o ∈ openBefore tokens i) :
    depthBefore tokens o < depthBefore tokens i := by
  obtain ⟨inner, outer, heq⟩ := List.append_of_mem h
  have houter := (openBefore_of_eq_append heq).2
  rw [← length_openBefore, ← length_openBefore, heq, houter, List.length_append, List.length_cons]
  omega

/-- **The stack holds the brackets that are still open.** -/
theorem mem_openBefore_iff : o ∈ openBefore tokens i ↔ StillOpen tokens o i := by
  constructor
  · intro h
    obtain ⟨inner, outer, heq⟩ := List.append_of_mem h
    exact ⟨lt_of_mem_openBefore h, (openBefore_of_eq_append heq).1,
      fun j hlt hle => depthBefore_lt_of_mem (mem_openBefore_of_le h hlt hle)⟩
  · rintro ⟨hlt, ⟨t, ht, hopen⟩, hdepth⟩
    induction i with
    | zero => cases hlt
    | succ i ih =>
      rcases Nat.lt_or_eq_of_le (Nat.le_of_lt_succ hlt) with hlt | rfl
      · have hmem := ih hlt fun j hj hji => hdepth j hj (Nat.le_succ_of_le hji)
        rcases openBefore_succ_cases tokens i with ⟨u, -, -, heq⟩ | heq | heq
        · rw [heq]
          exact List.mem_cons_of_mem i hmem
        · obtain ⟨inner, outer, hbs⟩ := List.append_of_mem hmem
          cases inner with
          | nil =>
            -- the bracket itself would be closed, and the depth in front of it be reached
            have houter := (openBefore_of_eq_append hbs).2
            have hlast := hdepth (i + 1) (Nat.lt_succ_of_lt hlt) (Nat.le_refl _)
            rw [← length_openBefore, ← length_openBefore, heq, hbs, houter] at hlast
            exact absurd hlast (Nat.lt_irrefl _)
          | cons x inner =>
            rw [heq, hbs]
            simp
        · rw [heq]
          exact hmem
      · rw [openBefore_open ht hopen]
        exact List.mem_cons_self

/-! ## Going forward -/

theorem Moves.lt {x y : Nat × Context} (h : Moves tokens name x y) : x.1 < y.1 := by
  obtain ⟨t, -, rfl⟩ := h
  split
  · exact lt_endOf tokens x.1
  · exact Nat.lt_succ_self x.1

/-- A move is a round of the walk: it finds its own place if that is a target, else nothing. -/
theorem Moves.targetsFrom_eq {x y : Nat × Context} (h : Moves tokens name x y)
    (ht : tokens[x.1]? = some t) :
    targetsFrom (.ofTokens tokens) tokens name x.1 x.2 =
      if t.isWord name && isTarget tokens x.1 t x.2 then
        x.1 :: targetsFrom (.ofTokens tokens) tokens name y.1 y.2
      else targetsFrom (.ofTokens tokens) tokens name y.1 y.2 := by
  obtain ⟨u, hu, rfl⟩ := h
  obtain rfl : t = u := Option.some.inj (ht.symm.trans hu)
  cases htarget : t.isWord name && isTarget tokens x.1 t x.2 with
  | true => exact targetsFrom_target ht htarget
  | false => exact targetsFrom_other ht htarget

/-- A target lies behind the assignments to the targets before it. -/
theorem targetsFrom_pairwise (b : Brackets) (tokens : Array Token) (name : String) (i : Nat)
    (c : Context) :
    (targetsFrom b tokens name i c).Pairwise fun i j => i < j ∧ endOf tokens i ≤ j := by
  fun_induction targetsFrom b tokens name i c with
  | case1 i c hlt t _ _ ih =>
    refine List.pairwise_cons.2 ⟨fun j hj => ?_, ih⟩
    have hle : endOf tokens i ≤ j := le_of_mem_targetsFrom hj
    exact ⟨Nat.lt_of_lt_of_le (lt_endOf tokens i) hle, hle⟩
  | case2 i c hlt t _ ih => exact ih
  | case3 => exact .nil

/-- **The walk keeps its depth**, whether the brackets are balanced or not. At every token that it
comes to, also behind an assignment, it holds a frame for each bracket that is still open, the
innermost first, and one more declaration than frames. It only goes forward, and a move finds the
place that it leaves if that is a target, so that each target is found once. -/
theorem walk_keepsDepth (hends : EofLast tokens) (name : String) :
    (∀ i c t, Visits tokens name i c → tokens[i]? = some t → t.kind ≠ .eof →
      c.frames.length = depthBefore tokens i ∧ c.declaring.length = depthBefore tokens i + 1 ∧
      (∃ opened : List Nat, c.frames = opened.map (frameOf tokens) ∧ opened.Pairwise (· > ·) ∧
        ∀ o, o ∈ opened ↔ StillOpen tokens o i) ∧
      ∃ found, targets tokens name = found ++ targetsFrom (.ofTokens tokens) tokens name i c ∧
        ∀ j ∈ found, endOf tokens j ≤ i) ∧
    (∀ x y t, Moves tokens name x y → tokens[x.1]? = some t → x.1 < y.1 ∧
      targetsFrom (.ofTokens tokens) tokens name x.1 x.2 =
        if t.isWord name && isTarget tokens x.1 t x.2 then
          x.1 :: targetsFrom (.ofTokens tokens) tokens name y.1 y.2
        else targetsFrom (.ofTokens tokens) tokens name y.1 y.2) ∧
    (targets tokens name).Pairwise fun i j => i < j ∧ endOf tokens i ≤ j := by
  refine ⟨?_, fun x y t hmove ht => ⟨hmove.lt, hmove.targetsFrom_eq ht⟩,
    targetsFrom_pairwise _ tokens name 0 {}⟩
  intro i c t hvisits ht heof
  have hagrees := hvisits.agrees hends ht heof
  refine ⟨?_, ?_, ?_, hvisits.targets_eq⟩
  · rw [hagrees.frames, List.length_map, length_openBefore]
  · rw [hagrees.length, length_openBefore]
  · exact ⟨openBefore tokens i, hagrees.frames, openBefore_pairwise tokens i,
      fun o => mem_openBefore_iff⟩

/-- The tokens of `} (f = [a, f = b], f = c`: a bracket too many, one too few, and an assignment
inside of another. -/
def unbalanced : Array Token :=
  #[(Kind.rbrace, "\x7d"), (.lparen, "("), (.identifier, "f"), (.assign, "="), (.lbracket, "["),
    (.identifier, "a"), (.comma, ","), (.identifier, "f"), (.assign, "="), (.identifier, "b"),
    (.rbracket, "]"), (.comma, ","), (.identifier, "f"), (.assign, "="), (.identifier, "c"),
    (.eof, "")].mapIdx fun i part => { kind := part.1, span := ⟨i, i + 1⟩, value := part.2 }

theorem eofLast_unbalanced : EofLast unbalanced := by
  have hbefore : ∀ i < 15, kindAt? unbalanced i ≠ some .eof := by decide
  intro i t ht heof
  apply Array.getElem?_eq_none
  show 16 ≤ i + 1
  rcases Nat.lt_or_ge i 15 with hlt | hge
  · exact absurd (by simp [kindAt?, ht, heof]) (hbefore i hlt)
  · exact Nat.succ_le_succ hge

/-- The walk comes to the second target over the first assignment. -/
theorem visits_unbalanced :
    Visits unbalanced "f" 12 { frames := [.code], declaring := [false, false] } := by
  have hstart : Visits unbalanced "f" 0 {} := .start
  have hbrace : Visits unbalanced "f" 1 {} := hstart.step rfl (by decide +kernel)
  have hparen : Visits unbalanced "f" 2 { frames := [.code], declaring := [false, false] } :=
    hbrace.step rfl (by decide +kernel)
  have hend : endOf unbalanced 2 = 11 := by decide +kernel
  have hcomma : Visits unbalanced "f" 11 { frames := [.code], declaring := [false, false] } :=
    hend ▸ hparen.skip rfl (by decide +kernel)
  exact hcomma.step rfl (by decide +kernel)

/-- Behind the jump the walk is one bracket deep, and the parenthesis is the one that is open. -/
theorem walk_keepsDepth_unbalanced :
    Visits unbalanced "f" 12 { frames := [.code], declaring := [false, false] } ∧
    depthBefore unbalanced 12 = 1 ∧
    (∃ opened : List Nat, [Frame.code] = opened.map (frameOf unbalanced) ∧
      opened.Pairwise (· > ·) ∧ ∀ o, o ∈ opened ↔ StillOpen unbalanced o 12) ∧
    (targets unbalanced "f").Pairwise fun i j => i < j ∧ endOf unbalanced i ≤ j := by
  obtain ⟨hplaces, -, htargets⟩ := walk_keepsDepth eofLast_unbalanced "f"
  obtain ⟨hframes, -, hopened, -⟩ := hplaces 12 _ _ visits_unbalanced rfl (by decide)
  exact ⟨visits_unbalanced, hframes.symm, hopened, htargets⟩

end ModuleForge.CommonJs.Reassignment
