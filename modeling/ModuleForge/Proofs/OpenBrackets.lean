import Mathlib.Logic.Relation
import ModuleForge.Proofs.Lowered

/-!
# The open brackets along the walk over assignments

The walk steps over an assignment once it has found its target, so that it does not see the
brackets in there. What it takes to be open is right all the same: an assignment ends at the depth
at which it starts.

- `openBefore`: the brackets that are open at a place, by the tokens before it alone.
- `openBefore_assignmentEnd`: an assignment ends with the brackets open that were open at its start.
- `Visits`: the walk comes to a place. `visits_or_inside`: it does so unless an assignment is
  stepped over there.
- `Visits.agrees`: the frames and declarations that the walk holds are those of the open brackets.
-/

namespace ModuleForge.CommonJs.Reassignment

open Token (Kind)

variable {tokens : Array Token} {name : String} {t : Token} {c : Context} {i j o : Nat}

/-! ## Open brackets -/

/-- The indices of the brackets that are open in front of a token, the innermost first. A closing
bracket closes the innermost one of any shape. -/
def openBefore (tokens : Array Token) : Nat → List Nat
  | 0 => []
  | i + 1 =>
    match tokens[i]? with
    | none => openBefore tokens i
    | some t =>
      if t.kind.isOpen then i :: openBefore tokens i
      else if t.kind.isClose then (openBefore tokens i).tail
      else openBefore tokens i

/-- The innermost bracket that is open in front of a token. -/
def enclosing? (tokens : Array Token) (i : Nat) : Option Nat :=
  (openBefore tokens i).head?

theorem openBefore_open (ht : tokens[i]? = some t) (hopen : t.kind.isOpen = true) :
    openBefore tokens (i + 1) = i :: openBefore tokens i := by
  simp [openBefore, ht, hopen]

theorem openBefore_close (ht : tokens[i]? = some t) (hopen : t.kind.isOpen = false)
    (hclose : t.kind.isClose = true) :
    openBefore tokens (i + 1) = (openBefore tokens i).tail := by
  simp [openBefore, ht, hopen, hclose]

theorem openBefore_other (ht : tokens[i]? = some t) (hopen : t.kind.isOpen = false)
    (hclose : t.kind.isClose = false) : openBefore tokens (i + 1) = openBefore tokens i := by
  simp [openBefore, ht, hopen, hclose]

theorem lt_of_mem_openBefore (h : o ∈ openBefore tokens i) : o < i := by
  induction i with
  | zero => cases h
  | succ i ih =>
    rw [openBefore] at h
    split at h
    · exact Nat.lt_succ_of_lt (ih h)
    split at h
    · rcases List.mem_cons.1 h with rfl | h
      · exact Nat.lt_succ_self _
      · exact Nat.lt_succ_of_lt (ih h)
    split at h
    · exact Nat.lt_succ_of_lt (ih (List.mem_of_mem_tail h))
    · exact Nat.lt_succ_of_lt (ih h)

theorem openBefore_pairwise (tokens : Array Token) (i : Nat) :
    (openBefore tokens i).Pairwise (· > ·) := by
  induction i with
  | zero => exact .nil
  | succ i ih =>
    rw [openBefore]
    split
    · exact ih
    split
    · exact List.pairwise_cons.2 ⟨fun o ho => lt_of_mem_openBefore ho, ih⟩
    split
    · exact ih.tail
    · exact ih

theorem lt_of_enclosing? (h : enclosing? tokens i = some o) : o < i :=
  lt_of_mem_openBefore (List.mem_of_mem_head? h)

/-! ## Assignments -/

/-- The index behind the assignment to the target at an index. -/
def endOf (tokens : Array Token) (i : Nat) : Nat :=
  assignmentEnd tokens (i + 1) 0 (i + 1)

theorem lt_endOf (tokens : Array Token) (i : Nat) : i < endOf tokens i :=
  le_assignmentEnd tokens (i + 1) 0 (i + 1)

/-- **An assignment ends with the brackets open that were open at its start**, unless the tokens end
in it. `inner` are the brackets that have been opened in it. -/
theorem openBefore_assignmentEnd {start depth index : Nat} {inner outer : List Nat}
    (hopen : openBefore tokens index = inner ++ outer) (hdepth : inner.length = depth)
    (ht : tokens[assignmentEnd tokens start depth index]? = some t) (heof : t.kind ≠ .eof) :
    openBefore tokens (assignmentEnd tokens start depth index) = outer := by
  fun_induction assignmentEnd tokens start depth index generalizing inner with
  | case1 depth index hlt u =>
    rename_i hu
    obtain rfl : tokens[index] = t := by simpa [hlt] using ht
    exact absurd (beq_iff_eq.1 hu) heof
  | case2 depth index hlt u _ =>
    rename_i hstop
    obtain rfl : depth = 0 := by simpa using (Bool.and_eq_true_iff.1 hstop).1
    rw [List.length_eq_zero_iff.1 hdepth] at hopen
    exact hopen
  | case3 depth index hlt u _ hgo depth' =>
    rename_i ih
    have hu : tokens[index]? = some u := Array.getElem?_eq_getElem hlt
    cases ho : u.kind.isOpen with
    | true =>
      refine @ih (index :: inner) ?_ ?_ ht
      · rw [openBefore_open hu ho, hopen, List.cons_append]
      · simp [depth', ho, hdepth]
    | false =>
      cases hc : u.kind.isClose with
      | true =>
        -- at depth zero the assignment ends here
        cases inner with
        | nil =>
          obtain rfl : 0 = depth := hdepth
          simp [hc] at hgo
        | cons x inner =>
          refine @ih inner ?_ ?_ ht
          · rw [openBefore_close hu ho hc, hopen]
            rfl
          · simp only [List.length_cons] at hdepth
            simp [depth', ho, hc, ← hdepth]
      | false =>
        refine @ih inner ?_ ?_ ht
        · rw [openBefore_other hu ho hc, hopen]
        · simp [depth', ho, hc, hdepth]
  | case4 depth index hlt =>
    rw [Array.getElem?_eq_none (Nat.le_of_not_lt hlt)] at ht
    cases ht

/-! ## The places of the walk -/

/-- A move of the walk for a name: over an assignment to it, or over one token. -/
def Moves (tokens : Array Token) (name : String) (x y : Nat × Context) : Prop :=
  ∃ t, tokens[x.1]? = some t ∧
    y = if t.isWord name && isTarget tokens x.1 t x.2 then (endOf tokens x.1, x.2)
      else (x.1 + 1, x.2.step (.ofTokens tokens) tokens x.1 t)

/-- The walk for a name comes to an index, and holds a context there. -/
def Visits (tokens : Array Token) (name : String) (i : Nat) (c : Context) : Prop :=
  Relation.ReflTransGen (Moves tokens name) (0, {}) (i, c)

namespace Visits

theorem start : Visits tokens name 0 {} :=
  .refl

theorem step (h : Visits tokens name i c) (ht : tokens[i]? = some t)
    (hother : (t.isWord name && isTarget tokens i t c) = false) :
    Visits tokens name (i + 1) (c.step (.ofTokens tokens) tokens i t) :=
  .tail h ⟨t, ht, by simp [hother]⟩

theorem skip (h : Visits tokens name i c) (ht : tokens[i]? = some t)
    (htarget : (t.isWord name && isTarget tokens i t c) = true) :
    Visits tokens name (endOf tokens i) c :=
  .tail h ⟨t, ht, by simp [htarget]⟩

/-- What holds at the start and is kept by both kinds of moves holds wherever the walk comes. -/
@[elab_as_elim]
theorem induct {motive : (i : Nat) → (c : Context) → Visits tokens name i c → Prop}
    (start : motive 0 {} .start)
    (step : ∀ {i c t} (h : Visits tokens name i c) (ht : tokens[i]? = some t)
      (hother : (t.isWord name && isTarget tokens i t c) = false), motive i c h →
      motive (i + 1) _ (h.step ht hother))
    (skip : ∀ {i c t} (h : Visits tokens name i c) (ht : tokens[i]? = some t)
      (htarget : (t.isWord name && isTarget tokens i t c) = true), motive i c h →
      motive (endOf tokens i) c (h.skip ht htarget))
    {i : Nat} {c : Context} (h : Visits tokens name i c) : motive i c h := by
  suffices hall : ∀ x (h : Relation.ReflTransGen (Moves tokens name) (0, {}) x),
      motive x.1 x.2 h from hall (i, c) h
  intro x h
  induction h with
  | refl => exact start
  | @tail x y hx hmove ih =>
    obtain ⟨t, ht, hy⟩ := id hmove
    cases htarget : t.isWord name && isTarget tokens x.1 t x.2 with
    | true =>
      obtain rfl : y = (endOf tokens x.1, x.2) := by simpa [htarget] using hy
      exact skip hx ht htarget ih
    | false =>
      obtain rfl : y = (x.1 + 1, x.2.step (.ofTokens tokens) tokens x.1 t) := by
        simpa [htarget] using hy
      exact step hx ht htarget ih

end Visits

/-- The place is part of an assignment to the name, behind its target. -/
def Inside (tokens : Array Token) (name : String) (i : Nat) : Prop :=
  ∃ j ∈ targets tokens name, j < i ∧ i < endOf tokens j

theorem targetsFrom_target {b : Brackets} (ht : tokens[i]? = some t)
    (h : (t.isWord name && isTarget tokens i t c) = true) :
    targetsFrom b tokens name i c = i :: targetsFrom b tokens name (endOf tokens i) c := by
  obtain ⟨hlt, rfl⟩ := Array.getElem?_eq_some_iff.1 ht
  rw [targetsFrom, dif_pos hlt]
  exact if_pos h

theorem targetsFrom_other {b : Brackets} (ht : tokens[i]? = some t)
    (h : (t.isWord name && isTarget tokens i t c) = false) :
    targetsFrom b tokens name i c =
      targetsFrom b tokens name (i + 1) (c.step b tokens i t) := by
  obtain ⟨hlt, rfl⟩ := Array.getElem?_eq_some_iff.1 ht
  rw [targetsFrom, dif_pos hlt]
  exact if_neg (by simp [h])

theorem le_of_mem_targetsFrom {b : Brackets} (h : j ∈ targetsFrom b tokens name i c) : i ≤ j := by
  fun_induction targetsFrom b tokens name i c with
  | case1 i c hlt t _ _ ih =>
    rcases List.mem_cons.1 h with rfl | h
    · exact Nat.le_refl _
    · exact Nat.le_trans (Nat.le_of_lt (lt_endOf tokens i)) (ih h)
  | case2 i c hlt t _ ih => exact Nat.le_of_succ_le (ih h)
  | case3 => cases h

/-- The targets are those that the walk has found, whose assignments lie behind it, and those that
it still finds. -/
theorem Visits.targets_eq (h : Visits tokens name i c) :
    ∃ found, targets tokens name = found ++ targetsFrom (.ofTokens tokens) tokens name i c ∧
      ∀ j ∈ found, endOf tokens j ≤ i := by
  induction h using Visits.induct with
  | start => exact ⟨[], rfl, by simp⟩
  | step _ ht hother ih =>
    obtain ⟨found, heq, hle⟩ := ih
    rw [targetsFrom_other ht hother] at heq
    exact ⟨found, heq, fun j hj => Nat.le_succ_of_le (hle j hj)⟩
  | @skip i c t _ ht htarget ih =>
    obtain ⟨found, heq, hle⟩ := ih
    rw [targetsFrom_target ht htarget] at heq
    refine ⟨found ++ [i], by simpa using heq, fun j hj => ?_⟩
    rcases List.mem_append.1 hj with hj | hj
    · exact Nat.le_trans (hle j hj) (Nat.le_of_lt (lt_endOf tokens i))
    · exact Nat.le_of_eq (by rw [List.mem_singleton.1 hj])

theorem Visits.not_inside (h : Visits tokens name i c) : ¬ Inside tokens name i := by
  rintro ⟨j, hj, hlt, hend⟩
  obtain ⟨found, heq, hle⟩ := h.targets_eq
  rw [heq] at hj
  rcases List.mem_append.1 hj with hj | hj
  · exact Nat.not_lt.2 (hle j hj) hend
  · exact Nat.not_lt.2 (le_of_mem_targetsFrom hj) hlt

/-- At a place of the walk, its context decides. -/
theorem Visits.mem_targets_iff (h : Visits tokens name i c) (ht : tokens[i]? = some t) :
    i ∈ targets tokens name ↔ (t.isWord name && isTarget tokens i t c) = true := by
  obtain ⟨found, heq, hle⟩ := h.targets_eq
  have hnew : i ∉ found := fun hi => Nat.not_lt.2 (hle i hi) (lt_endOf tokens i)
  rw [heq, List.mem_append, or_iff_right hnew]
  cases htarget : t.isWord name && isTarget tokens i t c with
  | true => simp [targetsFrom_target ht htarget]
  | false =>
    rw [targetsFrom_other ht htarget]
    refine iff_of_false (fun hi => ?_) (by simp)
    exact Nat.not_succ_le_self i (le_of_mem_targetsFrom hi)

theorem exists_visits_of_mem_targetsFrom (h : Visits tokens name j c)
    (hi : i ∈ targetsFrom (.ofTokens tokens) tokens name j c) : ∃ c', Visits tokens name i c' := by
  fun_induction targetsFrom (.ofTokens tokens) tokens name j c with
  | case1 j c hlt t htarget _ ih =>
    rcases List.mem_cons.1 hi with rfl | hi
    · exact ⟨c, h⟩
    · exact ih (.skip h (Array.getElem?_eq_getElem hlt) htarget) hi
  | case2 j c hlt t hother ih =>
    exact ih (.step h (Array.getElem?_eq_getElem hlt) (Bool.eq_false_iff.2 hother)) hi
  | case3 => cases hi

theorem exists_visits_of_mem_targets (h : i ∈ targets tokens name) :
    ∃ c, Visits tokens name i c :=
  exists_visits_of_mem_targetsFrom .start h

/-- **The walk comes to every place** but those inside of an assignment that it has found. -/
theorem visits_or_inside (hi : i ≤ tokens.size) :
    (∃ c, Visits tokens name i c) ∨ Inside tokens name i := by
  induction i with
  | zero => exact .inl ⟨_, .start⟩
  | succ i ih =>
    obtain ⟨t, ht⟩ : ∃ t, tokens[i]? = some t := ⟨_, Array.getElem?_eq_getElem hi⟩
    -- behind a target the walk goes on at the end of the assignment
    have hskip : ∀ j ∈ targets tokens name, j ≤ i → i < endOf tokens j →
        (∃ c, Visits tokens name (i + 1) c) ∨ Inside tokens name (i + 1) := by
      intro j hj hle hlt
      rcases Nat.lt_or_eq_of_le hlt with hlt | heq
      · exact .inr ⟨j, hj, Nat.lt_succ_of_le hle, hlt⟩
      · obtain ⟨c, hc⟩ := exists_visits_of_mem_targets hj
        obtain ⟨u, hu⟩ : ∃ u, tokens[j]? = some u :=
          ⟨_, Array.getElem?_eq_getElem (Nat.lt_of_le_of_lt hle hi)⟩
        have heq : endOf tokens j = i + 1 := heq.symm
        exact .inl ⟨c, heq ▸ .skip hc hu ((hc.mem_targets_iff hu).1 hj)⟩
    rcases ih (Nat.le_of_succ_le hi) with ⟨c, hc⟩ | ⟨j, hj, hlt, hend⟩
    · cases htarget : t.isWord name && isTarget tokens i t c with
      | true =>
        exact hskip i ((hc.mem_targets_iff ht).2 htarget) (Nat.le_refl _) (lt_endOf tokens i)
      | false => exact .inl ⟨_, .step hc ht htarget⟩
    · exact hskip j hj (Nat.le_of_lt hlt) hend

/-! ## What the walk holds -/

/-- The frame of the bracket at an index. -/
def frameOf (tokens : Array Token) (o : Nat) : Frame :=
  match tokens[o]? with
  | none => .code
  | some t => (Brackets.ofTokens tokens).frameAt tokens o t

/-- The keywords that start a declaration. -/
def isDeclarator : Kind → Bool
  | .kwVar | .kwLet | .kwConst => true
  | _ => false

/-- Directly in the bracket at `o`, a declaration has been started in front of the token at `i` and
has not been ended by a semicolon. What is inside of an assignment does not count. -/
def DeclaresIn (tokens : Array Token) (name : String) (o i : Nat) : Prop :=
  ∃ k < i, (∃ t, tokens[k]? = some t ∧ isDeclarator t.kind = true) ∧
    enclosing? tokens k = some o ∧ ¬ Inside tokens name k ∧
    ∀ m, k < m → m < i → enclosing? tokens m = some o → ¬ Inside tokens name m →
      kindAt? tokens m ≠ some .semicolon

/-- Tokens that neither start nor end a declaration in the bracket change nothing. -/
theorem declaresIn_congr {e : Nat} (hle : i ≤ e)
    (h : ∀ m, i ≤ m → m < e → enclosing? tokens m = some o → ¬ Inside tokens name m →
      ∀ t, tokens[m]? = some t → isDeclarator t.kind = false ∧ t.kind ≠ .semicolon) :
    DeclaresIn tokens name o e ↔ DeclaresIn tokens name o i := by
  constructor
  · rintro ⟨k, hk, ⟨t, ht, hdecl⟩, ho, hout, hlast⟩
    rcases Nat.lt_or_ge k i with hki | hik
    · exact ⟨k, hki, ⟨t, ht, hdecl⟩, ho, hout, fun m hm hmi =>
        hlast m hm (Nat.lt_of_lt_of_le hmi hle)⟩
    · rw [(h k hik hk ho hout t ht).1] at hdecl
      cases hdecl
  · rintro ⟨k, hk, hdecl, ho, hout, hlast⟩
    refine ⟨k, Nat.lt_of_lt_of_le hk hle, hdecl, ho, hout, fun m hm hme hmo hmout => ?_⟩
    rcases Nat.lt_or_ge m i with hmi | him
    · exact hlast m hm hmi hmo hmout
    · intro hsemi
      obtain ⟨t, ht, hkind⟩ := Option.map_eq_some_iff.1 hsemi
      exact (h m him hme hmo hmout t ht).2 hkind

/-- The context is that of the brackets which are open at a place. -/
structure Context.Agrees (tokens : Array Token) (name : String) (i : Nat) (c : Context) :
    Prop where
  frames : c.frames = (openBefore tokens i).map (frameOf tokens)
  length : c.declaring.length = (openBefore tokens i).length + 1
  declaring : ∀ n o : Nat, (openBefore tokens i)[n]? = some o →
    (c.declaring[n]? = some true ↔ DeclaresIn tokens name o i)

theorem declaresIn_succ (ht : tokens[i]? = some t)
    (h : enclosing? tokens i = some o → isDeclarator t.kind = false ∧ t.kind ≠ .semicolon) :
    DeclaresIn tokens name o (i + 1) ↔ DeclaresIn tokens name o i := by
  refine declaresIn_congr (Nat.le_succ i) fun m him hmi hmo _ u hu => ?_
  obtain rfl : i = m := Nat.le_antisymm him (Nat.le_of_lt_succ hmi)
  obtain rfl : t = u := Option.some.inj (ht.symm.trans hu)
  exact h hmo

theorem not_isDeclarator_of_isOpen {kind : Kind} (h : kind.isOpen = true) :
    isDeclarator kind = false ∧ kind ≠ .semicolon := by
  cases kind <;> simp_all [Kind.isOpen, isDeclarator]

theorem not_isDeclarator_of_isClose {kind : Kind} (h : kind.isClose = true) :
    isDeclarator kind = false ∧ kind ≠ .semicolon := by
  cases kind <;> simp_all [Kind.isClose, isDeclarator]

namespace Context.Agrees

theorem enter (h : c.Agrees tokens name i) (ht : tokens[i]? = some t)
    (hopen : t.kind.isOpen = true) :
    (c.enter ((Brackets.ofTokens tokens).frameAt tokens i t)).Agrees tokens name (i + 1) where
  frames := by simp [openBefore_open ht hopen, Context.enter, h.frames, frameOf, ht]
  length := by simp [openBefore_open ht hopen, Context.enter, h.length]
  declaring n o ho := by
    rw [openBefore_open ht hopen] at ho
    cases n with
    | zero =>
      obtain rfl : i = o := by simpa using ho
      refine iff_of_false (by simp [Context.enter]) ?_
      rintro ⟨k, hk, -, hko, -⟩
      exact Nat.not_lt.2 (Nat.le_of_lt_succ hk) (lt_of_enclosing? hko)
    | succ n =>
      rw [declaresIn_succ ht fun _ => not_isDeclarator_of_isOpen hopen]
      exact h.declaring n o ho

theorem leave (h : c.Agrees tokens name i) (ht : tokens[i]? = some t)
    (hopen : t.kind.isOpen = false) (hclose : t.kind.isClose = true) :
    c.leave.Agrees tokens name (i + 1) := by
  have hlength := h.length
  have hsame (o : Nat) : DeclaresIn tokens name o (i + 1) ↔ DeclaresIn tokens name o i :=
    declaresIn_succ ht fun _ => not_isDeclarator_of_isClose hclose
  cases hb : openBefore tokens i with
  | nil =>
    rw [hb] at hlength
    refine ⟨?_, ?_, ?_⟩
    · simp [openBefore_close ht hopen hclose, hb, Context.leave, h.frames]
    · simp [openBefore_close ht hopen hclose, hb, Context.leave, hlength]
    · simp [openBefore_close ht hopen hclose, hb]
  | cons o outer =>
    rw [hb] at hlength
    have hlt : 1 < c.declaring.length := by rw [hlength]; simp
    refine ⟨?_, ?_, fun n o' ho => ?_⟩
    · simp [openBefore_close ht hopen hclose, hb, Context.leave, h.frames]
    · simp [openBefore_close ht hopen hclose, hb, Context.leave, hlength]
    · rw [openBefore_close ht hopen hclose, hb] at ho
      rw [hsame, ← h.declaring (n + 1) o' (by rw [hb]; exact ho)]
      simp [Context.leave, hlt]

/-- Only the declarations of the innermost bracket change at a token that is no bracket. -/
theorem setDeclaring {b : Bool} (h : c.Agrees tokens name i) (ht : tokens[i]? = some t)
    (hopen : t.kind.isOpen = false) (hclose : t.kind.isClose = false)
    (hb : ∀ o, enclosing? tokens i = some o → (b = true ↔ DeclaresIn tokens name o (i + 1))) :
    (c.setDeclaring b).Agrees tokens name (i + 1) := by
  have hlength := h.length
  obtain ⟨d, ds, hd⟩ : ∃ d ds, c.declaring = d :: ds := by
    cases hd : c.declaring with
    | nil => rw [hd] at hlength; cases hlength
    | cons d ds => exact ⟨d, ds, rfl⟩
  have hsame := openBefore_other ht hopen hclose
  refine ⟨by rw [hsame]; exact h.frames, ?_, fun n o ho => ?_⟩
  · rw [hsame, ← hlength]
    simp [Context.setDeclaring, hd]
  · rw [hsame] at ho
    cases n with
    | zero =>
      have ho : enclosing? tokens i = some o := by rw [enclosing?, List.head?_eq_getElem?, ho]
      simpa [Context.setDeclaring, hd] using hb o ho
    | succ n =>
      -- an outer bracket is not the one around the token
      have hne : enclosing? tokens i ≠ some o := by
        intro hhead
        have hpair := openBefore_pairwise tokens i
        cases hbs : openBefore tokens i with
        | nil => rw [hbs] at ho; cases ho
        | cons o' outer =>
          rw [hbs] at hpair ho
          obtain rfl : o' = o := by simpa [enclosing?, hbs] using hhead
          exact Nat.lt_irrefl _ ((List.pairwise_cons.1 hpair).1 _ (List.mem_of_getElem? ho))
      rw [declaresIn_succ ht fun hhead => absurd hhead hne, ← h.declaring (n + 1) o ho]
      simp [Context.setDeclaring, hd]

theorem other (h : c.Agrees tokens name i) (ht : tokens[i]? = some t)
    (hopen : t.kind.isOpen = false) (hclose : t.kind.isClose = false)
    (hkind : isDeclarator t.kind = false ∧ t.kind ≠ .semicolon) : c.Agrees tokens name (i + 1) where
  frames := by rw [openBefore_other ht hopen hclose]; exact h.frames
  length := by rw [openBefore_other ht hopen hclose]; exact h.length
  declaring n o ho := by
    rw [openBefore_other ht hopen hclose] at ho
    rw [declaresIn_succ ht fun _ => hkind]
    exact h.declaring n o ho

/-- **A step of the walk** keeps what it holds in line with the open brackets. -/
theorem step (h : c.Agrees tokens name i) (hout : ¬ Inside tokens name i)
    (ht : tokens[i]? = some t) :
    (c.step (.ofTokens tokens) tokens i t).Agrees tokens name (i + 1) := by
  unfold Context.step
  split
  · exact h.enter ht ‹_›
  rename_i hopen
  rw [Bool.not_eq_true] at hopen
  split
  · exact h.leave ht hopen ‹_›
  rename_i hclose
  rw [Bool.not_eq_true] at hclose
  have hstarts (hdecl : isDeclarator t.kind = true) :
      (c.setDeclaring true).Agrees tokens name (i + 1) := by
    refine h.setDeclaring ht hopen hclose fun o ho => iff_of_true rfl ?_
    exact ⟨i, Nat.lt_succ_self i, ⟨t, ht, hdecl⟩, ho, hout, fun m him hmi _ _ _ => by omega⟩
  split
  · exact hstarts (by simp [*, isDeclarator])
  · exact hstarts (by simp [*, isDeclarator])
  · exact hstarts (by simp [*, isDeclarator])
  · rename_i hsemi
    refine h.setDeclaring ht hopen hclose fun o ho => iff_of_false (by simp) ?_
    rintro ⟨k, hk, ⟨u, hu, hdecl⟩, hko, -, hlast⟩
    rcases Nat.lt_or_eq_of_le (Nat.le_of_lt_succ hk) with hki | rfl
    · exact hlast i hki (Nat.lt_succ_self i) ho hout (by simp [kindAt?, ht, hsemi])
    · obtain rfl : t = u := Option.some.inj (ht.symm.trans hu)
      rw [hsemi] at hdecl
      cases hdecl
  · refine h.other ht hopen hclose ⟨?_, ‹_›⟩
    cases hk : t.kind <;> first | rfl | contradiction

theorem skip (h : c.Agrees tokens name i) (hi : i ∈ targets tokens name) {u : Token}
    (hu : tokens[endOf tokens i]? = some u) (heof : u.kind ≠ .eof) :
    c.Agrees tokens name (endOf tokens i) := by
  obtain ⟨t, ht, hword⟩ := isWord_of_mem_targetsFrom hi
  simp only [Token.isWord, Bool.and_eq_true, beq_iff_eq] at hword
  have hstart : openBefore tokens (i + 1) = [] ++ openBefore tokens i :=
    openBefore_other ht (by rw [hword.1]; rfl) (by rw [hword.1]; rfl)
  have hsame : openBefore tokens (endOf tokens i) = openBefore tokens i :=
    openBefore_assignmentEnd hstart rfl hu heof
  refine ⟨by rw [hsame]; exact h.frames, by rw [hsame]; exact h.length, fun n o ho => ?_⟩
  rw [hsame] at ho
  rw [h.declaring n o ho]
  refine (declaresIn_congr (Nat.le_of_lt (lt_endOf tokens i)) fun m him hme _ hout v hv => ?_).symm
  rcases Nat.lt_or_eq_of_le him with him | rfl
  · exact absurd ⟨i, hi, him, hme⟩ hout
  · obtain rfl : t = v := Option.some.inj (ht.symm.trans hv)
    rw [hword.1]
    exact ⟨rfl, by decide⟩

end Context.Agrees

/-- The end marker is the last token. -/
def EofLast (tokens : Array Token) : Prop :=
  ∀ i t, tokens[i]? = some t → t.kind = .eof → tokens[i + 1]? = none

/-- **What the walk holds at a place is that of the open brackets**, also behind assignments that it
has stepped over. -/
theorem Visits.agrees (h : Visits tokens name i c) (hends : EofLast tokens)
    (ht : tokens[i]? = some t) (heof : t.kind ≠ .eof) : c.Agrees tokens name i := by
  induction h using Visits.induct generalizing t with
  | start => exact ⟨rfl, rfl, fun n o ho => by cases ho⟩
  | @step i c u hv hu _ ih =>
    refine (ih hu fun hk => ?_).step hv.not_inside hu
    rw [hends i u hu hk] at ht
    cases ht
  | @skip i c u hv hu htarget ih =>
    have hi := (hv.mem_targets_iff hu).2 htarget
    refine (ih hu fun hk => ?_).skip hi ht heof
    simp [Token.isWord, hk] at htarget

end ModuleForge.CommonJs.Reassignment
