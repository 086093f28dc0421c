import ModuleForge.Token.Lexer

/-!
# Punctuators

The lexer tells a punctuator by its first characters. `punctuators` lists them all, and the reader
is turned around where it finds one (`punctuator?_inv`) and where it finds none
(`punctuator?_eq_none`). What holds of every punctuator is then checked on the list.

The reader takes the longest punctuator that the text begins with, where a question mark and a
point before a digit do not count as one: `punctuator?_eq_some_iff`.
-/

namespace ModuleForge.Token

variable {cs : List Char} {n : Nat}

/-- The punctuators and their kinds. -/
def punctuators : List (List Char × Kind) :=
  [(['('], .lparen), ([')'], .rparen), (['\x7b'], .lbrace), (['\x7d'], .rbrace),
   (['['], .lbracket), ([']'], .rbracket), ([';'], .semicolon), ([','], .comma), ([':'], .colon),
   (['@'], .atSign), (['~'], .tilde),
   (['.', '.', '.'], .ellipsis), (['.'], .dot),
   (['?', '?', '='], .assignOp), (['?', '?'], .operator), (['?', '.'], .questionDot),
   (['?'], .question),
   (['=', '=', '='], .operator), (['=', '='], .operator), (['=', '>'], .arrow), (['='], .assign),
   (['!', '=', '='], .operator), (['!', '='], .operator), (['!'], .bang),
   (['+', '+'], .increment), (['+', '='], .assignOp), (['+'], .operator),
   (['-', '-'], .decrement), (['-', '='], .assignOp), (['-'], .operator),
   (['*', '*', '='], .assignOp), (['*', '*'], .operator), (['*', '='], .assignOp), (['*'], .star),
   (['/', '='], .assignOp), (['/'], .operator), (['%', '='], .assignOp), (['%'], .operator),
   (['^', '='], .assignOp), (['^'], .operator),
   (['&', '&', '='], .assignOp), (['&', '&'], .operator), (['&', '='], .assignOp),
   (['&'], .operator),
   (['|', '|', '='], .assignOp), (['|', '|'], .operator), (['|', '='], .assignOp),
   (['|'], .operator),
   (['<', '<', '='], .assignOp), (['<', '<'], .operator), (['<', '='], .operator),
   (['<'], .operator),
   (['>', '>', '>', '='], .assignOp), (['>', '>', '>'], .operator), (['>', '>', '='], .assignOp),
   (['>', '>'], .operator), (['>', '='], .operator), (['>'], .operator)]

/-- A question mark and a point, before a digit. -/
def SplitsPoint (taken rest : List Char) : Prop :=
  taken = ['?', '.'] ∧ ∃ d, rest.head? = some d ∧ d.isDigit = true

/-- The text starts with the punctuator, and what follows does not part it. -/
def Begins (q cs : List Char) : Prop :=
  ∃ rest, cs = q ++ rest ∧ ¬ SplitsPoint q rest

/-- What makes a longer punctuator of this one. -/
def longer (q : List Char) : List (List Char) :=
  (punctuators.filter fun x => q.isPrefixOf x.1 && q.length < x.1.length).map (·.1.drop q.length)

theorem mem_longer {q r : List Char} {kind : Kind} (h : (q ++ r, kind) ∈ punctuators)
    (hr : r ≠ []) : r ∈ longer q := by
  refine List.mem_map.2 ⟨(q ++ r, kind), List.mem_filter.2 ⟨h, ?_⟩, List.drop_left⟩
  have hlength := List.length_pos_iff.2 hr
  simpa using hlength

/-- A punctuator that is found is one of the list, and nothing that makes it longer follows. -/
theorem punctuator?_inv {kind : Kind} (h : punctuator? cs = some (kind, n)) :
    (cs.take n, kind) ∈ punctuators ∧ (cs.take n).length = n ∧
      ¬ SplitsPoint (cs.take n) (cs.drop n) ∧
      ∀ r ∈ longer (cs.take n), ∀ rest, cs.drop n = r ++ rest →
        SplitsPoint (cs.take n ++ r) rest := by
  unfold punctuator? at h
  split at h
  -- A question mark and a point before a character: it decides whether they belong together.
  case h_16 =>
    rename_i d tail
    split at h
    · rename_i hd
      cases h
      simp only [List.take_succ_cons, List.take_zero, List.drop_succ_cons, List.drop_zero]
      refine ⟨by decide, rfl, fun h => absurd h.1 (by decide), ?_⟩
      refine List.forall_mem_cons.2 ⟨fun rest h => (by cases h), ?_⟩
      refine List.forall_mem_cons.2 ⟨fun rest h => (by cases h), ?_⟩
      refine List.forall_mem_cons.2 ⟨fun rest h => ?_, List.forall_mem_nil _⟩
      cases h
      exact ⟨rfl, d, rfl, hd⟩
    · rename_i hd
      cases h
      simp only [List.take_succ_cons, List.take_zero, List.drop_succ_cons, List.drop_zero]
      refine ⟨by decide, rfl, ?_, List.forall_mem_nil _⟩
      rintro ⟨-, c, hc, hdigit⟩
      cases hc
      exact hd hdigit
  -- A question mark and a point at the end.
  case h_17 =>
    rename_i tail hnil
    cases h
    simp only [List.take_succ_cons, List.take_zero, List.drop_succ_cons, List.drop_zero]
    refine ⟨by decide, rfl, ?_, List.forall_mem_nil _⟩
    rintro ⟨-, c, hc, -⟩
    obtain ⟨rest, rfl⟩ := List.head?_eq_some_iff.1 hc
    exact hnil c rest rfl
  all_goals cases h
  -- The cases before the one at hand have left out each of the longer punctuators.
  all_goals
    simp only [List.take_succ_cons, List.take_zero, List.drop_succ_cons, List.drop_zero]
    refine ⟨by decide, rfl, fun h => absurd h.1 (by decide), ?_⟩
    repeat' first
      | exact List.forall_mem_nil _
      | refine List.forall_mem_cons.2 ⟨fun rest h => absurd h (by apply_assumption), ?_⟩

theorem punctuator?_eq_none (h : punctuator? cs = none) :
    ∀ x ∈ punctuators, ∀ rest, cs = x.1 ++ rest → False := by
  unfold punctuator? at h
  split at h
  case h_16 => split at h <;> cases h
  case h_60 =>
    unfold punctuators
    repeat' first
      | exact List.forall_mem_nil _
      | refine List.forall_mem_cons.2 ⟨by assumption, ?_⟩
  all_goals cases h

theorem punctuator?_self {x : List Char × Kind} (hx : x ∈ punctuators) :
    punctuator? x.1 = some (x.2, x.1.length) :=
  (by decide : ∀ x ∈ punctuators, punctuator? x.1 = some (x.2, x.1.length)) x hx

theorem punctuator?_begins {kind : Kind} (h : punctuator? cs = some (kind, n)) :
    Begins (cs.take n) cs :=
  ⟨cs.drop n, (List.take_append_drop n cs).symm, (punctuator?_inv h).2.2.1⟩

theorem punctuator?_longest {kind : Kind} (h : punctuator? cs = some (kind, n))
    {x : List Char × Kind} (hx : x ∈ punctuators) (hbegins : Begins x.1 cs) : x.1.length ≤ n := by
  obtain ⟨hmem, hlength, -, hlonger⟩ := punctuator?_inv h
  obtain ⟨rest, hcs, hsplit⟩ := hbegins
  refine Nat.le_of_not_lt fun hlt => ?_
  have htake : cs.take n <+: x.1 :=
    List.prefix_of_prefix_length_le (List.take_prefix n cs) ⟨rest, hcs.symm⟩ (by omega)
  obtain ⟨r, hr⟩ := htake
  have hne : r ≠ [] := by
    rintro rfl
    rw [List.append_nil] at hr
    rw [← hr] at hlt
    omega
  have hx' : (cs.take n ++ r, x.2) ∈ punctuators := hr ▸ hx
  have hdrop : cs.drop n = r ++ rest := by
    rw [← List.append_cancel_left_eq (cs.take n), List.take_append_drop, ← List.append_assoc, hr,
      hcs]
  exact hsplit (hr ▸ hlonger r (mem_longer hx' hne) rest hdrop)

/-- **The reader takes the longest punctuator** that the text begins with. -/
theorem punctuator?_eq_some_iff {kind : Kind} :
    punctuator? cs = some (kind, n) ↔ ∃ q, (q, kind) ∈ punctuators ∧ q.length = n ∧ Begins q cs ∧
      ∀ x ∈ punctuators, Begins x.1 cs → x.1.length ≤ n := by
  constructor
  · intro h
    obtain ⟨hmem, hlength, -⟩ := punctuator?_inv h
    exact ⟨_, hmem, hlength, punctuator?_begins h, fun x hx => punctuator?_longest h hx⟩
  · rintro ⟨q, hq, rfl, ⟨rest, rfl, hsplit⟩, hlongest⟩
    cases hk : punctuator? (q ++ rest) with
    | none => exact (punctuator?_eq_none hk _ hq rest rfl).elim
    | some found =>
      -- Neither of the two is longer than the other, so they are the same text.
      obtain ⟨hmem, hlength, -⟩ := punctuator?_inv (n := found.2) hk
      have hle : q.length ≤ found.2 := punctuator?_longest hk hq ⟨rest, rfl, hsplit⟩
      have hge : ((q ++ rest).take found.2).length ≤ q.length :=
        hlongest _ hmem (punctuator?_begins hk)
      have htake : (q ++ rest).take found.2 = q := by
        rw [show found.2 = q.length by omega, List.take_left]
      have hself := punctuator?_self hmem
      simp only [htake, punctuator?_self hq] at hself
      have hkind : kind = found.1 := (Prod.mk.inj (Option.some.inj hself)).1
      rw [htake] at hlength
      rw [hkind, hlength]

theorem punctuator?_kind {kind : Kind} (h : punctuator? cs = some (kind, n)) :
    0 < n ∧ kind ≠ .eof ∧ kind ≠ .error ∧ kind ≠ .template ∧ kind ≠ .identifier := by
  obtain ⟨hmem, hlength, -⟩ := punctuator?_inv h
  have htable : ∀ x ∈ punctuators, 0 < x.1.length ∧ x.2 ≠ .eof ∧ x.2 ≠ .error ∧
      x.2 ≠ .template ∧ x.2 ≠ .identifier := by decide
  have hentry := htable _ hmem
  rwa [hlength] at hentry

end ModuleForge.Token
