import ModuleForge.Proofs.Matched

/-!
# Groups of tokens in brackets

`skipBalanced` holds the closing brackets that are due on a stack. What it steps over is a group: an
opening bracket, tokens whose brackets are matched, and the bracket that closes it.

- `Due before kind`: behind the tokens `before`, the innermost open bracket is closed by `kind`.
  There is one such kind at most (`Due.unique`), since matched tokens open and close equally often
  and close enough towards their end.
- `ClosersMatch`, `FirstWrong`: every closing bracket closes what is open, or there is a first one
  that does not.
- `Leaves`: the stack of the loop, read off the tokens. `outcome_closeBrackets` is the loop: it ends
  behind a group, at the end marker, or at the first wrong bracket.
- `skipBalanced_exact`: groups are stepped over, nothing else is, and a failure says why.
-/

namespace ModuleForge.Grammar

open Token (Kind)

/-- Tokens of any kind but the end marker, with matched brackets. -/
abbrev IsMatched (ts : List Token) : Prop := Matched (fun _ => true) ts

/-- An opening bracket, matched tokens, and the bracket that closes it. -/
def IsGroup (ts : List Token) : Prop :=
  ∃ opening inner closing, ts = opening :: (inner ++ [closing]) ∧
    opening.kind.closing? = some closing.kind ∧ IsMatched inner

section

variable {outer : Kind → Bool} {ts us before after inner : List Token} {t opening : Token}
  {kind wanted closing : Kind} {due : List Kind}

theorem Matched.append (h : Matched outer ts) (hus : Matched outer us) :
    Matched outer (ts ++ us) := by
  induction h with
  | nil => exact hus
  | plain hopen hclose heof houter _ ih => exact .plain hopen hclose heof houter (ih hus)
  | @group _ opening closing inner rest hclosing hinner _ _ ih =>
    rw [List.cons_append, List.append_assoc, List.cons_append]
    exact .group hclosing hinner (ih hus)

theorem isMatched_singleton (hopen : t.kind.isOpen = false) (hclose : t.kind.isClose = false)
    (heof : t.kind ≠ .eof) : IsMatched [t] :=
  .plain hopen hclose heof rfl .nil

/-! ## Counting brackets -/

/-- The number of opening brackets. -/
def openings (ts : List Token) : Nat := ts.countP (·.kind.isOpen)

/-- The number of closing brackets. -/
def closings (ts : List Token) : Nat := ts.countP (·.kind.isClose)

theorem openings_append (ts us : List Token) : openings (ts ++ us) = openings ts + openings us :=
  List.countP_append

theorem closings_append (ts us : List Token) : closings (ts ++ us) = closings ts + closings us :=
  List.countP_append

theorem isClose_eq_false_of_isOpen (h : kind.isOpen = true) : kind.isClose = false := by
  cases kind <;> first | rfl | cases h

theorem isOpen_eq_false_of_isClose (h : kind.isClose = true) : kind.isOpen = false := by
  cases hopen : kind.isOpen with
  | false => rfl
  | true => rw [isClose_eq_false_of_isOpen hopen] at h; cases h

theorem counts_of_isOpen (h : t.kind.isOpen = true) (ts : List Token) :
    openings (t :: ts) = openings ts + 1 ∧ closings (t :: ts) = closings ts := by
  simp [openings, closings, h, isClose_eq_false_of_isOpen h]

theorem counts_of_isClose (h : t.kind.isClose = true) (ts : List Token) :
    openings (t :: ts) = openings ts ∧ closings (t :: ts) = closings ts + 1 := by
  simp [openings, closings, h, isOpen_eq_false_of_isClose h]

theorem Matched.openings_eq (h : Matched outer ts) : openings ts = closings ts := by
  induction h with
  | nil => rfl
  | plain hopen hclose _ _ _ ih =>
    simpa [openings, closings, List.countP_cons, hopen, hclose] using ih
  | @group _ opening closing inner rest hclosing _ _ ihinner ih =>
    obtain ⟨hopen, hclose⟩ := closing?_eq_some hclosing
    have hfirst := counts_of_isOpen hopen (inner ++ closing :: rest)
    have hlast := counts_of_isClose hclose rest
    have hopens := openings_append inner (closing :: rest)
    have hcloses := closings_append inner (closing :: rest)
    omega

/-- Towards their end, matched tokens close at least what they open there. -/
theorem Matched.openings_le_of_suffix (h : Matched outer ts) (hus : us <:+ ts) :
    openings us ≤ closings us := by
  induction h generalizing us with
  | nil => rw [List.suffix_nil.1 hus]; exact Nat.le_refl _
  | @plain _ t rest hopen hclose heof houter hrest ih =>
    rcases List.suffix_cons_iff.1 hus with rfl | hus
    · exact Nat.le_of_eq (Matched.plain hopen hclose heof houter hrest).openings_eq
    · exact ih hus
  | @group _ opening closing inner rest hclosing hinner hrest ihinner ih =>
    obtain ⟨hopen, hclose⟩ := closing?_eq_some hclosing
    rcases List.suffix_cons_iff.1 hus with rfl | hus
    · exact Nat.le_of_eq (Matched.group hclosing hinner hrest).openings_eq
    obtain ⟨front, hfront⟩ := hus
    -- the suffix starts among the inner tokens, or behind them
    rcases List.append_eq_append_iff.1 hfront with ⟨more, hmore, rfl⟩ | ⟨more, -, hmore⟩
    · have hlast := counts_of_isClose hclose rest
      have hsame := hrest.openings_eq
      have hmore := ihinner ⟨front, hmore.symm⟩
      rw [openings_append, closings_append]
      omega
    · rcases List.suffix_cons_iff.1 ⟨more, hmore.symm⟩ with rfl | hus
      · have hlast := counts_of_isClose hclose rest
        have hsame := hrest.openings_eq
        omega
      · exact ih hus

/-! ## The bracket that is due -/

/-- Behind these tokens, the innermost bracket that is open is closed by the kind. -/
def Due (before : List Token) (kind : Kind) : Prop :=
  ∃ outside opening inner, before = outside ++ opening :: inner ∧
    opening.kind.closing? = some kind ∧ IsMatched inner

theorem Due.append_left (h : Due ts kind) (us : List Token) : Due (us ++ ts) kind := by
  obtain ⟨outside, opening, inner, rfl, hclosing, hinner⟩ := h
  exact ⟨us ++ outside, opening, inner, (List.append_assoc ..).symm, hclosing, hinner⟩

/-- Matched tokens do not end with an opening bracket and matched tokens behind it. -/
theorem Matched.not_suffix (h : Matched outer ts) (hopen : opening.kind.isOpen = true)
    (hinner : IsMatched inner) : ¬ opening :: inner <:+ ts := by
  intro hsuffix
  have hle := h.openings_le_of_suffix hsuffix
  have hcounts := counts_of_isOpen hopen inner
  have hsame := hinner.openings_eq
  omega

/-- An opening bracket with matched tokens behind it is not among those behind another one. -/
theorem Matched.opening_eq {opening' : Token} {inner' more : List Token} (h : Matched outer inner)
    (hopen' : opening'.kind.isOpen = true) (h' : IsMatched inner')
    (heq : opening :: inner = more ++ opening' :: inner') : opening = opening' := by
  cases more with
  | nil => exact (List.cons.inj heq).1
  | cons t more =>
    obtain ⟨-, rfl⟩ := List.cons.inj heq
    exact absurd (List.suffix_append more (opening' :: inner')) (h.not_suffix hopen' h')

/-- **At most one kind is due.** -/
theorem Due.unique {kind' : Kind} (h : Due before kind) (h' : Due before kind') : kind = kind' := by
  obtain ⟨outside, opening, inner, rfl, hclosing, hinner⟩ := h
  obtain ⟨outside', opening', inner', heq, hclosing', hinner'⟩ := h'
  have hopening : opening = opening' := by
    rcases List.append_eq_append_iff.1 heq with ⟨more, -, hmore⟩ | ⟨more, -, hmore⟩
    · exact hinner.opening_eq (closing?_eq_some hclosing').1 hinner' hmore
    · exact (hinner'.opening_eq (closing?_eq_some hclosing).1 hinner hmore).symm
  rw [hopening, hclosing'] at hclosing
  exact (Option.some.inj hclosing).symm

/-- Every closing bracket closes the innermost bracket that is open before it. -/
def ClosersMatch (ts : List Token) : Prop :=
  ∀ before t after, ts = before ++ t :: after → t.kind.isClose = true → Due before t.kind

/-- The first closing bracket that does not; the tokens `before` stand before it. -/
def FirstWrong (ts before : List Token) (wrong : Token) : Prop :=
  (∃ after, ts = before ++ wrong :: after) ∧ wrong.kind.isClose = true ∧
    ¬ Due before wrong.kind ∧ ClosersMatch before

theorem ClosersMatch.append_of (h : ClosersMatch ts)
    (hus : ∀ more t after, us = more ++ t :: after → t.kind.isClose = true →
      Due (ts ++ more) t.kind) :
    ClosersMatch (ts ++ us) := by
  intro before t after heq hclose
  rcases List.append_eq_append_iff.1 heq with ⟨more, rfl, hmore⟩ | ⟨more, rfl, hmore⟩
  · exact hus more t after hmore hclose
  · cases more with
    | nil => simpa using hus [] t after hmore.symm hclose
    | cons u more =>
      obtain ⟨rfl, -⟩ := List.cons.inj hmore
      exact h before t more rfl hclose

theorem ClosersMatch.append (h : ClosersMatch ts) (hus : ClosersMatch us) :
    ClosersMatch (ts ++ us) :=
  h.append_of fun more t after heq hclose => (hus more t after heq hclose).append_left ts

/-- One more token; if it closes a bracket, it closes the innermost one. -/
theorem ClosersMatch.concat (h : ClosersMatch ts) (hdue : t.kind.isClose = true → Due ts t.kind) :
    ClosersMatch (ts ++ [t]) := by
  apply h.append_of
  intro more u after heq hclose
  obtain ⟨rfl, heq⟩ | ⟨-, hnil⟩ := List.singleton_eq_append_iff.1 heq
  · obtain ⟨rfl, -⟩ := List.cons.inj heq
    rw [List.append_nil]
    exact hdue hclose
  · cases hnil

theorem closersMatch_nil : ClosersMatch [] := by
  intro before t after heq
  simp at heq

theorem closersMatch_singleton (h : t.kind.isClose = false) : ClosersMatch [t] :=
  closersMatch_nil.concat fun hclose => absurd (h.symm.trans hclose) Bool.false_ne_true

theorem Matched.closersMatch (h : Matched outer ts) : ClosersMatch ts := by
  induction h with
  | nil => exact closersMatch_nil
  | @plain _ t rest _ hclose _ _ _ ih => exact (closersMatch_singleton hclose).append ih
  | @group _ opening closing inner rest hclosing hinner _ ihinner ih =>
    have hopen := (closing?_eq_some hclosing).1
    have hfront : ClosersMatch (opening :: inner) :=
      (closersMatch_singleton (isClose_eq_false_of_isOpen hopen)).append ihinner
    have hgroup : ClosersMatch (opening :: inner ++ [closing]) :=
      hfront.concat fun _ => ⟨[], opening, inner, rfl, hclosing, hinner⟩
    simpa using hgroup.append ih

theorem FirstWrong.not_closersMatch {wrong : Token} (h : FirstWrong ts before wrong) :
    ¬ ClosersMatch ts := by
  obtain ⟨⟨after, hts⟩, hclose, hnot, -⟩ := h
  intro hmatch
  exact hnot (hmatch before wrong after hts hclose)

/-! ## The loop -/

/-- Behind a bracket that is closed by `closing`, these tokens leave the brackets `due`, the next
one first. -/
inductive Leaves (closing : Kind) : List Token → List Kind → Prop
  | inner {ts : List Token} : IsMatched ts → Leaves closing ts [closing]
  | opened {ts inner : List Token} {due : List Kind} {opening : Token} {kind : Kind} :
      Leaves closing ts due → opening.kind.closing? = some kind → IsMatched inner →
      Leaves closing (ts ++ opening :: inner) (kind :: due)

theorem Leaves.append (h : Leaves closing ts due) (hus : IsMatched us) :
    Leaves closing (ts ++ us) due := by
  cases h with
  | inner hts => exact .inner (hts.append hus)
  | opened hout hclosing hinner =>
    rw [List.append_assoc, List.cons_append]
    exact .opened hout hclosing (hinner.append hus)

theorem Leaves.push (h : Leaves closing ts due) (hclosing : t.kind.closing? = some kind) :
    Leaves closing (ts ++ [t]) (kind :: due) :=
  .opened h hclosing .nil

/-- The last bracket but one is closed: a group is complete. -/
theorem Leaves.pop (h : Leaves closing ts (t.kind :: wanted :: due)) :
    Leaves closing (ts ++ [t]) (wanted :: due) := by
  cases h with
  | @opened ts inner _ opening _ hout hclosing hinner =>
    have hgroup : IsMatched (opening :: (inner ++ [t])) := .group hclosing hinner .nil
    simpa using hout.append hgroup

/-- With one bracket left, it is the outermost one, and the tokens behind it are matched. -/
theorem Leaves.last (h : Leaves closing ts [kind]) : kind = closing ∧ IsMatched ts := by
  cases h with
  | inner hts => exact ⟨rfl, hts⟩
  | opened hout => cases hout

theorem Leaves.isDue (h : Leaves closing ts (kind :: due))
    (hclosing : opening.kind.closing? = some closing) : Due (opening :: ts) kind := by
  cases h with
  | inner hts => exact ⟨[], opening, ts, rfl, hclosing, hts⟩
  | @opened ts inner _ last _ _ hlast hinner =>
    exact ⟨opening :: ts, last, inner, rfl, hlast, hinner⟩

theorem Leaves.closersMatch (h : Leaves closing ts due) : ClosersMatch ts := by
  induction h with
  | inner hts => exact hts.closersMatch
  | @opened ts inner _ opening _ _ hclosing hinner ih =>
    have hopen := (closing?_eq_some hclosing).1
    have hlast := closersMatch_singleton (isClose_eq_false_of_isOpen hopen)
    exact ih.append (hlast.append hinner.closersMatch)

theorem Matched.kind_ne_eof (h : Matched outer ts) : ∀ t ∈ ts, t.kind ≠ .eof := by
  induction h with
  | nil => simp
  | plain _ _ heof _ _ ih => simpa using ⟨heof, ih⟩
  | @group _ opening closing inner rest hclosing _ _ ihinner ih =>
    obtain ⟨hopen, hclose⟩ := closing?_eq_some hclosing
    intro t ht
    simp only [List.mem_cons, List.mem_append] at ht
    rcases ht with rfl | ht | rfl | ht
    · exact kind_ne_eof_of_isOpen hopen
    · exact ihinner t ht
    · exact kind_ne_eof_of_isClose hclose
    · exact ih t ht

theorem Leaves.kind_ne_eof (h : Leaves closing ts due) : ∀ t ∈ ts, t.kind ≠ .eof := by
  induction h with
  | inner hts => exact hts.kind_ne_eof
  | opened _ hclosing hinner ih =>
    have hopen := (closing?_eq_some hclosing).1
    intro t ht
    simp only [List.mem_append, List.mem_cons] at ht
    rcases ht with ht | rfl | ht
    · exact ih t ht
    · exact kind_ne_eof_of_isOpen hopen
    · exact hinner.kind_ne_eof t ht

/-- The tokens in front of the end marker. -/
def upToEnd (ts : List Token) : List Token :=
  ts.takeWhile (·.kind != .eof)

theorem upToEnd_append (h : ∀ t ∈ ts, t.kind ≠ .eof) (us : List Token) :
    upToEnd (ts ++ us) = ts ++ upToEnd us :=
  List.takeWhile_append_of_pos fun t ht => by simpa using h t ht

/-- What reading on to the closing bracket comes to; `all` are the tokens behind the opening one. -/
inductive Outcome (closing : Kind) (opened : Span) (all : List Token) : Result Unit → Prop
  | closed {inner rest : List Token} {last : Token} : all = inner ++ last :: rest →
      last.kind = closing → IsMatched inner → Outcome closing opened all (.ok () ⟨some last, rest⟩)
  | unclosed {read : List Token} {wanted : Kind} {due : List Kind} {s : Tokens} :
      all = read ++ s.rest → upToEnd s.rest = [] → Leaves closing read (wanted :: due) →
      Outcome closing opened all (.error ⟨.unclosed wanted, opened⟩ s)
  | mismatched {read rest : List Token} {wrong : Token} {wanted : Kind} {due : List Kind}
      {s : Tokens} : s.rest = wrong :: rest → all = read ++ s.rest → wrong.kind.isClose = true →
      wrong.kind ≠ wanted → Leaves closing read (wanted :: due) →
      Outcome closing opened all (.error ⟨.mismatched wanted wrong.kind, wrong.span⟩ s)

/-- **The loop**: what has been read so far leaves the brackets on its stack. -/
theorem outcome_closeBrackets (opened : Span) (rest : List Token) {read : List Token}
    (h : Leaves closing read (wanted :: due)) (previous : Option Token) :
    Outcome closing opened (read ++ rest) (closeBrackets opened (wanted :: due) previous rest) := by
  induction rest generalizing read wanted due previous with
  | nil => exact .unclosed rfl rfl h
  | cons t rest ih =>
    have hnext : read ++ t :: rest = read ++ [t] ++ rest := by simp
    rw [closeBrackets]
    by_cases heof : t.kind = .eof
    · rw [if_pos (by simpa using heof)]
      exact .unclosed rfl (by simp [upToEnd, heof]) h
    rw [if_neg (by simpa using heof)]
    cases hclosing : t.kind.closing? with
    | some kind =>
      rw [hnext]
      exact ih (h.push hclosing) (some t)
    | none =>
      by_cases hclose : t.kind.isClose = true
      · dsimp only
        rw [if_pos hclose]
        by_cases hkind : t.kind = wanted
        · rw [if_pos (by simpa using hkind)]
          subst hkind
          cases due with
          | nil =>
            obtain ⟨hlast, hread⟩ := h.last
            rw [closeBrackets]
            exact .closed rfl hlast hread
          | cons wanted due =>
            rw [hnext]
            exact ih h.pop (some t)
        · rw [if_neg (by simpa using hkind)]
          exact .mismatched rfl rfl hclose hkind h
      · dsimp only
        rw [if_neg hclose, hnext]
        have hopen : t.kind.isOpen = false := by
          cases hkind : t.kind <;> simp_all [Kind.closing?, Kind.isOpen]
        have hplain := isMatched_singleton hopen (Bool.eq_false_iff.2 hclose) heof
        exact ih (h.append hplain) (some t)

end

/-! ## Stepping over a group -/

section

variable {s s' : Tokens} {ts us rest rest' : List Token} {opening : Token} {e : ParseError}

theorem skipBalanced_of_isGroup (hs : s.rest = ts ++ rest) (h : IsGroup ts) :
    skipBalanced s = .ok () ⟨ts.getLast?, rest⟩ := by
  obtain ⟨opening, inner, closing, rfl, hclosing, hinner⟩ := h
  obtain ⟨before, all⟩ := s
  dsimp only at hs
  subst hs
  rw [takes_skipBalanced hclosing hinner rest before, lastOf, lastOf_append, ← List.cons_append,
    List.getLast?_concat]
  rfl

theorem outcome_skipBalanced {closing : Token.Kind} (hs : s.rest = opening :: ts)
    (hclosing : opening.kind.closing? = some closing) :
    Outcome closing opening.span ts (skipBalanced s) := by
  obtain ⟨before, all⟩ := s
  dsimp only at hs
  subst hs
  have hopen := (closing?_eq_some hclosing).1
  have hcurrent : Tokens.current ⟨before, opening :: ts⟩ = opening := rfl
  rw [skipBalanced, hcurrent, hclosing, advance_cons (kind_ne_eof_of_isOpen hopen)]
  exact outcome_closeBrackets opening.span ts (.inner .nil) (some opening)

theorem exists_closing_of_skipBalanced (h : skipBalanced s = .ok () s') :
    ∃ opening ts closing, s.rest = opening :: ts ∧ opening.kind.closing? = some closing := by
  cases hclosing : s.current.kind.closing? with
  | none => rw [skipBalanced, hclosing] at h; cases h
  | some closing =>
    cases hs : s.rest with
    | nil => simp [Tokens.current, hs, Kind.closing?] at hclosing
    | cons opening ts =>
      refine ⟨opening, ts, closing, rfl, ?_⟩
      simpa [Tokens.current, hs] using hclosing

theorem exists_isGroup_of_skipBalanced (h : skipBalanced s = .ok () s') :
    ∃ ts rest, s.rest = ts ++ rest ∧ IsGroup ts := by
  obtain ⟨opening, ts, closing, hs, hclosing⟩ := exists_closing_of_skipBalanced h
  have houtcome := outcome_skipBalanced hs hclosing
  rw [h] at houtcome
  cases houtcome with
  | @closed inner rest last hts hlast hinner =>
    subst hlast
    exact ⟨opening :: (inner ++ [last]), rest, by simp [hs, hts], opening, inner, last, rfl,
      hclosing, hinner⟩

theorem IsGroup.unique (h : IsGroup ts) (hus : IsGroup us) (heq : ts ++ rest = us ++ rest') :
    ts = us := by
  have hskip := skipBalanced_of_isGroup (s := ⟨none, ts ++ rest⟩) rfl h
  have hskip' := skipBalanced_of_isGroup (s := ⟨none, ts ++ rest⟩) heq hus
  rw [hskip] at hskip'
  injection hskip' with _ hplace
  injection hplace with _ hrest
  exact List.append_cancel_right (heq.trans (by rw [hrest]))

theorem exists_closing_of_isOpen {kind : Token.Kind} (h : kind.isOpen = true) :
    ∃ closing, kind.closing? = some closing := by
  cases kind <;> first | exact ⟨_, rfl⟩ | cases h

/-- Where it fails: at the end marker, if all brackets match, or else at the first wrong one. -/
theorem skipBalanced_error (hs : s.rest = opening :: ts) (hopen : opening.kind.isOpen = true)
    (h : skipBalanced s = .error e s') :
    (ClosersMatch (upToEnd s.rest) ∧ s.rest = upToEnd s.rest ++ s'.rest ∧
        ∃ wanted, Due (upToEnd s.rest) wanted ∧ e = ⟨.unclosed wanted, opening.span⟩) ∨
      ∃ before wrong wanted, FirstWrong (upToEnd s.rest) before wrong ∧
        s.rest = before ++ s'.rest ∧ Due before wanted ∧
        e = ⟨.mismatched wanted wrong.kind, wrong.span⟩ := by
  obtain ⟨closing, hclosing⟩ := exists_closing_of_isOpen hopen
  have hfirst := closersMatch_singleton (isClose_eq_false_of_isOpen hopen)
  have houtcome := outcome_skipBalanced hs hclosing
  rw [h] at houtcome
  cases houtcome with
  | @unclosed read wanted due _ hts hend hleaves =>
    have hfront : upToEnd s.rest = opening :: read := by
      have hne : ∀ t ∈ opening :: read, t.kind ≠ .eof := by
        simpa using ⟨kind_ne_eof_of_isOpen hopen, hleaves.kind_ne_eof⟩
      rw [hs, hts, ← List.cons_append, upToEnd_append hne, hend, List.append_nil]
    rw [hfront]
    exact .inl ⟨hfirst.append hleaves.closersMatch, by rw [hs, hts]; rfl, wanted,
      hleaves.isDue hclosing, rfl⟩
  | @mismatched read rest wrong wanted due _ hplace hts hclose hkind hleaves =>
    have hdue := hleaves.isDue hclosing
    refine .inr ⟨opening :: read, wrong, wanted, ⟨⟨upToEnd rest, ?_⟩, hclose, ?_,
      hfirst.append hleaves.closersMatch⟩, by rw [hs, hts]; rfl, hdue, rfl⟩
    · have hne : ∀ t ∈ opening :: read ++ [wrong], t.kind ≠ .eof := by
        intro t ht
        simp only [List.mem_append, List.mem_cons, List.not_mem_nil, or_false] at ht
        rcases ht with (rfl | ht) | rfl
        · exact kind_ne_eof_of_isOpen hopen
        · exact hleaves.kind_ne_eof t ht
        · exact kind_ne_eof_of_isClose hclose
      have hall : s.rest = opening :: read ++ [wrong] ++ rest := by rw [hs, hts, hplace]; simp
      rw [hall, upToEnd_append hne]
      simp
    · intro hwrong
      exact hkind (hwrong.unique hdue)

end

/-- **Exactly groups are stepped over.** Stepping over brackets succeeds where a group is next:
there is one such group, and the place behind it is reached. At an opening bracket that no group
starts with, the fault is that bracket, if all closing brackets up to the end marker close what is
open, and else the first one that does not. -/
theorem skipBalanced_exact (s : Tokens) :
    ((∃ s', skipBalanced s = .ok () s') ↔ ∃ ts rest, s.rest = ts ++ rest ∧ IsGroup ts) ∧
    (∀ ts rest, s.rest = ts ++ rest → IsGroup ts →
      skipBalanced s = .ok () ⟨ts.getLast?, rest⟩ ∧
      ∀ us rest', s.rest = us ++ rest' → IsGroup us → us = ts) ∧
    ∀ opening ts e s', s.rest = opening :: ts → opening.kind.isOpen = true →
      skipBalanced s = .error e s' →
      (ClosersMatch (upToEnd s.rest) → s.rest = upToEnd s.rest ++ s'.rest ∧
        ∃ wanted, Due (upToEnd s.rest) wanted ∧ e = ⟨.unclosed wanted, opening.span⟩) ∧
      (¬ ClosersMatch (upToEnd s.rest) → ∃ before wrong wanted,
        FirstWrong (upToEnd s.rest) before wrong ∧ s.rest = before ++ s'.rest ∧
        Due before wanted ∧ e = ⟨.mismatched wanted wrong.kind, wrong.span⟩) := by
  refine ⟨⟨?_, ?_⟩, ?_, ?_⟩
  · rintro ⟨s', h⟩
    exact exists_isGroup_of_skipBalanced h
  · rintro ⟨ts, rest, hs, hgroup⟩
    exact ⟨_, skipBalanced_of_isGroup hs hgroup⟩
  · intro ts rest hs hgroup
    refine ⟨skipBalanced_of_isGroup hs hgroup, ?_⟩
    intro us rest' hs' hus
    exact hus.unique hgroup (hs'.symm.trans hs)
  · intro opening ts e s' hs hopen h
    rcases skipBalanced_error hs hopen h with
      ⟨hmatch, hrest, hdue⟩ | ⟨before, wrong, wanted, hwrong⟩
    · exact ⟨fun _ => ⟨hrest, hdue⟩, fun hnot => absurd hmatch hnot⟩
    · exact ⟨fun hmatch => absurd hmatch hwrong.1.not_closersMatch,
        fun _ => ⟨before, wrong, wanted, hwrong⟩⟩

/-- Tokens of these kinds, each one wide, from an offset on. -/
def numbered : Nat → List Kind → List Token
  | _, [] => []
  | i, kind :: kinds => { kind, span := ⟨i, i + 1⟩, value := "" } :: numbered (i + 1) kinds

/-- `([x],)x` starts with a group, `([x]` does not, and in `([x)]` a wrong bracket is met. -/
theorem skipBalanced_exact_mixed :
    (IsGroup (numbered 0 [.lparen, .lbracket, .identifier, .rbracket, .comma, .rparen]) ∧
      skipBalanced ⟨none, numbered 0 [.lparen, .lbracket, .identifier, .rbracket, .comma, .rparen,
        .identifier, .eof]⟩ =
        .ok () ⟨some { kind := .rparen, span := ⟨5, 6⟩, value := "" },
          numbered 6 [.identifier, .eof]⟩) ∧
    (ClosersMatch (numbered 0 [.lparen, .lbracket, .identifier, .rbracket]) ∧
      ∃ wanted s', Due (numbered 0 [.lparen, .lbracket, .identifier, .rbracket]) wanted ∧
        skipBalanced ⟨none, numbered 0 [.lparen, .lbracket, .identifier, .rbracket, .eof]⟩ =
          .error ⟨.unclosed wanted, ⟨0, 1⟩⟩ s') ∧
    (¬ ClosersMatch (numbered 0 [.lparen, .lbracket, .identifier, .rparen, .rbracket]) ∧
      ∃ before wrong wanted s',
        FirstWrong (numbered 0 [.lparen, .lbracket, .identifier, .rparen, .rbracket]) before wrong ∧
        skipBalanced ⟨none, numbered 0 [.lparen, .lbracket, .identifier, .rparen, .rbracket,
          .eof]⟩ = .error ⟨.mismatched wanted wrong.kind, wrong.span⟩ s') := by
  have hword : ∀ i, IsMatched (numbered i [.identifier]) := by
    intro i
    exact isMatched_singleton rfl rfl (by simp)
  have hpair : IsMatched (numbered 1 [.lbracket, .identifier, .rbracket]) := by
    exact .group rfl (hword 2) .nil
  refine ⟨?_, ?_, ?_⟩
  · have hcomma : IsMatched (numbered 4 [.comma]) := isMatched_singleton rfl rfl (by simp)
    have hgroup : IsGroup (numbered 0 [.lparen, .lbracket, .identifier, .rbracket, .comma,
        .rparen]) :=
      ⟨_, _, _, rfl, rfl, hpair.append hcomma⟩
    exact ⟨hgroup, ((skipBalanced_exact _).2.1 _ _ rfl hgroup).1⟩
  · have hmatch : ClosersMatch (numbered 0 [.lparen, .lbracket, .identifier, .rbracket]) :=
      (closersMatch_singleton rfl).append hpair.closersMatch
    have herror : skipBalanced ⟨none, numbered 0 [.lparen, .lbracket, .identifier, .rbracket,
        .eof]⟩ = .error ⟨.unclosed .rparen, ⟨0, 1⟩⟩
          ⟨(numbered 3 [.rbracket]).head?, numbered 4 [.eof]⟩ := rfl
    obtain ⟨-, wanted, hdue, heq⟩ := ((skipBalanced_exact _).2.2 _ _ _ _ rfl rfl herror).1 hmatch
    rw [heq] at herror
    exact ⟨hmatch, wanted, _, hdue, herror⟩
  · have hnot : ¬ ClosersMatch (numbered 0 [.lparen, .lbracket, .identifier, .rparen,
        .rbracket]) := by
      intro hmatch
      have hparen := hmatch (numbered 0 [.lparen, .lbracket, .identifier])
        { kind := .rparen, span := ⟨3, 4⟩, value := "" } (numbered 4 [.rbracket]) rfl rfl
      have hbracket : Due (numbered 0 [.lparen, .lbracket, .identifier]) .rbracket :=
        ⟨numbered 0 [.lparen], _, _, rfl, rfl, hword 2⟩
      cases hparen.unique hbracket
    have herror : skipBalanced ⟨none, numbered 0 [.lparen, .lbracket, .identifier, .rparen,
        .rbracket, .eof]⟩ = .error ⟨.mismatched .rbracket .rparen, ⟨3, 4⟩⟩
          ⟨(numbered 2 [.identifier]).head?, numbered 3 [.rparen, .rbracket, .eof]⟩ := rfl
    obtain ⟨before, wrong, wanted, hwrong, -, -, heq⟩ :=
      ((skipBalanced_exact _).2.2 _ _ _ _ rfl rfl herror).2 hnot
    rw [heq] at herror
    exact ⟨hnot, before, wrong, wanted, _, hwrong, herror⟩

end ModuleForge.Grammar
