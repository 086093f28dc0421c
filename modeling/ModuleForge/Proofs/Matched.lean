import ModuleForge.Proofs.Rounds

/-!
# Tokens with matched brackets

`Takes p ts rest a`: where the tokens `ts` come before `rest`, the step `p` goes over `ts`, no
farther, and answers `a`. Steps that follow each other take tokens that follow each other
(`Takes.bind`).

- `Matched`: tokens whose brackets are matched.
- `takes_skipBalanced`: matched tokens in brackets are stepped over.
- `takes_skipExpression`: so are matched tokens up to where an expression ends.
-/

namespace ModuleForge.Grammar

open Token (Kind)
open Tokens

/-! ## Steps over given tokens -/

/-- The last of the tokens, or the one before them if there is none. -/
def lastOf : Option Token → List Token → Option Token
  | before, [] => before
  | _, t :: ts => lastOf (some t) ts

theorem lastOf_append (before : Option Token) (ts us : List Token) :
    lastOf before (ts ++ us) = lastOf (lastOf before ts) us := by
  induction ts generalizing before with
  | nil => rfl
  | cons t ts ih => exact ih (some t)

/-- Before `rest`, the step goes over exactly the tokens `ts`, and answers `a`. -/
def Takes {α : Type} (p : Parse α) (ts rest : List Token) (a : α) : Prop :=
  ∀ before, p ⟨before, ts ++ rest⟩ = .ok a ⟨lastOf before ts, rest⟩

section

variable {α β : Type} {t : Token} {ts us rest : List Token} {kind : Kind}

theorem Takes.bind {p : Parse α} {k : α → Parse β} {a : α} {b : β} (hp : Takes p ts (us ++ rest) a)
    (hk : Takes (k a) us rest b) : Takes (p >>= k) (ts ++ us) rest b := by
  intro before
  rw [List.append_assoc, bind_of_ok (hp before), hk, lastOf_append]

theorem Takes.bind_nil {p : Parse α} {k : α → Parse β} {a : α} {b : β}
    (hp : Takes p [] (us ++ rest) a) (hk : Takes (k a) us rest b) : Takes (p >>= k) us rest b :=
  hp.bind hk

theorem Takes.bind_cons {p : Parse α} {k : α → Parse β} {a : α} {b : β}
    (hp : Takes p [t] (us ++ rest) a) (hk : Takes (k a) us rest b) :
    Takes (p >>= k) (t :: us) rest b :=
  hp.bind hk

theorem Takes.bind_pure {p : Parse α} {a : α} (hp : Takes p ts rest a) (f : α → β) :
    Takes (p >>= fun a => pure (f a)) ts rest (f a) := by
  intro before
  rw [bind_of_ok (hp before)]
  rfl

theorem takes_pure (a : α) (rest : List Token) : Takes (pure a) [] rest a :=
  fun _ => rfl

theorem takes_peek (t : Token) (rest : List Token) : Takes peek [] (t :: rest) t :=
  fun _ => rfl

theorem advance_cons {before : Option Token} (ht : t.kind ≠ .eof) :
    advance ⟨before, t :: rest⟩ = ⟨some t, rest⟩ :=
  advance_of_rest rfl ht

theorem check_cons {before : Option Token} (hkind : kind ≠ .eof) :
    check kind ⟨before, t :: rest⟩ = (t.kind == kind) := by
  by_cases h : t.kind = .eof
  · simp [check, atEnd, current, h, hkind.symm]
  · simp [check, atEnd, current, h]

theorem takes_skip (ht : t.kind ≠ .eof) (rest : List Token) : Takes skip [t] rest () := by
  intro before
  rw [List.singleton_append, skip, advance_cons ht]
  rfl

theorem takes_consume (ht : t.kind = kind) (hkind : kind ≠ .eof) (rest : List Token) :
    Takes (consume kind) [t] rest t := by
  intro before
  rw [List.singleton_append, consume, check_cons hkind, if_pos (by simpa using ht),
    advance_cons (ht ▸ hkind)]
  rfl

theorem takes_optional (ht : t.kind = kind) (hkind : kind ≠ .eof) (rest : List Token) :
    Takes (optional kind) [t] rest true := by
  intro before
  rw [List.singleton_append, optional, check_cons hkind, if_pos (by simpa using ht),
    advance_cons (ht ▸ hkind)]
  rfl

theorem takes_optional_other (ht : t.kind ≠ kind) (hkind : kind ≠ .eof) (rest : List Token) :
    Takes (optional kind) [] (t :: rest) false := by
  intro before
  rw [List.nil_append, optional, check_cons hkind, if_neg (by simpa using ht)]
  rfl

end

/-! ## Brackets -/

/-- Tokens whose brackets are matched; outside of all brackets they are of the kinds that `outer`
allows. The end marker is not among them. -/
inductive Matched : (outer : Kind → Bool) → List Token → Prop
  | nil {outer : Kind → Bool} : Matched outer []
  | plain {outer : Kind → Bool} {t : Token} {rest : List Token} : t.kind.isOpen = false →
      t.kind.isClose = false → t.kind ≠ .eof → outer t.kind = true → Matched outer rest →
      Matched outer (t :: rest)
  | group {outer : Kind → Bool} {opening closing : Token} {inner rest : List Token} :
      opening.kind.closing? = some closing.kind → Matched (fun _ => true) inner →
      Matched outer rest → Matched outer (opening :: (inner ++ closing :: rest))

theorem closing?_eq_none {kind : Kind} (h : kind.isOpen = false) : kind.closing? = none := by
  cases kind <;> first | rfl | cases h

theorem closing?_eq_some {kind closing : Kind} (h : kind.closing? = some closing) :
    kind.isOpen = true ∧ closing.isClose = true := by
  cases kind <;> cases h <;> exact ⟨rfl, rfl⟩

theorem kind_ne_eof_of_isOpen {kind : Kind} (h : kind.isOpen = true) : kind ≠ .eof := by
  rintro rfl
  cases h

theorem kind_ne_eof_of_isClose {kind : Kind} (h : kind.isClose = true) : kind ≠ .eof := by
  rintro rfl
  cases h

theorem closing?_of_isClose {kind : Kind} (h : kind.isClose = true) : kind.closing? = none := by
  cases kind <;> first | rfl | cases h

section

variable {outer : Kind → Bool} {ts rest : List Token} {opening closing : Token} {stopAtComma : Bool}

/-- Matched tokens change nothing about the brackets that are due. -/
theorem Matched.closeBrackets (h : Matched outer ts) (opened : Span) (wanted : Kind)
    (due : List Kind) (before : Option Token) (rest : List Token) :
    closeBrackets opened (wanted :: due) before (ts ++ rest) =
      closeBrackets opened (wanted :: due) (lastOf before ts) rest := by
  induction h generalizing wanted due before rest with
  | nil => rfl
  | @plain outer t ts hopen hclose heof _ _ ih =>
    rw [List.cons_append, Grammar.closeBrackets, if_neg (by simpa using heof),
      closing?_eq_none hopen]
    simp only [hclose, Bool.false_eq_true, if_false]
    exact ih ..
  | @group outer opening closing inner ts hclosing _ _ ihinner ih =>
    obtain ⟨hopen, hclose⟩ := closing?_eq_some hclosing
    rw [List.cons_append, Grammar.closeBrackets,
      if_neg (by simpa using kind_ne_eof_of_isOpen hopen), hclosing]
    simp only [List.append_assoc, List.cons_append]
    rw [ihinner, Grammar.closeBrackets, if_neg (by simpa using kind_ne_eof_of_isClose hclose),
      closing?_of_isClose hclose]
    simp only [hclose, if_true, beq_self_eq_true]
    rw [ih, lastOf, lastOf_append]
    rfl

/-- **Matched tokens in brackets are stepped over**, with the brackets. -/
theorem takes_skipBalanced (hclosing : opening.kind.closing? = some closing.kind)
    (h : Matched outer ts) (rest : List Token) :
    Takes skipBalanced (opening :: (ts ++ [closing])) rest () := by
  intro before
  obtain ⟨hopen, hclose⟩ := closing?_eq_some hclosing
  have hcurrent : current ⟨before, opening :: (ts ++ [closing]) ++ rest⟩ = opening := rfl
  rw [skipBalanced, hcurrent, hclosing]
  dsimp only
  rw [List.cons_append, advance_cons (kind_ne_eof_of_isOpen hopen), List.append_assoc]
  dsimp only
  rw [h.closeBrackets, List.singleton_append, closeBrackets,
    if_neg (by simpa using kind_ne_eof_of_isClose hclose), closing?_of_isClose hclose]
  simp only [hclose, if_true, beq_self_eq_true, closeBrackets]
  rw [lastOf, lastOf_append]
  rfl

/-! ## Expressions -/

/-- What an expression of one line may have outside of all brackets: functions and classes are left
to their own rules, and a comma or a semicolon ends it. -/
def isOperand (kind : Kind) : Bool :=
  kind != .kwFunction && kind != .kwClass && kind != .comma && kind != .semicolon

/-- The kinds stand in an expression as single tokens, and none of them ends it. -/
def Continues (stopAtComma : Bool) (outer : Kind → Bool) : Prop :=
  ∀ kind, outer kind = true → kind.isClose = false → kind ≠ .eof →
    kind ≠ .kwFunction ∧ kind ≠ .kwClass ∧ stopsExpression stopAtComma kind = false

theorem continues_isOperand : Continues true isOperand := by
  intro kind h hclose heof
  simp_all [isOperand, stopsExpression]

theorem takes_skipPart_plain {t : Token} (hopen : t.kind.isOpen = false) (heof : t.kind ≠ .eof)
    (hfunction : t.kind ≠ .kwFunction) (hclass : t.kind ≠ .kwClass) (rest : List Token) :
    Takes skipPart [t] rest () := by
  intro before
  rw [← takes_skip heof rest before]
  have hcurrent : current ⟨before, [t] ++ rest⟩ = t := rfl
  rw [skipPart, hcurrent]
  cases hkind : t.kind <;> simp_all [Kind.isOpen]

theorem takes_skipPart_group (hclosing : opening.kind.closing? = some closing.kind)
    (h : Matched outer ts) (rest : List Token) :
    Takes skipPart (opening :: (ts ++ [closing])) rest () := by
  intro before
  rw [← takes_skipBalanced hclosing h rest before]
  have hcurrent : current ⟨before, opening :: (ts ++ [closing]) ++ rest⟩ = opening := rfl
  rw [skipPart, hcurrent]
  cases hkind : opening.kind <;> simp_all [Kind.closing?]

theorem stopsExpression_of_isOpen {kind : Kind} (h : kind.isOpen = true) (stopAtComma : Bool) :
    stopsExpression stopAtComma kind = false := by
  cases kind <;> first | rfl | cases h

/-- On one line, an expression goes on unless a token ends it. -/
theorem goesOn_of_oneLine {t : Token} (hstop : stopsExpression stopAtComma t.kind = false)
    (hline : t.newlineBefore = false) (before : Option Token) (rest : List Token) :
    (stopsExpression stopAtComma (current ⟨before, t :: rest⟩).kind ||
      breaksHere ⟨before, t :: rest⟩) = false := by
  simp_all [breaksHere, current]

theorem skipExpressionRest_of_skipPart {s s' : Tokens}
    (hgoes : (stopsExpression stopAtComma s.current.kind || breaksHere s) = false)
    (h : skipPart s = .ok () s') :
    skipExpressionRest stopAtComma s = skipExpressionRest stopAtComma s' := by
  rw [skipExpressionRest, dif_neg (by simp [hgoes])]
  split
  · rename_i h'
    rw [h] at h'
    cases h'
  · rename_i h'
    rw [h] at h'
    cases h'
    rfl

theorem skipExpression_of_skipPart {s s' : Tokens}
    (hgoes : (stopsExpression stopAtComma s.current.kind || breaksHere s) = false)
    (h : skipPart s = .ok () s') :
    skipExpression stopAtComma s = skipExpressionRest stopAtComma s' := by
  rw [Bool.or_eq_false_iff] at hgoes
  rw [skipExpression, if_neg (by simp [hgoes.1]), h]

variable {stopAtComma : Bool}

/-- A part of an expression at the front of matched tokens, and the tokens behind it. -/
theorem Matched.exists_part (h : Matched outer ts) (hkinds : Continues stopAtComma outer)
    (hne : ts ≠ []) :
    ∃ t part more, ts = t :: (part ++ more) ∧ stopsExpression stopAtComma t.kind = false ∧
      (∀ rest, Takes skipPart (t :: part) rest ()) ∧ Matched outer more := by
  cases h with
  | nil => exact absurd rfl hne
  | @plain _ t more hopen hclose heof hkind hmore =>
    obtain ⟨hfunction, hclass, hstop⟩ := hkinds _ hkind hclose heof
    exact ⟨t, [], more, rfl, hstop, takes_skipPart_plain hopen heof hfunction hclass, hmore⟩
  | @group _ opening closing inner more hclosing hinner hmore =>
    exact ⟨opening, inner ++ [closing], more, by simp,
      stopsExpression_of_isOpen (closing?_eq_some hclosing).1 _,
      takes_skipPart_group hclosing hinner, hmore⟩

theorem takes_skipExpressionRest (h : Matched outer ts) (hkinds : Continues stopAtComma outer)
    (hline : ∀ t ∈ ts, t.newlineBefore = false) {next : Token}
    (hnext : stopsExpression stopAtComma next.kind = true) (rest : List Token) :
    Takes (skipExpressionRest stopAtComma) ts (next :: rest) () := by
  -- part by part: what is behind a part is shorter
  induction hn : ts.length using Nat.strongRecOn generalizing ts with
  | ind n ih =>
    by_cases hne : ts = []
    · subst hne
      intro before
      rw [List.nil_append, skipExpressionRest, dif_pos (by simp [current, hnext])]
      rfl
    · obtain ⟨t, part, more, rfl, hstop, hpart, hmore⟩ := h.exists_part hkinds hne
      obtain ⟨ht, hline⟩ := List.forall_mem_cons.1 hline
      have hrest := ih more.length (by simp at hn; omega) hmore
        (fun t ht => hline t (List.mem_append_right _ ht)) rfl
      intro before
      have hskip := hpart (more ++ next :: rest) before
      rw [List.cons_append] at hskip
      rw [List.cons_append, List.append_assoc,
        skipExpressionRest_of_skipPart (goesOn_of_oneLine hstop ht _ _) hskip, hrest,
        ← lastOf_append, List.cons_append]

/-- **Matched tokens of an expression are stepped over**, up to where it has to end. -/
theorem takes_skipExpression (h : Matched outer ts) (hkinds : Continues stopAtComma outer)
    (hne : ts ≠ []) (hline : ∀ t ∈ ts, t.newlineBefore = false) {next : Token}
    (hnext : stopsExpression stopAtComma next.kind = true) (rest : List Token) :
    Takes (skipExpression stopAtComma) ts (next :: rest) () := by
  obtain ⟨t, part, more, rfl, hstop, hpart, hmore⟩ := h.exists_part hkinds hne
  obtain ⟨ht, hline⟩ := List.forall_mem_cons.1 hline
  intro before
  have hskip := hpart (more ++ next :: rest) before
  rw [List.cons_append] at hskip
  rw [List.cons_append, List.append_assoc,
    skipExpression_of_skipPart (goesOn_of_oneLine hstop ht _ _) hskip,
    takes_skipExpressionRest hmore hkinds (fun t ht => hline t (List.mem_append_right _ ht)) hnext,
    ← lastOf_append, List.cons_append]

end

end ModuleForge.Grammar
