import ModuleForge.Grammar.Tokens

/-!
# Stepping over code

Code below the surface of a module is read as runs of tokens with matched brackets. The end of an
expression is found by the rule for inserted semicolons: a token on a new line ends it if the token
before can end an expression and the new one cannot go on with one.
-/

namespace ModuleForge.Grammar

open Token (Kind)

/-! ## Brackets -/

/-- Reads up to the bracket that closes the last of the open ones; `wanted` lists the closing
brackets that are due, the next one first. -/
def closeBrackets (opened : Span) : List Kind → Option Token → List Token → Result Unit
  | [], before, rest => .ok () ⟨before, rest⟩
  | wanted :: _, before, [] => .error ⟨.unclosed wanted, opened⟩ ⟨before, []⟩
  | wanted :: due, before, t :: rest =>
    if t.kind == .eof then .error ⟨.unclosed wanted, opened⟩ ⟨before, t :: rest⟩
    else
      match t.kind.closing? with
      | some closing => closeBrackets opened (closing :: wanted :: due) (some t) rest
      | none =>
        if t.kind.isClose then
          if t.kind == wanted then closeBrackets opened due (some t) rest
          else .error ⟨.mismatched wanted t.kind, t.span⟩ ⟨before, t :: rest⟩
        else closeBrackets opened (wanted :: due) (some t) rest

/-- Steps over an opening bracket, the bracket that closes it, and all between. -/
def skipBalanced : Parse Unit := fun s =>
  match s.current.kind.closing? with
  | none => .error ⟨.expectedOpening s.current.kind, s.current.span⟩ s
  | some closing => closeBrackets s.current.span [closing] s.advance.before s.advance.rest

/-- Steps over a bracket of one shape and what it encloses. -/
def bracketed (opening : Kind) : Parse Unit := fun s =>
  if s.check opening then skipBalanced s
  else .error ⟨.expected opening s.current.kind, s.current.span⟩ s

theorem closeBrackets_left {opened : Span} {due : List Kind} {before : Option Token}
    {rest : List Token} {s : Tokens} (h : closeBrackets opened due before rest = .ok () s) :
    s.left ≤ rest.length := by
  fun_induction closeBrackets opened due before rest with
  | case1 => cases h; exact Nat.le_refl _
  | case2 => cases h
  | case3 => cases h
  | case4 => rename_i ih; exact Nat.le_succ_of_le (ih h)
  | case5 => rename_i ih; exact Nat.le_succ_of_le (ih h)
  | case6 => cases h
  | case7 => rename_i ih; exact Nat.le_succ_of_le (ih h)

theorem shortens_skipBalanced : Shortens skipBalanced := by
  intro s a s' h
  unfold skipBalanced at h
  split at h
  · cases h
  · rename_i closing hc
    have hend : s.atEnd = false := by
      cases hk : s.current.kind <;> simp_all [Tokens.atEnd, Kind.closing?]
    exact Nat.lt_of_le_of_lt (closeBrackets_left h) (Tokens.left_advance_lt hend)

theorem shortens_bracketed (opening : Kind) : Shortens (bracketed opening) := by
  intro s a s' h
  unfold bracketed at h
  split at h
  · exact shortens_skipBalanced h
  · cases h

/-! ## Functions and classes -/

/-- What is kept of a function or class: its name, and the offset behind its keyword. -/
structure Skipped where
  name : Option Name
  keywordEnd : Nat

/-- Reads an identifier, if it is the next token. -/
def optionalIdentifier : Parse (Option Name) := fun s =>
  if s.check .identifier then .ok (some ⟨s.current.value, s.current.span⟩) s.advance
  else .ok none s

/-- Steps over a star, if it is the next token; answers where the last token ends. -/
def optionalStar (keywordEnd : Nat) : Parse Nat := do
  if ← optional .star then lastEnd else pure keywordEnd

/-- Steps over `function [*] [name] (...) {...}`. -/
def skipFunction : Parse Skipped := do
  let keyword ← consume .kwFunction
  let keywordEnd ← optionalStar keyword.span.stop
  let name ← optionalIdentifier
  bracketed .lparen
  bracketed .lbrace
  pure ⟨name, keywordEnd⟩

theorem keeps_optionalIdentifier : Keeps optionalIdentifier := by
  intro s a s' h
  unfold optionalIdentifier at h
  split at h
  · cases h
    exact Tokens.left_advance_le s
  · cases h
    exact Nat.le_refl _

theorem keeps_optionalStar (n : Nat) : Keeps (optionalStar n) := by
  refine (keeps_optional _).bind fun b => ?_
  cases b
  · exact keeps_pure n
  · exact keeps_lastEnd

theorem shortens_skipFunction : Shortens skipFunction :=
  (shortens_consume _).bind fun _ => (keeps_optionalStar _).bind fun _ =>
    keeps_optionalIdentifier.bind fun _ => (shortens_bracketed _).keeps.bind fun _ =>
      (shortens_bracketed _).keeps.bind fun _ => keeps_pure _

/-- Steps over one part of what a class extends: parentheses, square brackets, a function, or any
other token. -/
def skipHeritagePart : Parse Unit := fun s =>
  match s.current.kind with
  | .lparen | .lbracket => skipBalanced s
  | .kwFunction => (skipFunction *> pure ()) s
  | _ => skip s

theorem seqRight_eq_ok {α β : Type} {p : Parse α} {q : Parse β} {s s'' : Tokens} {b : β} :
    (p *> q) s = .ok b s'' ↔ ∃ a s', p s = .ok a s' ∧ q s' = .ok b s'' := by
  show EStateM.seqRight p (fun _ => q) s = .ok b s'' ↔ _
  unfold EStateM.seqRight
  cases p s with
  | ok a s' => simp [and_assoc]
  | error e s' => simp

theorem skipHeritagePart_left {s s' : Tokens} (hend : s.atEnd = false)
    (h : skipHeritagePart s = .ok () s') : s'.left < s.left := by
  unfold skipHeritagePart at h
  split at h
  · exact shortens_skipBalanced h
  · exact shortens_skipBalanced h
  · obtain ⟨a, s1, h1, h2⟩ := seqRight_eq_ok.1 h
    exact Nat.lt_of_le_of_lt (keeps_pure _ h2) (shortens_skipFunction h1)
  · cases h
    exact Tokens.left_advance_lt hend

/-- Steps over what a class extends, up to its body. -/
def skipHeritage (s : Tokens) : Result Unit :=
  if s.check .lbrace then .ok () s
  else if hend : s.atEnd = true then .error ⟨.expectedClassBody, s.current.span⟩ s
  else
    match h : skipHeritagePart s with
    | .error e s' => .error e s'
    | .ok () s' =>
      have : s'.left < s.left := skipHeritagePart_left (by simpa using hend) h
      skipHeritage s'
termination_by s.left

theorem keeps_skipHeritage : Keeps skipHeritage := by
  intro s a s' h
  fun_induction skipHeritage s with
  | case1 => cases h; exact Nat.le_refl _
  | case2 => cases h
  | case3 => cases h
  | case4 s _ _ s1 _ hlt ih => exact Nat.le_of_lt (Nat.lt_of_le_of_lt (ih h) hlt)

/-- Steps over `extends` and what follows it, if it is the next token. -/
def optionalHeritage : Parse Unit := do
  if ← optional .kwExtends then skipHeritage else pure ()

/-- Steps over `class [name] [extends ...] {...}`. -/
def skipClass : Parse Skipped := do
  let keyword ← consume .kwClass
  let name ← optionalIdentifier
  optionalHeritage
  bracketed .lbrace
  pure ⟨name, keyword.span.stop⟩

theorem keeps_optionalHeritage : Keeps optionalHeritage := by
  refine (keeps_optional _).bind fun b => ?_
  cases b
  · exact keeps_pure ()
  · exact keeps_skipHeritage

theorem shortens_skipClass : Shortens skipClass :=
  (shortens_consume _).bind fun _ => keeps_optionalIdentifier.bind fun _ =>
    keeps_optionalHeritage.bind fun _ => (shortens_bracketed _).keeps.bind fun _ => keeps_pure _

/-! ## Expressions -/

/-- Steps over one part of an expression: brackets, a function, a class, or any other token. -/
def skipPart : Parse Unit := fun s =>
  match s.current.kind with
  | .lparen | .lbracket | .lbrace => skipBalanced s
  | .kwFunction => (skipFunction *> pure ()) s
  | .kwClass => (skipClass *> pure ()) s
  | _ => skip s

theorem skipPart_left {s s' : Tokens} (hend : s.atEnd = false) (h : skipPart s = .ok () s') :
    s'.left < s.left := by
  unfold skipPart at h
  split at h
  · exact shortens_skipBalanced h
  · exact shortens_skipBalanced h
  · exact shortens_skipBalanced h
  · obtain ⟨a, s1, h1, h2⟩ := seqRight_eq_ok.1 h
    exact Nat.lt_of_le_of_lt (keeps_pure _ h2) (shortens_skipFunction h1)
  · obtain ⟨a, s1, h1, h2⟩ := seqRight_eq_ok.1 h
    exact Nat.lt_of_le_of_lt (keeps_pure _ h2) (shortens_skipClass h1)
  · cases h
    exact Tokens.left_advance_lt hend

/-- Whether a semicolon is inserted before the next token, which is not the first of the
expression. -/
def breaksHere (s : Tokens) : Bool :=
  s.current.newlineBefore && s.before.any (·.kind.endsExpression) &&
    !s.current.kind.continuesExpression

/-- Whether an expression ends before a token of this kind. -/
def stopsExpression (stopAtComma : Bool) (kind : Kind) : Bool :=
  kind == .eof || kind == .semicolon || (kind == .comma && stopAtComma) || kind.isClose

/-- Steps over the rest of an expression behind its first part. -/
def skipExpressionRest (stopAtComma : Bool) (s : Tokens) : Result Unit :=
  if hstop : stopsExpression stopAtComma s.current.kind || breaksHere s then .ok () s
  else
    match h : skipPart s with
    | .error e s' => .error e s'
    | .ok () s' =>
      have : s'.left < s.left := skipPart_left (by simp_all [stopsExpression, Tokens.atEnd]) h
      skipExpressionRest stopAtComma s'
termination_by s.left

/-- Steps over an expression, which has at least one part. With `stopAtComma` it ends before a
comma. -/
def skipExpression (stopAtComma : Bool) : Parse Unit := fun s =>
  if stopsExpression stopAtComma s.current.kind then
    .error ⟨.expectedExpression s.current.kind, s.current.span⟩ s
  else
    match skipPart s with
    | .error e s' => .error e s'
    | .ok () s' => skipExpressionRest stopAtComma s'

theorem keeps_skipExpressionRest (stopAtComma : Bool) : Keeps (skipExpressionRest stopAtComma) := by
  intro s a s' h
  fun_induction skipExpressionRest stopAtComma s with
  | case1 => cases h; exact Nat.le_refl _
  | case2 => cases h
  | case3 s _ s1 _ hlt ih => exact Nat.le_of_lt (Nat.lt_of_le_of_lt (ih h) hlt)

theorem shortens_skipExpression (stopAtComma : Bool) : Shortens (skipExpression stopAtComma) := by
  intro s a s' h
  unfold skipExpression at h
  split at h
  · cases h
  · rename_i hstop
    split at h
    · cases h
    · rename_i s1 h1
      refine Nat.lt_of_le_of_lt (keeps_skipExpressionRest stopAtComma h) (skipPart_left ?_ h1)
      simp only [stopsExpression, Bool.or_eq_true, not_or, Bool.not_eq_true] at hstop
      exact hstop.1.1.1

end ModuleForge.Grammar
