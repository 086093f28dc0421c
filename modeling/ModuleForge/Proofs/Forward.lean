import ModuleForge.Grammar.Module

/-!
# Reading moves forward

Every step of the grammar goes over some of the tokens that follow and never back, also when it
fails. What it reports then stands among these tokens.

- `Tokens.Reaches s s'`: `s'` stands at or behind `s` in the same list of tokens.
- `Marks s e s'`: the error `e` covers tokens on the way from `s` to `s'`.
- `Forward p`: the place where the step `p` ends is reached from the place where it starts, and an
  error marks what stands between. Each step of the grammar has a lemma `forward_...`, in the order of
  the grammar's modules.
- `consumes_moduleItem`: a module item takes at least one token.
-/

namespace ModuleForge.Grammar

open Token (Kind)

variable {e : ParseError} {s s' : Tokens} {α : Type}

/-! ## Places in one list -/

namespace Tokens

variable {s : Tokens}

/-- `s'` stands at or behind `s` in the same list of tokens, and no end marker stands between. -/
inductive Reaches : Tokens → Tokens → Prop
  | refl (s : Tokens) : Reaches s s
  | step {s s' : Tokens} {t : Token} {rest : List Token} : s.rest = t :: rest → t.kind ≠ .eof →
      Reaches ⟨some t, rest⟩ s' → Reaches s s'

theorem Reaches.trans {s'' : Tokens} (h1 : s.Reaches s') (h2 : s'.Reaches s'') : s.Reaches s'' := by
  induction h1 with
  | refl s => exact h2
  | step hr ht _ ih => exact .step hr ht (ih h2)

theorem Reaches.left_le (h : s.Reaches s') : s'.left ≤ s.left := by
  induction h with
  | refl s => exact Nat.le_refl _
  | step hr _ _ ih =>
    simp only [left, hr, List.length_cons] at ih ⊢
    omega

theorem reaches_of_rest {t : Token} {rest : List Token} (h : s.rest = t :: rest)
    (ht : t.kind ≠ .eof) : s.Reaches ⟨some t, rest⟩ :=
  .step h ht (.refl _)

theorem reaches_advance (s : Tokens) : s.Reaches s.advance := by
  unfold advance
  split
  · rename_i t rest h
    split
    · exact .refl s
    · rename_i hk
      exact reaches_of_rest h (by simpa using hk)
  · exact .refl s

theorem reaches_advanceIf (kind : Kind) (s : Tokens) : s.Reaches (s.advanceIf kind) := by
  unfold advanceIf
  split
  · exact reaches_advance s
  · exact .refl s

theorem current_of_rest {t : Token} {rest : List Token} (h : s.rest = t :: rest) :
    s.current = t := by
  simp only [current, h]

end Tokens

open Tokens

/-! ## Steps -/

/-- The error covers tokens on the way from `s` to `s'`: one of them, or all from one on to the last
that was read. -/
inductive Marks (s : Tokens) (e : ParseError) (s' : Tokens) : Prop
  | token (o : Tokens) : s.Reaches o → o.Reaches s' → e.span = o.current.span → Marks s e s'
  | tokens (o : Tokens) : s.Reaches o → o.Reaches s' → s'.left < o.left →
      e.span = ⟨o.current.span.start, s'.lastEnd⟩ → Marks s e s'

theorem Marks.reaches (h : Marks s e s') : s.Reaches s' := by
  cases h with
  | token o h1 h2 => exact h1.trans h2
  | tokens o h1 h2 => exact h1.trans h2

theorem Marks.of_reaches {s'' : Tokens} (h1 : s.Reaches s') (h2 : Marks s' e s'') :
    Marks s e s'' := by
  cases h2 with
  | token o h h' hspan => exact .token o (h1.trans h) h' hspan
  | tokens o h h' hlt hspan => exact .tokens o (h1.trans h) h' hlt hspan

theorem Marks.here (s : Tokens) (fault : Fault) : Marks s ⟨fault, s.current.span⟩ s :=
  .token s (.refl s) (.refl s) rfl

/-- What a step answers if it goes forward from `s`. -/
def Goes {α : Type} (s : Tokens) : Result α → Prop
  | .ok _ s' => s.Reaches s'
  | .error e s' => Marks s e s'

theorem Goes.of_reaches {r : Result α} (h1 : s.Reaches s') (h2 : Goes s' r) : Goes s r := by
  cases r with
  | ok a s'' => exact h1.trans h2
  | error e s'' => exact Marks.of_reaches h1 h2

theorem Goes.mapOk {α β : Type} {s : Tokens} {r : Result α} (h : Goes s r) (f : α → β) :
    Goes s (mapOk f r) := by
  cases r <;> exact h

/-- A step goes forward. -/
def Forward {α : Type} (p : Parse α) : Prop :=
  ∀ s : Tokens, Goes s (p s)

theorem Forward.ok {α : Type} {p : Parse α} (hp : Forward p) {s s' : Tokens} {a : α}
    (h : p s = .ok a s') : s.Reaches s' := by
  have := hp s
  rwa [h] at this

theorem Forward.error {p : Parse α} (hp : Forward p) (h : p s = .error e s') : Marks s e s' := by
  have := hp s
  rwa [h] at this

theorem Forward.keeps {p : Parse α} (hp : Forward p) : Keeps p :=
  fun _ _ _ h => (hp.ok h).left_le

theorem map_eq_ok {β : Type} {f : α → β} {p : Parse α} {b : β} :
    (f <$> p) s = .ok b s' ↔ ∃ a, p s = .ok a s' ∧ f a = b := by
  show EStateM.map f p s = .ok b s' ↔ _
  unfold EStateM.map
  cases p s with
  | error e s1 => simp
  | ok a s1 =>
    constructor
    · rintro ⟨⟩
      exact ⟨a, rfl, rfl⟩
    · rintro ⟨a', ⟨⟩, rfl⟩
      rfl

/-! ## Combinations -/

section
variable {α β : Type} {o : Tokens}

theorem Forward.bind {p : Parse α} {k : α → Parse β} (hp : Forward p) (hk : ∀ a, Forward (k a)) :
    Forward (p >>= k) := by
  intro s
  show Goes s (EStateM.bind p k s)
  unfold EStateM.bind
  split
  · rename_i a s' h
    exact .of_reaches (hp.ok h) (hk a s')
  · rename_i e s' h
    exact hp.error h

theorem Forward.map {p : Parse α} (hp : Forward p) (f : α → β) : Forward (f <$> p) := by
  intro s
  show Goes s (EStateM.map f p s)
  unfold EStateM.map
  split
  · rename_i a s' h
    exact hp.ok h
  · rename_i e s' h
    exact hp.error h

theorem Forward.seqRight {p : Parse α} {q : Parse β} (hp : Forward p) (hq : Forward q) :
    Forward (p *> q) := by
  intro s
  show Goes s (EStateM.seqRight p (fun _ => q) s)
  unfold EStateM.seqRight
  split
  · rename_i a s' h
    exact .of_reaches (hp.ok h) (hq s')
  · rename_i e s' h
    exact hp.error h

theorem Forward.ite {c : Prop} [Decidable c] {p q : Parse α} (hp : Forward p) (hq : Forward q) :
    Forward (if c then p else q) := by
  split
  · exact hp
  · exact hq

theorem forward_pure (a : α) : Forward (pure a : Parse α) :=
  fun s => .refl s

theorem forward_fail (fault : Kind → Fault) : Forward (fail fault : Parse α) :=
  fun s => .here s _

/-! Some steps report a token that was read before. They go forward from the place of that token. -/

/-- A step goes forward from a place at or before the one where it starts. -/
def ForwardFrom (o : Tokens) (p : Parse α) : Prop :=
  ∀ s : Tokens, o.Reaches s → Goes o (p s)

theorem Forward.forwardFrom {p : Parse α} (hp : Forward p) (o : Tokens) : ForwardFrom o p :=
  fun s hr => .of_reaches hr (hp s)

theorem ForwardFrom.bind {p : Parse α} {k : α → Parse β} (hp : Forward p)
    (hk : ∀ a, ForwardFrom o (k a)) : ForwardFrom o (p >>= k) := by
  intro s hr
  show Goes o (EStateM.bind p k s)
  unfold EStateM.bind
  split
  · rename_i a s' h
    exact hk a s' (hr.trans (hp.ok h))
  · rename_i e s' h
    exact .of_reaches hr (hp.error h)

theorem ForwardFrom.ite {c : Prop} [Decidable c] {p q : Parse α} (hp : ForwardFrom o p)
    (hq : ForwardFrom o q) : ForwardFrom o (if c then p else q) := by
  split
  · exact hp
  · exact hq

/-- A fault at the token of that place. -/
theorem forwardFrom_throw (h : e.span = o.current.span) :
    ForwardFrom o (fun s => .error e s : Parse α) :=
  fun _ hr => .token o (.refl o) hr h

/-- What follows may report a token that the first step has read. -/
theorem Forward.bind_from {p : Parse α} {k : α → Parse β} (hp : Forward p)
    (hk : ∀ o a s', p o = .ok a s' → ForwardFrom o (k a)) : Forward (p >>= k) := by
  intro s
  show Goes s (EStateM.bind p k s)
  unfold EStateM.bind
  split
  · rename_i a s' h
    exact hk s a s' h s' (hp.ok h)
  · rename_i e s' h
    exact hp.error h

end

/-! ## Single tokens -/

theorem forward_skip : Forward skip :=
  reaches_advance

theorem forward_peek : Forward peek :=
  .refl

theorem forward_lastEnd : Forward lastEnd :=
  .refl

theorem forward_consume (kind : Kind) : Forward (consume kind) := by
  intro s
  unfold consume
  split
  · exact reaches_advance s
  · exact .here s _

theorem forward_optional (kind : Kind) : Forward (optional kind) := by
  intro s
  unfold optional
  split
  · exact reaches_advance s
  · exact Reaches.refl s

theorem forward_word (w : String) : Forward (word w) := by
  intro s
  unfold word
  split
  · exact reaches_advance s
  · exact .here s _

theorem forward_optionalWord (w : String) : Forward (optionalWord w) := by
  intro s
  unfold optionalWord
  split
  · exact reaches_advance s
  · exact Reaches.refl s

theorem forward_identifier : Forward identifier :=
  (forward_consume _).bind fun _ => forward_pure _

theorem forward_optionalSemicolon : Forward optionalSemicolon :=
  (forward_optional _).bind fun _ => forward_pure _

/-! ## Brackets, functions and classes -/

/-- A bracket that is not closed is reported at the place where it was opened. -/
theorem closeBrackets_goes {o : Tokens} (due : List Kind) (before : Option Token)
    (rest : List Token) (hr : o.Reaches ⟨before, rest⟩) :
    Goes o (closeBrackets o.current.span due before rest) := by
  fun_induction closeBrackets o.current.span due before rest with
  | case1 => exact hr
  | case2 => exact .token o (.refl o) hr rfl
  | case3 => exact .token o (.refl o) hr rfl
  | case4 wanted due before t rest hk _ _ ih =>
    exact ih (hr.trans (reaches_of_rest rfl (by simpa using hk)))
  | case5 wanted due before t rest hk _ _ _ ih =>
    exact ih (hr.trans (reaches_of_rest rfl (by simpa using hk)))
  | case6 => exact .token _ hr (.refl _) rfl
  | case7 wanted due before t rest hk _ _ ih =>
    exact ih (hr.trans (reaches_of_rest rfl (by simpa using hk)))

theorem forward_skipBalanced : Forward skipBalanced := by
  intro s
  unfold skipBalanced
  split
  · exact .here s _
  · exact closeBrackets_goes _ _ _ (reaches_advance s)

theorem forward_bracketed (opening : Kind) : Forward (bracketed opening) := by
  intro s
  unfold bracketed
  split
  · exact forward_skipBalanced s
  · exact .here s _

theorem forward_optionalIdentifier : Forward optionalIdentifier := by
  intro s
  unfold optionalIdentifier
  split
  · exact reaches_advance s
  · exact Reaches.refl s

theorem forward_optionalStar (n : Nat) : Forward (optionalStar n) :=
  (forward_optional _).bind fun _ => .ite forward_lastEnd (forward_pure n)

theorem forward_skipFunction : Forward skipFunction :=
  (forward_consume _).bind fun _ => (forward_optionalStar _).bind fun _ =>
    forward_optionalIdentifier.bind fun _ => (forward_bracketed _).bind fun _ =>
      (forward_bracketed _).bind fun _ => forward_pure _

theorem forward_skipHeritagePart : Forward skipHeritagePart := by
  intro s
  unfold skipHeritagePart
  split
  · exact forward_skipBalanced s
  · exact forward_skipBalanced s
  · exact forward_skipFunction.seqRight (forward_pure ()) s
  · exact forward_skip s

theorem forward_skipHeritage : Forward skipHeritage := by
  intro s
  fun_induction skipHeritage s with
  | case1 s => exact Reaches.refl s
  | case2 s => exact .here s _
  | case3 s _ _ e s' h => exact forward_skipHeritagePart.error h
  | case4 s _ _ s' h _ ih => exact .of_reaches (forward_skipHeritagePart.ok h) ih

theorem forward_optionalHeritage : Forward optionalHeritage :=
  (forward_optional _).bind fun _ => .ite forward_skipHeritage (forward_pure ())

theorem forward_skipClass : Forward skipClass :=
  (forward_consume _).bind fun _ => forward_optionalIdentifier.bind fun _ =>
    forward_optionalHeritage.bind fun _ => (forward_bracketed _).bind fun _ => forward_pure _

/-! ## Expressions -/

theorem forward_skipPart : Forward skipPart := by
  intro s
  unfold skipPart
  split
  · exact forward_skipBalanced s
  · exact forward_skipBalanced s
  · exact forward_skipBalanced s
  · exact forward_skipFunction.seqRight (forward_pure ()) s
  · exact forward_skipClass.seqRight (forward_pure ()) s
  · exact forward_skip s

theorem forward_skipExpressionRest (stopAtComma : Bool) :
    Forward (skipExpressionRest stopAtComma) := by
  intro s
  fun_induction skipExpressionRest stopAtComma s with
  | case1 s => exact Reaches.refl s
  | case2 s _ e s' h => exact forward_skipPart.error h
  | case3 s _ s' h _ ih => exact .of_reaches (forward_skipPart.ok h) ih

theorem forward_skipExpression (stopAtComma : Bool) : Forward (skipExpression stopAtComma) := by
  intro s
  unfold skipExpression
  split
  · exact .here s _
  · split
    · rename_i e s' h
      exact forward_skipPart.error h
    · rename_i s' h
      exact .of_reaches (forward_skipPart.ok h) (forward_skipExpressionRest stopAtComma s')

/-! ## Patterns -/

theorem forward_optionalDefault : Forward optionalDefault :=
  (forward_optional _).bind fun _ => .ite (forward_skipExpression true) (forward_pure ())

theorem forward_separator (closing : Kind) : Forward (separator closing) := by
  intro s
  unfold separator
  split
  · exact Reaches.refl s
  · exact (forward_consume _).seqRight (forward_pure ()) s

theorem forward_property : Forward property := by
  refine forward_peek.bind_from fun o key s' h => ?_
  obtain ⟨rfl, -⟩ : o.current = key ∧ o = s' := by cases h; exact ⟨rfl, rfl⟩
  split
  · exact (forward_skip.bind fun _ => forward_pure _).forwardFrom o
  · exact (forward_skipBalanced.bind fun _ => (forward_consume _).bind fun _ =>
      forward_pure _).forwardFrom o
  · exact (forward_skip.bind fun _ => (forward_consume _).bind fun _ => forward_pure _).forwardFrom o
  · exact (forward_skip.bind fun _ => (forward_consume _).bind fun _ => forward_pure _).forwardFrom o
  · refine .ite (.bind forward_skip fun _ => .bind (forward_optional _) fun _ => ?_)
      ((forward_fail _).forwardFrom o)
    exact .ite ((forward_pure _).forwardFrom o)
      (.ite ((forward_pure _).forwardFrom o) (forwardFrom_throw rfl))

theorem forward_tail (closing : Kind) :
    Forward (do
      optionalDefault
      separator closing) :=
  forward_optionalDefault.bind fun _ => forward_separator closing

mutual

theorem bindingPattern_goes (s : Tokens) : Goes s (bindingPattern s) := by
  rw [bindingPattern]
  split
  · exact .here s _
  · rename_i t rest h
    have hlt : rest.length < s.left := by simp [Tokens.left, h]
    split
    · rename_i hk
      exact reaches_of_rest h (by simp [hk])
    · rename_i hk
      exact .of_reaches (reaches_of_rest h (by simp [hk])) (objectPattern_goes ⟨some t, rest⟩)
    · rename_i hk
      exact .of_reaches (reaches_of_rest h (by simp [hk])) (arrayPattern_goes ⟨some t, rest⟩)
    · rw [← current_of_rest h]
      exact .here s _
termination_by 2 * s.left
decreasing_by
  all_goals simp only [Tokens.left] at *
  all_goals omega

theorem objectPattern_goes (s : Tokens) : Goes s (objectPattern s) := by
  have helem : ∀ (start : Property) (s' : Tokens) (r : Result (List Name)),
      (match start with
        | .shorthand name => .ok [name] s'
        | .target | .restTarget =>
          if s'.left < s.left then bindingPattern s' else .ok [] s') = r →
      Goes s' r := by
    rintro start s' _ rfl
    cases start with
    | shorthand name => exact Reaches.refl s'
    | target | restTarget =>
      dsimp only
      split
      · exact bindingPattern_goes s'
      · exact Reaches.refl s'
  have htail : ∀ start : Property, Forward (match start with
      | .restTarget => separator .rbrace
      | _ => do
        optionalDefault
        separator .rbrace) := by
    intro start
    cases start with
    | restTarget => exact forward_separator _
    | _ => exact forward_tail _
  rw [objectPattern]
  split
  · exact (forward_consume _).seqRight (forward_pure _) s
  split
  · rename_i e s' h
    exact forward_property.error h
  · rename_i start s' h
    have hprop := forward_property.ok h
    dsimp only
    split
    · rename_i e s1 h1
      exact .of_reaches hprop (helem _ _ _ h1)
    · rename_i names s1 h1
      have hs1 : s.Reaches s1 := hprop.trans (helem _ _ _ h1)
      split
      · rename_i e s2 h2
        exact .of_reaches hs1 ((htail start).error h2)
      · rename_i s2 h2
        have hs2 := hs1.trans ((htail start).ok h2)
        split
        · exact .of_reaches hs2 ((objectPattern_goes s2).mapOk _)
        · exact hs2
termination_by 2 * s.left + 1

theorem arrayPattern_goes (s : Tokens) : Goes s (arrayPattern s) := by
  rw [arrayPattern]
  split
  · exact (forward_consume _).seqRight (forward_pure _) s
  split
  · rename_i hcomma
    have hlt : s.advance.left < s.left := Tokens.left_advance_lt (Tokens.atEnd_of_check hcomma)
    exact .of_reaches (reaches_advance s) (arrayPattern_goes s.advance)
  · have hle := Tokens.left_advanceIf_le .ellipsis s
    have hpat : Goes s (bindingPattern (s.advanceIf .ellipsis)) :=
      .of_reaches (reaches_advanceIf .ellipsis s) (bindingPattern_goes (s.advanceIf .ellipsis))
    split
    · rename_i e s' h
      rw [h] at hpat
      exact hpat
    · rename_i names s' h
      rw [h] at hpat
      have htail := Forward.ite (c := s.check .ellipsis = true) (forward_separator .rbracket)
        (forward_tail .rbracket)
      dsimp only
      split
      · rename_i e s1 h1
        exact .of_reaches hpat (htail.error h1)
      · rename_i s1 h1
        have hs1 : s.Reaches s1 := Reaches.trans hpat (htail.ok h1)
        split
        · exact .of_reaches hs1 ((arrayPattern_goes s1).mapOk _)
        · exact hs1
termination_by 2 * s.left + 1

end

theorem forward_bindingPattern : Forward bindingPattern :=
  bindingPattern_goes

theorem forward_objectPattern : Forward objectPattern :=
  objectPattern_goes

theorem forward_arrayPattern : Forward arrayPattern :=
  arrayPattern_goes

theorem forward_declarators : Forward declarators := by
  intro s
  fun_induction declarators s with
  | case1 s e s' h => exact forward_bindingPattern.error h
  | case2 s names s1 h e s2 h2 =>
    exact .of_reaches (forward_bindingPattern.ok h) (forward_optionalDefault.error h2)
  | case3 s names s1 h s2 h2 _ _ ih =>
    have hr := (forward_bindingPattern.ok h).trans (forward_optionalDefault.ok h2)
    exact .of_reaches (hr.trans (reaches_advance s2)) (ih.mapOk _)
  | case4 s names s1 h s2 h2 =>
    exact ((forward_bindingPattern.ok h).trans (forward_optionalDefault.ok h2)).trans
      (reaches_advance s2)
  | case5 s names s1 h s2 h2 =>
    exact (forward_bindingPattern.ok h).trans (forward_optionalDefault.ok h2)

/-! ## Names and sources -/

theorem forward_exportName : Forward exportName := by
  intro s
  simp only [exportName]
  split
  · exact reaches_advance s
  split
  · exact reaches_advance s
  · exact .here s _

theorem exportName_span {name : PlacedName} (h : exportName s = .ok name s') :
    name.span = s.current.span := by
  simp only [exportName] at h
  split at h
  · cases h; rfl
  split at h
  · cases h; rfl
  · cases h

theorem forward_optionalAttributes : Forward optionalAttributes := by
  intro s
  simp only [optionalAttributes]
  split
  · exact .of_reaches (reaches_advance s) (forward_skipBalanced _)
  · exact Reaches.refl s

theorem forward_moduleSource : Forward moduleSource := by
  refine forward_peek.bind fun t => ?_
  split
  · exact forward_skip.bind fun _ => forward_optionalAttributes.bind fun _ => forward_pure _
  · exact forward_fail _
  · exact (forward_skipExpression false).bind fun _ => forward_pure _

theorem forward_fromClause : Forward fromClause :=
  (forward_word _).bind fun _ => forward_moduleSource

theorem forward_elementsToBrace {element : Parse α} (he : Forward element) :
    Forward (elementsToBrace element) := by
  intro s
  fun_induction elementsToBrace element s with
  | case1 s => exact (forward_consume _).seqRight (forward_pure _) s
  | case2 s _ e s' h => exact he.error h
  | case3 s _ a s1 h e s2 h2 => exact .of_reaches (he.ok h) ((forward_separator _).error h2)
  | case4 s _ a s1 h s2 h2 _ ih =>
    exact .of_reaches ((he.ok h).trans ((forward_separator _).ok h2)) (ih.mapOk _)
  | case5 s _ a s1 h s2 h2 => exact (he.ok h).trans ((forward_separator _).ok h2)

theorem forward_inBraces {element : Parse α} (he : Forward element) : Forward (inBraces element) :=
  (forward_consume _).bind fun _ => forward_elementsToBrace he

/-! ## Imports -/

theorem forward_importSpecifier : Forward importSpecifier :=
  forward_peek.bind fun _ => forward_exportName.bind_from fun o _ _ h =>
    .bind (forward_optionalWord _) fun _ =>
      .ite ((forward_identifier.bind fun _ => forward_pure _).forwardFrom o)
        (.ite ((forward_pure _).forwardFrom o) (forwardFrom_throw (exportName_span h)))

theorem forward_importClause : Forward importClause := by
  refine forward_peek.bind fun t => ?_
  split
  · exact forward_skip.bind fun _ => (forward_word _).bind fun _ =>
      forward_identifier.bind fun _ => forward_pure _
  · exact forward_inBraces forward_importSpecifier
  · exact forward_fail _

theorem forward_importSpecifiers : Forward importSpecifiers := by
  refine forward_optionalIdentifier.bind fun binding => ?_
  split
  · exact forward_importClause
  · exact (forward_optional _).bind fun _ =>
      .ite (forward_importClause.bind fun _ => forward_pure _) (forward_pure _)

theorem forward_close (f : Nat → α) :
    Forward (do
      optionalSemicolon
      let stop ← lastEnd
      pure (f stop)) :=
  forward_optionalSemicolon.bind fun _ => forward_lastEnd.bind fun _ => forward_pure _

/-- A step that starts with a token of some kind goes forward over at least that token. -/
def Consumes {α : Type} (p : Parse α) : Prop :=
  Forward p ∧ Shortens p

theorem consumes_bind {kind : Kind} {k : Token → Parse α} (hk : ∀ t, Forward (k t)) :
    Consumes (consume kind >>= k) :=
  ⟨(forward_consume kind).bind hk, (shortens_consume kind).bind fun t => (hk t).keeps⟩

theorem consumes_importDecl : Consumes importDecl :=
  consumes_bind fun _ => forward_peek.bind fun _ =>
    .ite
      ((forward_pure _).bind fun _ => .ite (forward_moduleSource.bind fun _ => forward_close _)
        (forward_fromClause.bind fun _ => forward_close _))
      (forward_importSpecifiers.bind fun _ =>
        .ite (forward_moduleSource.bind fun _ => forward_close _)
          (forward_fromClause.bind fun _ => forward_close _))

/-! ## Exports -/

theorem forward_exportSpecifier : Forward exportSpecifier :=
  forward_exportName.bind fun _ => (forward_optionalWord _).bind fun _ =>
    .ite (forward_exportName.bind fun _ => forward_pure _) (forward_pure _)

theorem forward_optionalAsync : Forward optionalAsync := by
  intro s
  unfold optionalAsync
  split
  · exact reaches_advance s
  · exact Reaches.refl s

theorem forward_hoistable : Forward hoistable := by
  refine forward_optionalAsync.bind fun _ => forward_peek.bind fun t => ?_
  split
  · exact forward_skipFunction.bind fun _ => forward_pure _
  · exact forward_skipClass.bind fun _ => forward_pure _
  · exact forward_fail _

theorem forward_exportAll (start : Nat) : Forward (exportAll start) :=
  (forward_consume _).bind fun _ => (forward_optionalWord _).bind fun _ =>
    .ite
      ((forward_exportName.map _).bind fun _ => forward_fromClause.bind fun _ => forward_close _)
      ((forward_pure _).bind fun _ => forward_fromClause.bind fun _ => forward_close _)

theorem forward_optionalFrom : Forward optionalFrom :=
  forward_peek.bind fun _ => .ite (forward_fromClause.map _) (forward_pure _)

theorem forward_exportNamed (start : Nat) : Forward (exportNamed start) :=
  (forward_inBraces forward_exportSpecifier).bind fun _ => forward_optionalFrom.bind fun _ =>
    forward_close _

theorem forward_exportVariables (start : Nat) : Forward (exportVariables start) :=
  forward_peek.bind fun _ => forward_skip.bind fun _ => forward_declarators.bind fun _ =>
    forward_close _

theorem shortens_hoistable : Shortens hoistable := by
  refine forward_optionalAsync.keeps.bind_shortens fun _ => keeps_peek.bind_shortens fun t => ?_
  split
  · exact shortens_skipFunction.bind fun _ => keeps_pure _
  · exact shortens_skipClass.bind fun _ => keeps_pure _
  · intro s found s' h
    cases h

/-- A function or class without name is reported as a whole. -/
theorem forward_exportHoistable (start : Nat) : Forward (exportHoistable start) := by
  intro s
  show Goes s (EStateM.bind hoistable _ s)
  unfold EStateM.bind
  split
  · rename_i found s' h
    have hr := forward_hoistable.ok h
    obtain ⟨kind, name, keywordEnd⟩ := found
    cases name with
    | some name => exact hr
    | none => exact .tokens s (.refl s) hr (shortens_hoistable h) rfl
  · rename_i e s' h
    exact forward_hoistable.error h

theorem forward_exportDefaultDecl (start : Nat) : Forward (exportDefaultDecl start) :=
  forward_peek.bind fun _ => forward_hoistable.bind fun _ => forward_lastEnd.bind fun _ =>
    forward_pure _

theorem forward_exportDefaultExpr (start : Nat) : Forward (exportDefaultExpr start) :=
  forward_peek.bind fun _ => (forward_skipExpression false).bind fun _ =>
    forward_lastEnd.bind fun _ => forward_close _

theorem forward_get : Forward (get : Parse Tokens) :=
  .refl

theorem forward_exportDefault (start : Nat) : Forward (exportDefault start) :=
  (forward_consume _).bind fun _ => forward_get.bind fun _ =>
    .ite (forward_exportDefaultDecl start) (forward_exportDefaultExpr start)

theorem consumes_exportItem : Consumes exportItem := by
  refine consumes_bind fun keyword => forward_peek.bind fun t => ?_
  split
  · exact forward_exportAll _
  · exact forward_exportNamed _
  · exact forward_exportDefault _
  · exact forward_exportVariables _
  · exact forward_exportVariables _
  · exact forward_exportVariables _
  · exact forward_exportHoistable _
  · exact forward_exportHoistable _
  · exact forward_exportHoistable _
  · exact forward_fail _

/-- **Reading a module item goes forward**, over at least one token. -/
theorem consumes_moduleItem : Consumes moduleItem := by
  refine ⟨forward_peek.bind fun _ => .ite (consumes_importDecl.1.map _) consumes_exportItem.1,
    keeps_peek.bind_shortens fun t => ?_⟩
  split
  · intro s st s' h
    obtain ⟨decl, hd, -⟩ := map_eq_ok.1 h
    exact consumes_importDecl.2 hd
  · exact consumes_exportItem.2

end ModuleForge.Grammar
