import ModuleForge.Proofs.Items

/-!
# The loops of the grammar

Each round of a loop of the grammar takes a token, so that the checks on the number of tokens left
hold wherever they are made. The loops are what they say without these checks:

- `objectPattern_round`, `arrayPattern_round`, `declarators_round`, `elementsToBrace_round`: the
  lists in patterns, declarations, imports and exports.
- `itemsFrom_eq`: the items of a module, where reading goes on behind a fault.
- `itemsFrom_found`: every statement that is found was read at a place that is reached from the
  start.
-/

namespace ModuleForge.Grammar

open Token (Kind)
open Tokens

variable {s : Tokens} {α : Type}

/-! ## Steps one after another -/

section
variable {α β : Type} {p : Parse α} {k : α → Parse β} {s s' : Tokens}

theorem bind_of_ok {a : α} (h : p s = .ok a s') : (p >>= k) s = k a s' := by
  show EStateM.bind p k s = _
  simp only [EStateM.bind, h]

theorem bind_of_error {e : ParseError} (h : p s = .error e s') : (p >>= k) s = .error e s' := by
  show EStateM.bind p k s = _
  simp only [EStateM.bind, h]

/-- The rounds that follow a round need no check where it has taken a token. -/
theorem loop_eq {γ : Type} {loop : Parse γ} {f : γ → γ} {last : γ} {n : Nat} (hlt : s.left < n) :
    (if s.left < n then mapOk f (loop s) else .ok last s) = (do
      let more ← loop
      pure (f more)) s := by
  rw [if_pos hlt]
  cases h : loop s with
  | error e s' => rw [bind_of_error h]; rfl
  | ok more s' => rw [bind_of_ok h]; rfl

end

/-! ## Steps that take a token -/

theorem left_advance_lt_of_kind (h : s.current.kind ≠ .eof) : s.advance.left < s.left :=
  left_advance_lt (by simpa [atEnd] using h)

theorem kind_ne_eof_of_isIdentifierName {t : Token} (h : t.isIdentifierName = true) :
    t.kind ≠ .eof := by
  simp only [Token.isIdentifierName, Bool.or_eq_true, beq_iff_eq] at h
  rcases h with h | h
  · simp [h]
  · exact (Token.keyword?_kind h).1

/-- Where `t` is the next token, a success leaves fewer tokens. -/
def ShortensAt {α : Type} (t : Token) (p : Parse α) : Prop :=
  ∀ ⦃s a s'⦄, s.current = t → p s = .ok a s' → s'.left < s.left

theorem Shortens.shortensAt {p : Parse α} (h : Shortens p) (t : Token) : ShortensAt t p :=
  fun _ _ _ _ hs => h hs

theorem Keeps.ite {c : Prop} [Decidable c] {p q : Parse α} (hp : Keeps p) (hq : Keeps q) :
    Keeps (if c then p else q) := by
  split
  · exact hp
  · exact hq

theorem keeps_throw (e : ParseError) : Keeps (fun s => .error e s : Parse α) := by
  intro s a s' h
  cases h

/-- A step over the next token, unless it is the end marker, before steps that keep to the rest. -/
theorem shortensAt_skip {t : Token} {k : Unit → Parse α} (ht : t.kind ≠ .eof) (hk : Keeps (k ())) :
    ShortensAt t (skip >>= k) := by
  intro s a s' hs h
  exact Nat.lt_of_le_of_lt (hk h) (left_advance_lt_of_kind (hs ▸ ht))

theorem shortens_property : Shortens property := by
  intro s start s' h
  obtain ⟨key, s1, hkey, h⟩ := bind_eq_ok.1 h
  cases hkey
  refine (?_ : ShortensAt s.current _) rfl h
  split
  · exact shortensAt_skip (by simp [*]) (keeps_pure _)
  · exact (shortens_skipBalanced.bind fun _ => (forward_consume _).keeps.bind fun _ =>
      keeps_pure _).shortensAt _
  · exact shortensAt_skip (by simp [*]) ((shortens_consume _).keeps.bind fun _ => keeps_pure _)
  · exact shortensAt_skip (by simp [*]) ((shortens_consume _).keeps.bind fun _ => keeps_pure _)
  · split
    · rename_i hname
      refine shortensAt_skip (kind_ne_eof_of_isIdentifierName hname) ?_
      exact (keeps_optional _).bind fun _ =>
        .ite (keeps_pure _) (.ite (keeps_pure _) (keeps_throw _))
    · exact fun s a s' _ h => by cases h

theorem shortens_bindingPattern : Shortens bindingPattern := by
  intro s names s' h
  rw [bindingPattern] at h
  split at h
  · cases h
  · rename_i t rest hrest
    have hlt : rest.length < s.left := by simp [Tokens.left, hrest]
    split at h
    · cases h
      exact hlt
    · exact Nat.lt_of_le_of_lt (forward_objectPattern.keeps h) hlt
    · exact Nat.lt_of_le_of_lt (forward_arrayPattern.keeps h) hlt
    · cases h

theorem shortens_exportName : Shortens exportName := by
  intro s name s' h
  simp only [exportName] at h
  split at h
  · rename_i hk
    cases h
    exact left_advance_lt_of_kind (by simp [show s.current.kind = .string by simpa using hk])
  · split at h
    · rename_i hname
      cases h
      exact left_advance_lt_of_kind (kind_ne_eof_of_isIdentifierName hname)
    · cases h

theorem shortens_importSpecifier : Shortens importSpecifier :=
  keeps_peek.bind_shortens fun _ => shortens_exportName.bind fun _ =>
    (keeps_optionalWord _).bind fun _ =>
      .ite (shortens_identifier.keeps.bind fun _ => keeps_pure _)
        (.ite (keeps_pure _) (keeps_throw _))

theorem shortens_exportSpecifier : Shortens exportSpecifier :=
  shortens_exportName.bind fun _ => Forward.keeps ((forward_optionalWord _).bind fun _ =>
    .ite (forward_exportName.bind fun _ => forward_pure _) (forward_pure _))

/-! ## Patterns and lists -/

/-- Reads what a property of an object pattern binds, behind its start. -/
def propertyTarget : Property → Parse (List Name)
  | .shorthand name => pure [name]
  | .target | .restTarget => bindingPattern

/-- Steps over the end of an element of a pattern; only some have a default value. -/
def elementEnd (closing : Kind) : Bool → Parse Unit
  | true => do
    optionalDefault
    separator closing
  | false => separator closing

def Property.hasDefault : Property → Bool
  | .restTarget => false
  | _ => true

theorem keeps_elementEnd (closing : Kind) (hasDefault : Bool) :
    Keeps (elementEnd closing hasDefault) := by
  cases hasDefault
  · exact (forward_separator closing).keeps
  · exact (forward_tail closing).keeps

theorem keeps_propertyTarget (start : Property) : Keeps (propertyTarget start) := by
  cases start with
  | shorthand name => exact keeps_pure _
  | target | restTarget => exact shortens_bindingPattern.keeps

/-- A property of an object pattern, and the pattern behind it. -/
def objectRound : Parse (List Name) := do
  let start ← property
  let names ← propertyTarget start
  elementEnd .rbrace start.hasDefault
  let more ← objectPattern
  pure (names ++ more)

/-- An element of an array pattern, perhaps behind an ellipsis, and the pattern behind it. -/
def arrayRound (isRest : Bool) : Parse (List Name) := do
  let names ← bindingPattern
  elementEnd .rbracket (!isRest)
  let more ← arrayPattern
  pure (names ++ more)

/-- A declarator, and those behind it. -/
def declaratorsRound : Parse (List Name) := do
  let names ← bindingPattern
  optionalDefault
  if ← optional .comma then
    let more ← declarators
    pure (names ++ more)
  else pure names

/-- An element of a list in braces, and those behind it. -/
def bracesRound {α : Type} (element : Parse α) : Parse (List α) := do
  let a ← element
  separator .rbrace
  let more ← elementsToBrace element
  pure (a :: more)

/-- **An object pattern is read property by property**, up to its closing brace. -/
theorem objectPattern_round (h : ¬ (s.check .rbrace || s.atEnd) = true) :
    objectPattern s = objectRound s := by
  unfold objectRound
  cases h1 : property s with
  | error e s1 => rw [objectPattern, if_neg h, h1, bind_of_error h1]
  | ok start s1 =>
    have hlt := shortens_property h1
    have hround {names : List Name} {s2 s3 : Tokens} (h2 : propertyTarget start s1 = .ok names s2)
        (h3 : elementEnd .rbrace start.hasDefault s2 = .ok () s3) : s3.left < s.left :=
      Nat.lt_of_le_of_lt (keeps_elementEnd _ _ h3)
        (Nat.lt_of_le_of_lt (keeps_propertyTarget start h2) hlt)
    rw [bind_of_ok h1, objectPattern, if_neg h, h1]
    cases start with
    | shorthand name =>
      rw [bind_of_ok (p := propertyTarget (.shorthand name)) rfl]
      dsimp only
      split
      · rename_i h3
        exact (bind_of_error h3).symm
      · rename_i s3 h3
        have h3 : elementEnd .rbrace true s1 = .ok () s3 := h3
        exact (loop_eq (hround rfl h3)).trans (bind_of_ok h3 (k := fun _ => _)).symm
    | target | restTarget =>
      dsimp only
      rw [if_pos hlt]
      split
      · rename_i h2
        exact (bind_of_error h2).symm
      · rename_i h2
        refine Eq.trans ?_ (bind_of_ok h2 (k := fun _ => _)).symm
        split
        · rename_i h3
          exact (bind_of_error h3).symm
        · rename_i h3
          exact (loop_eq (hround h2 h3)).trans (bind_of_ok h3 (k := fun _ => _)).symm

/-- **An array pattern is read element by element**, up to its closing bracket. -/
theorem arrayPattern_round (h : ¬ (s.check .rbracket || s.atEnd) = true)
    (hcomma : ¬ s.check .comma = true) :
    arrayPattern s = arrayRound (s.check .ellipsis) (s.advanceIf .ellipsis) := by
  unfold arrayRound
  have hround {names : List Name} {s2 s3 : Tokens}
      (h2 : bindingPattern (s.advanceIf .ellipsis) = .ok names s2)
      (h3 : elementEnd .rbracket (!s.check .ellipsis) s2 = .ok () s3) : s3.left < s.left :=
    Nat.lt_of_le_of_lt (keeps_elementEnd _ _ h3)
      (Nat.lt_of_lt_of_le (shortens_bindingPattern h2) (left_advanceIf_le .ellipsis s))
  rw [arrayPattern, if_neg h, dif_neg hcomma]
  cases h2 : bindingPattern (s.advanceIf .ellipsis) with
  | error e s2 => exact (bind_of_error h2).symm
  | ok names s2 =>
    rw [bind_of_ok h2]
    cases he : s.check .ellipsis with
    | true | false =>
      rw [he] at hround
      dsimp only
      split
      · rename_i h3
        exact (bind_of_error h3).symm
      · rename_i h3
        exact (loop_eq (hround h2 h3)).trans (bind_of_ok h3 (k := fun _ => _)).symm

/-- **Declarators are read one by one**, as long as a comma follows. -/
theorem declarators_round (s : Tokens) : declarators s = declaratorsRound s := by
  rw [declarators, declaratorsRound]
  split
  · rename_i h1
    exact (bind_of_error h1).symm
  · rename_i names s1 h1
    rw [bind_of_ok h1]
    split
    · rename_i h2
      exact (bind_of_error h2).symm
    · rename_i s2 h2
      refine Eq.trans ?_ (bind_of_ok h2 (k := fun _ => _)).symm
      have hlt : s2.advance.left < s.left :=
        Nat.lt_of_le_of_lt (left_advance_le s2)
          (Nat.lt_of_le_of_lt (forward_optionalDefault.keeps h2) (shortens_bindingPattern h1))
      by_cases hcomma : s2.check .comma = true
      · have h3 : optional .comma s2 = .ok true s2.advance := if_pos hcomma
        rw [bind_of_ok h3, if_pos hcomma]
        exact loop_eq hlt
      · have h3 : optional .comma s2 = .ok false s2 := if_neg hcomma
        rw [bind_of_ok h3, if_neg hcomma]
        rfl

theorem shortens_declarators : Shortens declarators := by
  intro s names s' h
  rw [declarators_round] at h
  refine (shortens_bindingPattern.bind fun _ => Forward.keeps ?_) h
  exact forward_optionalDefault.bind fun _ => (forward_optional _).bind fun _ =>
    .ite (forward_declarators.bind fun _ => forward_pure _) (forward_pure _)

/-- **The elements in braces are read one by one**, up to the closing brace. -/
theorem elementsToBrace_round {element : Parse α} (he : Shortens element)
    (h : ¬ (s.check .rbrace || s.atEnd) = true) :
    elementsToBrace element s = bracesRound element s := by
  rw [elementsToBrace, if_neg h, bracesRound]
  split
  · rename_i h1
    exact (bind_of_error h1).symm
  · rename_i a s1 h1
    rw [bind_of_ok h1]
    split
    · rename_i h2
      exact (bind_of_error h2).symm
    · rename_i s2 h2
      have hlt := Nat.lt_of_le_of_lt ((forward_separator _).keeps h2) (he h1)
      exact (loop_eq hlt).trans (bind_of_ok h2 (k := fun _ => _)).symm

/-! ## Module items -/

theorem resumeFrom_reaches (before : Option Token) (rest : List Token) :
    Reaches ⟨before, rest⟩ (resumeFrom before rest) := by
  fun_induction resumeFrom before rest with
  | case1 before => exact .refl _
  | case2 before t rest _ => exact .refl _
  | case3 before t rest hstop ih =>
    simp only [Bool.or_eq_true, beq_iff_eq, not_or] at hstop
    exact .step rfl hstop.1.1 ih

theorem reaches_resume (s : Tokens) : s.Reaches (resume s) :=
  (reaches_advance s).trans (resumeFrom_reaches _ _)

theorem resume_left_lt {s' : Tokens} (hs : s.atEnd = false) (h : s.Reaches s') :
    (resume s').left < s.left := by
  cases hend : s'.atEnd with
  | false =>
    have hle : (resume s').left ≤ s'.advance.left :=
      (resumeFrom_reaches s'.advance.before s'.advance.rest).left_le
    exact Nat.lt_of_lt_of_le (Nat.lt_of_le_of_lt hle (left_advance_lt hend)) h.left_le
  | true =>
    -- the item did not start here, so that it has taken a token
    cases h with
    | refl => rw [hs] at hend; cases hend
    | step hr ht hreach =>
      have hle := Nat.le_trans (reaches_resume s').left_le hreach.left_le
      simp only [Tokens.left, hr, List.length_cons] at hle ⊢
      omega

/-- **The items of a module are read one by one**, and behind a fault reading goes on. -/
theorem itemsFrom_eq (depth : Nat) (s : Tokens) :
    itemsFrom depth s =
      if s.atEnd then []
      else if depth == 0 && atModuleItem s then
        match moduleItem s with
        | .ok st s' => .found s.current.span.start st s'.lastEnd :: itemsFrom 0 s'
        | .error e s' => .failed e :: itemsFrom 0 (resume s')
      else itemsFrom (depthAfter depth s.current.kind) s.advance := by
  rw [itemsFrom]
  split
  · rfl
  rename_i hend
  split
  · cases h : moduleItem s with
    | ok st s' => exact if_pos (consumes_moduleItem.2 h)
    | error e s' =>
      exact if_pos (resume_left_lt (by simpa using hend) (consumes_moduleItem.1.error h).reaches)
  · rfl

/-- **Every statement that is found** was read at a place that is reached from the start. -/
theorem itemsFrom_found {depth start stop : Nat} {st : Statement}
    (h : .found start st stop ∈ itemsFrom depth s) :
    ∃ s' s'', s.Reaches s' ∧ moduleItem s' = .ok st s'' := by
  fun_induction itemsFrom depth s with
  | case1 => cases h
  | case2 depth s hend hitem st' s' hs item hlt ih =>
    rcases List.mem_cons.1 h with h | h
    · obtain ⟨-, rfl, -⟩ := Item.found.inj h
      exact ⟨s, s', .refl s, hs⟩
    · obtain ⟨s1, s2, hr, hs'⟩ := ih h
      exact ⟨s1, s2, (consumes_moduleItem.1.ok hs).trans hr, hs'⟩
  | case3 depth s hend hitem st' s' hs item hlt => exact absurd (consumes_moduleItem.2 hs) hlt
  | case4 depth s hend hitem e s' hs s'' hlt ih =>
    obtain ⟨s1, s2, hr, hs'⟩ := ih (by simpa using h)
    exact ⟨s1, s2, ((consumes_moduleItem.1.error hs).reaches.trans (reaches_resume s')).trans hr, hs'⟩
  | case5 depth s hend hitem e s' hs s'' hlt => simp at h
  | case6 depth s hend hitem hlt ih =>
    obtain ⟨s1, s2, hr, hs'⟩ := ih h
    exact ⟨s1, s2, (reaches_advance s).trans hr, hs'⟩

end ModuleForge.Grammar
