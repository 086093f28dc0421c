import ModuleForge.Proofs.Coverage
import ModuleForge.Proofs.Matched

/-!
# The names that a declaration binds

`Binds form ts names` is the grammar of declarations with patterns: the tokens `ts` have the form
`form` and bind `names`. Reading is complete for it: whatever the grammar allows is read to its end,
and the names that are found are the names that are bound (`Binds.reads`). So an exported
declaration exports what it binds, no more and no less.
-/

namespace ModuleForge.Grammar

open Token (Kind)
open Tokens

/-! ## The grammar -/

/-- `= value`, or nothing. The value is on one line, and has its brackets matched. -/
inductive OptionalValue : List Token → Prop
  | none : OptionalValue []
  | value {sign : Token} {value : List Token} : sign.kind = .assign → Matched isOperand value →
      value ≠ [] → (∀ t ∈ value, t.newlineBefore = false) → OptionalValue (sign :: value)

/-- The key of a property: a word, a string, a number, or anything with matched brackets in square
brackets. -/
inductive PropertyKey : List Token → Prop
  | name {t : Token} : t.isIdentifierName = true → PropertyKey [t]
  | literal {t : Token} : t.kind = .string ∨ t.kind = .number → PropertyKey [t]
  | computed {opening closing : Token} {key : List Token} : opening.kind = .lbracket →
      closing.kind = .rbracket → Matched (fun _ => true) key → key ≠ [] →
      PropertyKey (opening :: (key ++ [closing]))

/-- The forms of tokens in declarations: a pattern, the inside of an object or array pattern, a list
of declarators; and what may follow a property, an element or a declarator in each of these. -/
inductive Form where
  | pattern
  | properties
  | moreProperties
  | elements
  | moreElements
  | declarators
  | moreDeclarators

/-- The name that an identifier binds. -/
def boundName (t : Token) : Name := ⟨t.value, t.span⟩

/-- The grammar of declarations, with the names that are bound. -/
inductive Binds : Form → List Token → List Name → Prop
  | identifier {t : Token} : t.kind = .identifier → Binds .pattern [t] [boundName t]
  | object {opening closing : Token} {ts : List Token} {names : List Name} :
      opening.kind = .lbrace → closing.kind = .rbrace → Binds .properties ts names →
      Binds .pattern (opening :: (ts ++ [closing])) names
  | array {opening closing : Token} {ts : List Token} {names : List Name} :
      opening.kind = .lbracket → closing.kind = .rbracket → Binds .elements ts names →
      Binds .pattern (opening :: (ts ++ [closing])) names
  | noProperties : Binds .properties [] []
  /-- `name`, `name = value` -/
  | shorthand {t : Token} {value more : List Token} {names : List Name} : t.kind = .identifier →
      OptionalValue value → Binds .moreProperties more names →
      Binds .properties (t :: (value ++ more)) (boundName t :: names)
  /-- `key: pattern`, `key: pattern = value` -/
  | keyed {colon : Token} {key target value more : List Token} {bound names : List Name} :
      PropertyKey key → colon.kind = .colon → Binds .pattern target bound → OptionalValue value →
      Binds .moreProperties more names →
      Binds .properties (key ++ colon :: (target ++ (value ++ more))) (bound ++ names)
  /-- `...pattern` -/
  | restProperty {dots : Token} {target more : List Token} {bound names : List Name} :
      dots.kind = .ellipsis → Binds .pattern target bound → Binds .moreProperties more names →
      Binds .properties (dots :: (target ++ more)) (bound ++ names)
  | lastProperty : Binds .moreProperties [] []
  | nextProperty {comma : Token} {ts : List Token} {names : List Name} : comma.kind = .comma →
      Binds .properties ts names → Binds .moreProperties (comma :: ts) names
  | noElements : Binds .elements [] []
  | hole {comma : Token} {ts : List Token} {names : List Name} : comma.kind = .comma →
      Binds .elements ts names → Binds .elements (comma :: ts) names
  /-- `pattern`, `pattern = value` -/
  | element {target value more : List Token} {bound names : List Name} :
      Binds .pattern target bound → OptionalValue value → Binds .moreElements more names →
      Binds .elements (target ++ (value ++ more)) (bound ++ names)
  /-- `...pattern` -/
  | restElement {dots : Token} {target more : List Token} {bound names : List Name} :
      dots.kind = .ellipsis → Binds .pattern target bound → Binds .moreElements more names →
      Binds .elements (dots :: (target ++ more)) (bound ++ names)
  | lastElement : Binds .moreElements [] []
  | nextElement {comma : Token} {ts : List Token} {names : List Name} : comma.kind = .comma →
      Binds .elements ts names → Binds .moreElements (comma :: ts) names
  /-- `pattern`, `pattern = value` -/
  | declarator {target value more : List Token} {bound names : List Name} :
      Binds .pattern target bound → OptionalValue value → Binds .moreDeclarators more names →
      Binds .declarators (target ++ (value ++ more)) (bound ++ names)
  | lastDeclarator : Binds .moreDeclarators [] []
  | nextDeclarator {comma : Token} {ts : List Token} {names : List Name} : comma.kind = .comma →
      Binds .declarators ts names → Binds .moreDeclarators (comma :: ts) names

/-! ## Values and keys -/

section

variable {ts us rest key more target value : List Token} {names bound : List Name}
    {list : Parse (List Name)} {comma dots t : Token} {closing : Kind}

theorem takes_optionalDefault (h : OptionalValue value) {next : Token}
    (hnext : stopsExpression true next.kind = true) (hassign : next.kind ≠ .assign)
    (rest : List Token) : Takes optionalDefault value (next :: rest) () := by
  cases h with
  | none =>
    refine (takes_optional_other hassign (by decide) rest).bind_nil ?_
    exact takes_pure () (next :: rest)
  | value hsign hmatched hne hline =>
    refine (takes_optional hsign (by decide) _).bind_cons ?_
    exact takes_skipExpression hmatched continues_isOperand hne hline hnext rest

theorem kind_of_isIdentifierName (h : t.isIdentifierName = true) :
    t.kind ∉ [Kind.ellipsis, .lbracket, .string, .number, .rbrace, .eof] := by
  have hkeywords : ∀ p ∈ Token.keywords,
      p.2 ∉ [Kind.ellipsis, .lbracket, .string, .number, .rbrace, .eof] := by decide
  simp only [Token.isIdentifierName, Bool.or_eq_true, beq_iff_eq] at h
  obtain h | h := h
  · simp [h]
  · obtain ⟨before, after, hsplit, -⟩ := List.lookup_eq_some_iff.1 h
    exact hkeywords (t.value, t.kind) (by simp [hsplit])

theorem takes_property_rest (h : dots.kind = .ellipsis) (rest : List Token) :
    Takes property [dots] rest .restTarget := by
  refine (takes_peek dots rest).bind_nil ?_
  simp only [h]
  exact (takes_skip (by simp [h]) rest).bind_cons (takes_pure _ _)

theorem takes_property_shorthand {next : Token} (h : t.kind = .identifier)
    (hnext : next.kind ≠ .colon) (rest : List Token) :
    Takes property [t] (next :: rest) (.shorthand (boundName t)) := by
  refine (takes_peek t (next :: rest)).bind_nil ?_
  simp only [h, Token.isIdentifierName, beq_self_eq_true, Bool.true_or, if_true]
  refine (takes_skip (by simp [h]) _).bind_cons ?_
  exact (takes_optional_other hnext (by decide) rest).bind_nil (takes_pure _ _)

theorem takes_property_key (h : PropertyKey key) {colon : Token} (hcolon : colon.kind = .colon)
    (rest : List Token) : Takes property (key ++ [colon]) rest .target := by
  have htarget : Takes (consume .colon >>= fun _ => pure Property.target) [colon] rest .target :=
    (takes_consume hcolon (by decide) _).bind_cons (takes_pure _ _)
  cases h with
  | @name t hname =>
    have hkind := kind_of_isIdentifierName hname
    refine (takes_peek t _).bind_nil ?_
    split
    · simp_all
    · simp_all
    · simp_all
    · simp_all
    · rw [if_pos hname]
      refine (takes_skip (by simp_all) _).bind_cons ?_
      exact (takes_optional hcolon (by decide) _).bind_cons (takes_pure _ _)
  | @literal t hliteral =>
    refine (takes_peek t _).bind_nil ?_
    obtain hkind | hkind := hliteral
    · simp only [hkind]
      exact (takes_skip (by simp [hkind]) _).bind_cons htarget
    · simp only [hkind]
      exact (takes_skip (by simp [hkind]) _).bind_cons htarget
  | @computed opening closing key hopening hclosing hmatched _ =>
    refine (takes_peek opening _).bind_nil ?_
    simp only [hopening]
    exact (takes_skipBalanced (by simp [hopening, hclosing, Kind.closing?]) hmatched _).bind htarget

/-! ## Reading -/

theorem takes_separator_comma (h : comma.kind = .comma) (hclosing : closing.isClose = true)
    (rest : List Token) : Takes (separator closing) [comma] rest () := by
  intro before
  have hne : closing ≠ .comma := by rintro rfl; cases hclosing
  rw [separator, List.singleton_append, check_cons (kind_ne_eof_of_isClose hclosing),
    if_neg (by simpa [h] using hne.symm)]
  exact seqRight_eq_ok.2 ⟨comma, _, takes_consume h (by decide) rest before, rfl⟩

theorem takes_separator_closing {closing : Token} (h : closing.kind.isClose = true)
    (rest : List Token) : Takes (separator closing.kind) [] (closing :: rest) () := by
  intro before
  rw [separator, List.nil_append, check_cons (kind_ne_eof_of_isClose h), if_pos (by simp)]
  rfl

/-- Tokens that are read by `list`, up to a closing mark. -/
def ReadsList (closing : Kind) (list : Parse (List Name)) (ts : List Token) (names : List Name) :
    Prop :=
  ∀ last rest, last.kind = closing → Takes list (ts ++ [last]) rest names

/-- Tokens behind an element of a list: a separator is read, and then what follows it. -/
def ReadsMore (closing : Kind) (list : Parse (List Name)) (ts : List Token) (names : List Name) :
    Prop :=
  ∀ last rest, last.kind = closing → ∃ next sep after, ts ++ [last] = sep ++ after ∧
    (∃ tail, ts ++ [last] = next :: tail) ∧ (next.kind = .comma ∨ next.kind = closing) ∧
    Takes (separator closing) sep (after ++ rest) () ∧ Takes list after rest names

/-- Behind a declarator: the mark that follows it, and what is read from there on. -/
def ReadsDeclarators (ts : List Token) (names : List Name) : Prop :=
  ∀ last rest, last.kind = .semicolon →
    (∃ next tail, ts ++ last :: rest = next :: tail ∧
      (next.kind = .comma ∨ next.kind = .semicolon)) ∧
    ∀ bound, Takes (do
      if ← optional .comma then
        let more ← declarators
        pure (bound ++ more)
      else pure bound) ts (last :: rest) (bound ++ names)

theorem readsMore_last (hclosing : closing.isClose = true) (h : ReadsList closing list [] []) :
    ReadsMore closing list [] [] := by
  intro last rest hlast
  refine ⟨last, [], [last], rfl, ⟨[], rfl⟩, .inr hlast, ?_, h last rest hlast⟩
  subst hlast
  exact takes_separator_closing hclosing rest

theorem readsMore_next (hclosing : closing.isClose = true) (hcomma : comma.kind = .comma)
    (h : ReadsList closing list ts names) : ReadsMore closing list (comma :: ts) names := by
  intro last rest hlast
  exact ⟨comma, [comma], ts ++ [last], rfl, ⟨_, rfl⟩, .inl hcomma,
    takes_separator_comma hcomma hclosing _, h last rest hlast⟩

theorem ReadsMore.takes_value (hclosing : closing.isClose = true)
    (h : ReadsMore closing list more names) (hvalue : OptionalValue value) {last : Token}
    (hlast : last.kind = closing) (bound : List Name) (rest : List Token) :
    Takes (do
      elementEnd closing true
      let found ← list
      pure (bound ++ found)) (value ++ (more ++ [last])) rest (bound ++ names) := by
  obtain ⟨next, sep, after, hsplit, ⟨tail, htail⟩, hnext, hsep, hlist⟩ := h last rest hlast
  have hstops : stopsExpression true next.kind = true ∧ next.kind ≠ .assign := by
    obtain hnext | hnext := hnext
    · simp [hnext, stopsExpression]
    · refine ⟨by simp [stopsExpression, hnext, hclosing], ?_⟩
      rintro hassign
      rw [hnext] at hassign
      simp [hassign, Kind.isClose] at hclosing
  have hdefault : Takes optionalDefault value (sep ++ (after ++ rest)) () := by
    have hrest : sep ++ (after ++ rest) = next :: (tail ++ rest) := by
      rw [← List.append_assoc, ← hsplit, htail, List.cons_append]
    rw [hrest]
    exact takes_optionalDefault hvalue hstops.1 hstops.2 _
  rw [hsplit, ← List.append_assoc]
  refine Takes.bind (hdefault.bind hsep) ?_
  exact hlist.bind_pure (bound ++ ·)

theorem ReadsMore.takes_noValue (h : ReadsMore closing list more names) {last : Token}
    (hlast : last.kind = closing) (bound : List Name) (rest : List Token) :
    Takes (do
      elementEnd closing false
      let found ← list
      pure (bound ++ found)) (more ++ [last]) rest (bound ++ names) := by
  obtain ⟨-, sep, after, hsplit, -, -, hsep, hlist⟩ := h last rest hlast
  rw [hsplit]
  exact Takes.bind hsep (hlist.bind_pure (bound ++ ·))

/-! ### Object patterns -/

theorem readsList_noProperties : ReadsList .rbrace objectPattern [] [] := by
  intro last rest hlast before
  rw [List.nil_append, List.singleton_append, objectPattern, check_cons (by decide),
    if_pos (by simp [hlast])]
  exact seqRight_eq_ok.2 ⟨last, _, takes_consume hlast (by decide) rest before, rfl⟩

/-- The tokens start with one that does not end an object pattern. -/
def StartsProperty (ts : List Token) : Prop :=
  ∃ t tail, ts = t :: tail ∧ t.kind ≠ .rbrace ∧ t.kind ≠ .eof

/-- A property is read from its start to what follows it. -/
theorem takes_objectPattern {key target tail : List Token} {start : Property}
    {bound all : List Name} (hhead : StartsProperty key)
    (hstart : Takes property key (target ++ tail ++ rest) start)
    (htarget : Takes (propertyTarget start) target (tail ++ rest) bound)
    (htail : Takes (do
      elementEnd .rbrace start.hasDefault
      let found ← objectPattern
      pure (bound ++ found)) tail rest all) :
    Takes objectPattern (key ++ (target ++ tail)) rest all := by
  intro before
  obtain ⟨t, more, rfl, hbrace, heof⟩ := hhead
  rw [objectPattern_round]
  · refine Takes.bind hstart ?_ before
    exact Takes.bind htarget htail
  · rw [List.append_assoc, List.cons_append, check_cons (by decide)]
    simp [atEnd, current, hbrace, heof]

theorem PropertyKey.startsProperty (h : PropertyKey key) (ts : List Token) :
    StartsProperty (key ++ ts) := by
  cases h with
  | @name t hname =>
    have hkind := kind_of_isIdentifierName hname
    exact ⟨t, ts, rfl, by simp_all⟩
  | @literal t hliteral =>
    refine ⟨t, ts, rfl, ?_⟩
    obtain h | h := hliteral <;> simp [h]
  | @computed opening closing key hopening => exact ⟨opening, _, rfl, by simp [hopening]⟩

theorem readsList_shorthand (h : t.kind = .identifier) (hvalue : OptionalValue value)
    (hmore : ReadsMore .rbrace objectPattern more names) :
    ReadsList .rbrace objectPattern (t :: (value ++ more)) (boundName t :: names) := by
  intro last rest hlast
  have hnext : ∃ next tail,
      value ++ (more ++ [last]) ++ rest = next :: tail ∧ next.kind ≠ .colon := by
    cases hvalue with
    | none =>
      obtain ⟨next, -, -, -, ⟨tail, htail⟩, hnext, -⟩ := hmore last rest hlast
      refine ⟨next, tail ++ rest, by rw [List.nil_append, htail, List.cons_append], ?_⟩
      obtain hnext | hnext := hnext <;> simp [hnext]
    | @value sign value hsign => exact ⟨sign, _, rfl, by simp [hsign]⟩
  obtain ⟨next, tail, hsplit, hcolon⟩ := hnext
  have hproperty : Takes property [t] ([] ++ (value ++ (more ++ [last])) ++ rest)
      (.shorthand (boundName t)) := by
    rw [List.nil_append, hsplit]
    exact takes_property_shorthand h hcolon tail
  have hread := takes_objectPattern ⟨t, [], rfl, by simp [h]⟩ hproperty (takes_pure _ _)
    (hmore.takes_value rfl hvalue hlast [boundName t] rest)
  simpa only [List.append_assoc, List.cons_append, List.nil_append] using hread

theorem readsList_keyed {colon : Token} (hkey : PropertyKey key) (hcolon : colon.kind = .colon)
    (htarget : ∀ rest, Takes bindingPattern target rest bound) (hvalue : OptionalValue value)
    (hmore : ReadsMore .rbrace objectPattern more names) :
    ReadsList .rbrace objectPattern (key ++ colon :: (target ++ (value ++ more)))
      (bound ++ names) := by
  intro last rest hlast
  have hread := takes_objectPattern (hkey.startsProperty [colon]) (takes_property_key hkey hcolon _)
    (htarget _) (hmore.takes_value rfl hvalue hlast bound rest)
  simpa only [List.append_assoc, List.cons_append, List.nil_append] using hread

theorem readsList_restProperty (hdots : dots.kind = .ellipsis)
    (htarget : ∀ rest, Takes bindingPattern target rest bound)
    (hmore : ReadsMore .rbrace objectPattern more names) :
    ReadsList .rbrace objectPattern (dots :: (target ++ more)) (bound ++ names) := by
  intro last rest hlast
  have hread := takes_objectPattern ⟨dots, [], rfl, by simp [hdots]⟩ (takes_property_rest hdots _)
    (htarget _) (hmore.takes_noValue hlast bound rest)
  simpa only [List.append_assoc, List.cons_append, List.nil_append] using hread

/-! ### Array patterns -/

theorem readsList_noElements : ReadsList .rbracket arrayPattern [] [] := by
  intro last rest hlast before
  rw [List.nil_append, List.singleton_append, arrayPattern, check_cons (by decide),
    if_pos (by simp [hlast])]
  exact seqRight_eq_ok.2 ⟨last, _, takes_consume hlast (by decide) rest before, rfl⟩

theorem arrayPattern_comma (h : comma.kind = .comma) (before : Option Token) (rest : List Token) :
    arrayPattern ⟨before, comma :: rest⟩ = arrayPattern ⟨some comma, rest⟩ := by
  rw [arrayPattern, if_neg, dif_pos]
  · exact congrArg arrayPattern (advance_cons (by simp [h]))
  · rw [check_cons (by decide)]
    simp [h]
  · rw [check_cons (by decide)]
    simp [atEnd, current, h]

/-- An element is neither the end of an array pattern nor a hole. -/
theorem arrayPattern_cons (h : t.kind ∉ [Kind.rbracket, .comma, .eof]) (before : Option Token)
    (rest : List Token) :
    arrayPattern ⟨before, t :: rest⟩ =
      arrayRound (t.kind == .ellipsis)
        (if t.kind == .ellipsis then ⟨some t, rest⟩ else ⟨before, t :: rest⟩) := by
  have heof : t.kind ≠ .eof := by simp_all
  rw [arrayPattern_round, advanceIf, check_cons (by decide), advance_cons heof]
  · rw [check_cons (by decide)]
    simp_all [atEnd, current]
  · rw [check_cons (by decide)]
    simp_all

/-- An element is read from its pattern to what follows it. -/
theorem takes_arrayRound {target tail : List Token} {isRest : Bool} {bound all : List Name}
    (htarget : Takes bindingPattern target (tail ++ rest) bound)
    (htail : Takes (do
      elementEnd .rbracket (!isRest)
      let found ← arrayPattern
      pure (bound ++ found)) tail rest all) :
    Takes (arrayRound isRest) (target ++ tail) rest all :=
  Takes.bind htarget htail

theorem readsList_hole (hcomma : comma.kind = .comma)
    (h : ReadsList .rbracket arrayPattern ts names) :
    ReadsList .rbracket arrayPattern (comma :: ts) names := by
  intro last rest hlast before
  rw [List.cons_append, List.cons_append, arrayPattern_comma hcomma, h last rest hlast]
  rfl

/-- The tokens of a pattern start with one that can start a pattern. -/
def StartsPattern (ts : List Token) : Prop :=
  ∃ t tail, ts = t :: tail ∧ t.kind ∈ [Kind.identifier, .lbrace, .lbracket]

theorem readsList_element (hstart : StartsPattern target)
    (htarget : ∀ rest, Takes bindingPattern target rest bound) (hvalue : OptionalValue value)
    (hmore : ReadsMore .rbracket arrayPattern more names) :
    ReadsList .rbracket arrayPattern (target ++ (value ++ more)) (bound ++ names) := by
  intro last rest hlast before
  have hround : Takes (arrayRound false) (target ++ (value ++ (more ++ [last]))) rest
      (bound ++ names) :=
    takes_arrayRound (htarget _) (hmore.takes_value rfl hvalue hlast bound rest)
  obtain ⟨t, tail, rfl, hkind⟩ := hstart
  have hother : t.kind ∉ [Kind.rbracket, .comma, .eof] ∧ (t.kind == .ellipsis) = false := by
    simp only [List.mem_cons, List.not_mem_nil, or_false] at hkind
    obtain h | h | h := hkind <;> simp [h]
  have hread := hround before
  simp only [List.append_assoc, List.cons_append] at hread ⊢
  rw [arrayPattern_cons hother.1, hother.2]
  exact hread

theorem readsList_restElement (hdots : dots.kind = .ellipsis)
    (htarget : ∀ rest, Takes bindingPattern target rest bound)
    (hmore : ReadsMore .rbracket arrayPattern more names) :
    ReadsList .rbracket arrayPattern (dots :: (target ++ more)) (bound ++ names) := by
  intro last rest hlast before
  have hround : Takes (arrayRound true) (target ++ (more ++ [last])) rest (bound ++ names) :=
    takes_arrayRound (htarget _) (hmore.takes_noValue hlast bound rest)
  rw [List.cons_append, List.append_assoc target, List.cons_append,
    arrayPattern_cons (by simp [hdots]), beq_iff_eq.2 hdots]
  exact hround (some dots)

/-! ### Declarators -/

theorem readsDeclarators_last : ReadsDeclarators [] [] := by
  intro last rest hlast
  refine ⟨⟨last, rest, rfl, .inr hlast⟩, fun bound => ?_⟩
  refine (takes_optional_other (by simp [hlast]) (by decide) rest).bind_nil ?_
  rw [List.append_nil]
  exact takes_pure bound _

theorem readsDeclarators_next (hcomma : comma.kind = .comma)
    (h : ∀ last rest, last.kind = .semicolon → Takes declarators ts (last :: rest) names) :
    ReadsDeclarators (comma :: ts) names := by
  intro last rest hlast
  refine ⟨⟨comma, _, rfl, .inl hcomma⟩, fun bound => ?_⟩
  refine (takes_optional hcomma (by decide) _).bind_cons ?_
  exact (h last rest hlast).bind_pure (bound ++ ·)

theorem takes_declarators (htarget : ∀ rest, Takes bindingPattern target rest bound)
    (hvalue : OptionalValue value) (hmore : ReadsDeclarators more names) {last : Token}
    (hlast : last.kind = .semicolon) (rest : List Token) :
    Takes declarators (target ++ (value ++ more)) (last :: rest) (bound ++ names) := by
  obtain ⟨⟨next, tail, hsplit, hnext⟩, hread⟩ := hmore last rest hlast
  have hstops : stopsExpression true next.kind = true ∧ next.kind ≠ .assign := by
    obtain hnext | hnext := hnext <;> simp [hnext, stopsExpression]
  have hdefault : Takes optionalDefault value (more ++ last :: rest) () :=
    hsplit ▸ takes_optionalDefault hvalue hstops.1 hstops.2 tail
  intro before
  rw [declarators_round]
  refine Takes.bind (htarget _) ?_ before
  exact Takes.bind hdefault (hread bound)

/-! ### All forms -/

/-- What is read of tokens of a form. -/
def Form.Reads (ts : List Token) (names : List Name) : Form → Prop
  | .pattern => StartsPattern ts ∧ ∀ rest, Takes bindingPattern ts rest names
  | .properties => ReadsList .rbrace objectPattern ts names
  | .moreProperties => ReadsMore .rbrace objectPattern ts names
  | .elements => ReadsList .rbracket arrayPattern ts names
  | .moreElements => ReadsMore .rbracket arrayPattern ts names
  | .declarators => ∀ last rest, last.kind = .semicolon →
      Takes Grammar.declarators ts (last :: rest) names
  | .moreDeclarators => ReadsDeclarators ts names

theorem takes_bindingPattern_identifier (h : t.kind = .identifier) (rest : List Token) :
    Takes bindingPattern [t] rest [boundName t] := by
  intro before
  rw [List.singleton_append, bindingPattern]
  simp only [h]
  rfl

theorem takes_bindingPattern_object {opening closing : Token} (hopening : opening.kind = .lbrace)
    (hclosing : closing.kind = .rbrace) (h : ReadsList .rbrace objectPattern ts names)
    (rest : List Token) : Takes bindingPattern (opening :: (ts ++ [closing])) rest names := by
  intro before
  rw [List.cons_append, bindingPattern]
  simp only [hopening]
  exact h closing rest hclosing (some opening)

theorem takes_bindingPattern_array {opening closing : Token} (hopening : opening.kind = .lbracket)
    (hclosing : closing.kind = .rbracket) (h : ReadsList .rbracket arrayPattern ts names)
    (rest : List Token) : Takes bindingPattern (opening :: (ts ++ [closing])) rest names := by
  intro before
  rw [List.cons_append, bindingPattern]
  simp only [hopening]
  exact h closing rest hclosing (some opening)

/-- **Whatever the grammar allows is read**, and the names found are the names bound. -/
theorem Binds.reads {form : Form} (h : Binds form ts names) : form.Reads ts names := by
  induction h with
  | identifier ht => exact ⟨⟨_, _, rfl, by simp [ht]⟩, takes_bindingPattern_identifier ht⟩
  | object hopening hclosing _ ih =>
    exact ⟨⟨_, _, rfl, by simp [hopening]⟩, takes_bindingPattern_object hopening hclosing ih⟩
  | array hopening hclosing _ ih =>
    exact ⟨⟨_, _, rfl, by simp [hopening]⟩, takes_bindingPattern_array hopening hclosing ih⟩
  | noProperties => exact readsList_noProperties
  | shorthand ht hvalue _ ih => exact readsList_shorthand ht hvalue ih
  | keyed hkey hcolon _ hvalue _ ihtarget ih =>
    exact readsList_keyed hkey hcolon ihtarget.2 hvalue ih
  | restProperty hdots _ _ ihtarget ih => exact readsList_restProperty hdots ihtarget.2 ih
  | lastProperty => exact readsMore_last rfl readsList_noProperties
  | nextProperty hcomma _ ih => exact readsMore_next rfl hcomma ih
  | noElements => exact readsList_noElements
  | hole hcomma _ ih => exact readsList_hole hcomma ih
  | element _ hvalue _ ihtarget ih => exact readsList_element ihtarget.1 ihtarget.2 hvalue ih
  | restElement hdots _ _ ihtarget ih => exact readsList_restElement hdots ihtarget.2 ih
  | lastElement => exact readsMore_last rfl readsList_noElements
  | nextElement hcomma _ ih => exact readsMore_next rfl hcomma ih
  | declarator _ hvalue _ ihtarget ih =>
    exact fun last rest hlast => takes_declarators ihtarget.2 hvalue ih hlast rest
  | lastDeclarator => exact readsDeclarators_last
  | nextDeclarator hcomma _ ih => exact readsDeclarators_next hcomma ih

/-! ## Exported declarations -/

theorem takes_close {α : Type} {semicolon : Token} (h : semicolon.kind = .semicolon) (f : Nat → α)
    (rest : List Token) :
    Takes (do
      optionalSemicolon
      let stop ← lastEnd
      pure (f stop)) [semicolon] rest (f semicolon.span.stop) := by
  have hoptional : Takes optionalSemicolon [semicolon] rest () :=
    (takes_optional h (by decide) rest).bind_pure fun _ => ()
  intro before
  rw [bind_of_ok (hoptional before)]
  rfl

/-- The statement for `export var ...`, which ends at `stop`. -/
def exportedVariables (first keyword : Token) (names : List Name) (stop : Nat) : Statement :=
  .exportDecl
    { kind := .var, decl := ⟨keyword.span.start, stop⟩, names, span := ⟨first.span.start, stop⟩ }

variable {first keyword semicolon : Token}

theorem takes_moduleItem_variables (hfirst : first.kind = .kwExport)
    (hkeyword : keyword.kind ∈ [Kind.kwVar, .kwLet, .kwConst])
    (hsemicolon : semicolon.kind = .semicolon) (h : Binds .declarators ts names)
    (rest : List Token) :
    Takes moduleItem (first :: keyword :: (ts ++ [semicolon])) rest
      (exportedVariables first keyword names semicolon.span.stop) := by
  have hvariables : Takes (exportVariables first.span.start) (keyword :: (ts ++ [semicolon])) rest
      (exportedVariables first keyword names semicolon.span.stop) := by
    have hkind : keyword.kind ≠ .eof := fun heof => by simp [heof] at hkeyword
    refine (takes_peek keyword _).bind_nil ?_
    refine (takes_skip hkind _).bind_cons ?_
    refine Takes.bind (h.reads semicolon rest hsemicolon) ?_
    exact takes_close hsemicolon (exportedVariables first keyword names) rest
  refine (takes_peek first _).bind_nil ?_
  rw [if_neg (by simp [hfirst])]
  refine (takes_consume hfirst (by decide) _).bind_cons ?_
  refine (takes_peek keyword _).bind_nil ?_
  simp only [List.mem_cons, List.not_mem_nil, or_false] at hkeyword
  obtain hkind | hkind | hkind := hkeyword <;> simpa only [hkind] using hvariables

theorem itemsFrom_of_takes {item : Statement} (hfirst : first.kind = .kwExport) {last stop : Token}
    (hstop : stop.kind = .eof)
    (h : Takes moduleItem (first :: (ts ++ [last])) [stop] item) :
    itemsFrom 0 ⟨none, first :: (ts ++ [last]) ++ [stop]⟩ =
      [.found first.span.start item last.span.stop] := by
  have hcurrent : current ⟨none, first :: (ts ++ [last]) ++ [stop]⟩ = first := rfl
  have hlast : lastOf none (first :: (ts ++ [last])) = some last := by
    rw [lastOf, lastOf_append]
    rfl
  rw [itemsFrom_eq, if_neg (by rw [atEnd, hcurrent, hfirst]; decide),
    if_pos (by rw [atModuleItem, hcurrent, hfirst]; rfl), h none, hcurrent, hlast]
  dsimp only
  rw [itemsFrom_eq, if_pos (by simp [atEnd, current, hstop])]
  rfl

theorem exists_withEnd {last : Token} (hlast : last.kind ≠ .eof) (ends : Option Token)
    (hends : ∀ t ∈ ends, t.kind = .eof) (ts : List Token) :
    ∃ stop, stop.kind = .eof ∧ stop.span.stop = (ends.map (·.span.stop)).getD last.span.stop ∧
      withEnd (ts ++ [last] ++ ends.toList) = ts ++ [last] ++ [stop] := by
  cases ends with
  | none =>
    refine ⟨{ kind := .eof, span := ⟨last.span.stop, last.span.stop⟩, value := "" }, rfl, rfl, ?_⟩
    rw [Option.toList_none, List.append_nil, withEnd, List.getLast?_concat]
    exact if_neg (by simpa using hlast)
  | some stop =>
    refine ⟨stop, hends stop rfl, rfl, ?_⟩
    rw [Option.toList_some, withEnd, List.getLast?_concat]
    exact if_pos (by simpa using hends stop rfl)

/-- A module of one export consists of it and the gaps around it, and can be read unless a text in
it is no token. -/
theorem parseTokens_of_takes {item : Statement} {last : Token} (ts : List Token)
    (hfirst : first.kind = .kwExport) (hlast : last.kind ≠ .eof)
    (h : ∀ rest, Takes moduleItem (first :: (ts ++ [last])) rest item)
    (ends : Option Token) (hends : ∀ t ∈ ends, t.kind = .eof) :
    ∃ p : Program,
      p.statements = gap 0 first.span.start ++
        item :: gap last.span.stop ((ends.map (·.span.stop)).getD last.span.stop) ∧
      parseTokens (first :: (ts ++ [last]) ++ ends.toList) =
        if lexicalErrors (first :: (ts ++ [last])) = [] then .ok p
        else .error (lexicalErrors (first :: (ts ++ [last]))) := by
  obtain ⟨stop, hstop, hspan, hend⟩ := exists_withEnd hlast ends hends (first :: ts)
  rw [List.cons_append] at hend
  have hlexical : lexicalErrors (first :: (ts ++ [last]) ++ [stop]) =
      lexicalErrors (first :: (ts ++ [last])) := by
    rw [lexicalErrors, List.filterMap_append]
    simp [lexicalErrors, hstop]
  have hlists := assemble_lists (Program.lists_empty ⟨0, stop.span.stop⟩) stop.span.stop 0
    [.found first.span.start item last.span.stop]
  refine ⟨_, hlists.statements.trans ?_, ?_⟩
  · rw [← hspan]
    rfl
  · rw [parseTokens, hend, hlexical, itemsFrom_of_takes hfirst hstop (h _)]
    simp only [List.isEmpty_iff, List.getLast?_concat]
    rfl

/-- **An exported declaration exports what it binds.** Whatever declarators the grammar allows,
`export var ...;` is read as one statement up to its semicolon, whose names are the names bound, in
order. A module of this statement alone consists of it and the gaps around it, and can be read
unless a text in it is no token. -/
theorem parseTokens_exportedVariables (first keyword semicolon : Token)
    (hfirst : first.kind = .kwExport) (hkeyword : keyword.kind ∈ [Kind.kwVar, .kwLet, .kwConst])
    (hsemicolon : semicolon.kind = .semicolon) (h : Binds .declarators ts names)
    (ends : Option Token) (hends : ∀ t ∈ ends, t.kind = .eof) :
    (∀ before rest, moduleItem ⟨before, first :: keyword :: (ts ++ [semicolon]) ++ rest⟩ =
      .ok (exportedVariables first keyword names semicolon.span.stop) ⟨some semicolon, rest⟩) ∧
    ∃ p : Program,
      p.statements = gap 0 first.span.start ++
        exportedVariables first keyword names semicolon.span.stop ::
          gap semicolon.span.stop ((ends.map (·.span.stop)).getD semicolon.span.stop) ∧
      parseTokens (first :: keyword :: (ts ++ [semicolon]) ++ ends.toList) =
        if lexicalErrors (first :: keyword :: (ts ++ [semicolon])) = [] then .ok p
        else .error (lexicalErrors (first :: keyword :: (ts ++ [semicolon]))) := by
  have htakes := takes_moduleItem_variables hfirst hkeyword hsemicolon h
  have heof : semicolon.kind ≠ .eof := by simp [hsemicolon]
  refine ⟨fun before rest => ?_,
    parseTokens_of_takes (keyword :: ts) hfirst heof htakes ends hends⟩
  rw [htakes rest before, lastOf, lastOf, lastOf_append]
  rfl

end

/-- A token that stands at an offset. -/
def placed (start : Nat) (kind : Kind) (value : String) : Token :=
  { kind, value, span := ⟨start, start + value.utf8ByteSize⟩ }

/-- `[b = f(x, y), , ...c]` -/
def nestedArray : List Token :=
  placed 24 .lbracket "[" :: ([placed 25 .identifier "b", placed 27 .assign "=",
    placed 29 .identifier "f", placed 30 .lparen "(", placed 31 .identifier "x",
    placed 32 .comma ",", placed 34 .identifier "y", placed 35 .rparen ")", placed 36 .comma ",",
    placed 38 .comma ",", placed 40 .ellipsis "...", placed 43 .identifier "c"] ++
    [placed 44 .rbracket "]"])

/-- A pattern with `a`, `default: [b = f(x, y), , ...c]` and `[k]: d` in braces. -/
def nestedObject : List Token :=
  placed 11 .lbrace "\x7b" :: (placed 12 .identifier "a" :: placed 13 .comma "," ::
    placed 15 .kwDefault "default" :: placed 22 .colon ":" :: (nestedArray ++
      [placed 45 .comma ",", placed 47 .lbracket "[", placed 48 .identifier "k",
        placed 49 .rbracket "]", placed 50 .colon ":", placed 52 .identifier "d",
        placed 53 .comma ","]) ++ [placed 54 .rbrace "\x7d"])

/-- The pattern with the value `o`, and a second declarator `e`. -/
def nestedDeclarators : List Token :=
  nestedObject ++ ([placed 56 .assign "=", placed 58 .identifier "o"] ++
    [placed 59 .comma ",", placed 61 .identifier "e"])

def nestedNames : List Name :=
  [⟨"a", ⟨12, 13⟩⟩, ⟨"b", ⟨25, 26⟩⟩, ⟨"c", ⟨43, 44⟩⟩, ⟨"d", ⟨52, 53⟩⟩, ⟨"e", ⟨61, 62⟩⟩]

theorem binds_nestedArray : Binds .pattern nestedArray [⟨"b", ⟨25, 26⟩⟩, ⟨"c", ⟨43, 44⟩⟩] := by
  have hcall : Matched isOperand [placed 29 .identifier "f", placed 30 .lparen "(",
      placed 31 .identifier "x", placed 32 .comma ",", placed 34 .identifier "y",
      placed 35 .rparen ")"] :=
    .plain rfl rfl (by decide) rfl (.group rfl (.plain rfl rfl (by decide) rfl
      (.plain rfl rfl (by decide) rfl (.plain rfl rfl (by decide) rfl .nil))) .nil)
  have hrest : Binds .elements [placed 38 .comma ",", placed 40 .ellipsis "...",
      placed 43 .identifier "c"] [⟨"c", ⟨43, 44⟩⟩] :=
    .hole rfl (.restElement rfl (.identifier rfl) .lastElement)
  exact .array rfl rfl (.element (.identifier rfl) (.value rfl hcall (by simp) (by decide))
    (.nextElement rfl hrest))

theorem binds_nestedObject : Binds .pattern nestedObject (nestedNames.take 4) := by
  have hcomputed : Binds .properties [placed 47 .lbracket "[", placed 48 .identifier "k",
      placed 49 .rbracket "]", placed 50 .colon ":", placed 52 .identifier "d",
      placed 53 .comma ","] [⟨"d", ⟨52, 53⟩⟩] :=
    .keyed (.computed rfl rfl (.plain rfl rfl (by decide) rfl .nil) (by simp)) rfl (.identifier rfl)
      .none (.nextProperty rfl .noProperties)
  exact .object rfl rfl (.shorthand rfl .none (.nextProperty rfl
    (.keyed (.name rfl) rfl binds_nestedArray .none (.nextProperty rfl hcomputed))))

theorem binds_nestedDeclarators : Binds .declarators nestedDeclarators nestedNames := by
  have hvalue : OptionalValue [placed 56 .assign "=", placed 58 .identifier "o"] :=
    .value rfl (.plain rfl rfl (by decide) rfl .nil) (by simp) (by decide)
  have hlast : Binds .declarators [placed 61 .identifier "e"] [⟨"e", ⟨61, 62⟩⟩] :=
    .declarator (.identifier rfl) .none .lastDeclarator
  exact .declarator binds_nestedObject hvalue (.nextDeclarator rfl hlast)

/-- The tokens are those of a source, and the statement is all that is read from it. -/
theorem parseTokens_exportedVariables_nested :
    (Token.scan "export var \x7ba, default: [b = f(x, y), , ...c], [k]: d,\x7d = o, e;").map
        (fun t => (t.kind, t.span, t.value, t.newlineBefore)) =
      (placed 0 .kwExport "export" :: placed 7 .kwVar "var" ::
        (nestedDeclarators ++ [placed 62 .semicolon ";"]) ++ [placed 63 .eof ""]).map
        (fun t => (t.kind, t.span, t.value, t.newlineBefore)) ∧
      Binds .declarators nestedDeclarators nestedNames ∧
      ∃ p, parseTokens (placed 0 .kwExport "export" :: placed 7 .kwVar "var" ::
          (nestedDeclarators ++ [placed 62 .semicolon ";"]) ++ [placed 63 .eof ""]) = .ok p ∧
        p.statements = [.exportDecl
          { kind := .var, decl := ⟨7, 63⟩, names := nestedNames, span := ⟨0, 63⟩ }] := by
  obtain ⟨-, p, hstatements, hparse⟩ := parseTokens_exportedVariables (placed 0 .kwExport "export")
    (placed 7 .kwVar "var") (placed 62 .semicolon ";") rfl (by decide) rfl binds_nestedDeclarators
    (some (placed 63 .eof "")) (by simp [placed])
  exact ⟨by decide +kernel, binds_nestedDeclarators, p, hparse, hstatements⟩

end ModuleForge.Grammar
