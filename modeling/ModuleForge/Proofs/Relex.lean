import Mathlib.Data.List.Basic
import ModuleForge.Proofs.LineBreaks
import ModuleForge.Proofs.Lookahead
import ModuleForge.Proofs.PlainNames

/-!
# Reading a text at another place

A token is read alike in another text, at another offset and behind another token, if what comes
before makes no difference to how it starts and the texts agree behind it.

- `look`: what the grammar sees of a token.
- `SameBefore`: what comes before makes no difference.
- `MayFollow`: what comes behind makes no difference.
- `ReadAlike`: a reader takes the same text and yields a token of the same kind.
- `nextToken_local`: the next token, with the blanks in front of it.
-/

namespace ModuleForge.Token

open Text Cursor

variable {g g' q : List Char} {t : Token}

/-! ## Tokens that are no templates -/

/-- Words are identifiers behind a token of this kind. -/
def isPoint (last : Option Kind) : Bool :=
  last == some .dot || last == some .questionDot

/-- A token that starts with the character is read alike behind tokens of the two kinds. -/
structure SameBefore (c : Char) (last last' : Option Kind) : Prop where
  slash : c = '/' → regexAllowed last = regexAllowed last'
  point : isIdentifierStart c = true ∨ c = '\\' → isPoint last = isPoint last'

theorem SameBefore.refl (c : Char) (last : Option Kind) : SameBefore c last last :=
  ⟨fun _ => rfl, fun _ => rfl⟩

/-- No blank comes last, and a semicolon only if it is a token of its own. -/
def EndsToken (kind : Kind) (q : List Char) : Prop :=
  ∀ c, q.getLast? = some c → isBlank c = false ∧ (c = ';' → kind = .semicolon)

theorem EndsInside.endsToken (h : EndsInside q) (kind : Kind) : EndsToken kind q :=
  fun c hc => ⟨(h c hc).1, fun hsemi => absurd hsemi (h c hc).2⟩

/-- **What the grammar sees of a token**: its kind, whether a line starts with it, and its name if it
is a word. -/
def look (t : Token) : Kind × Bool × Option String :=
  (t.kind, t.newlineBefore, if t.kind.isOfWord then some t.value else none)

theorem look_setNewline {u : Token} (hkind : t.kind = u.kind)
    (hvalue : u.kind.isOfWord = true → t.value = u.value) (newline : Bool) :
    look { t with newlineBefore := newline } = look { u with newlineBefore := newline } := by
  simp only [look, hkind]
  split
  · rw [hvalue ‹_›]
  · rfl

/-- A token of the kind goes on with letters. -/
def Kind.takesLetters (kind : Kind) : Bool :=
  kind.isOfWord || kind == .number || kind == .regex || kind == .privateName

/-- **Behind a token of the kind, `g'` may stand in place of `g`**: the texts agree, or a word starts
there that the token does not go on with. -/
def MayFollow (kind : Kind) (g g' : List Char) : Prop :=
  Agree g g' ∨ OpensWord g' ∧ kind.takesLetters = false

theorem MayFollow.agree {kind : Kind} (h : MayFollow kind g g') (hkind : kind.takesLetters = true) :
    Agree g g' :=
  h.resolve_right fun hword => by
    rw [hword.2] at hkind
    cases hkind

/-- A word that ends its source has no escapes. -/
def Bounded (kind : Kind) (q g : List Char) : Prop :=
  kind.isOfWord = true → g = [] → '\\' ∉ q

/-- **A token that takes the text `q` is read as a token of the same kind elsewhere**, where `g'`
follows it. -/
structure ReadAlike (q g' : List Char) (k : Kind) (out : Token × Cursor) : Prop where
  kind : out.1.kind = k
  noWord : k.isOfWord = false
  rest : out.2.rest = g'
  ends : EndsToken k q

section
variable {last last' : Option Kind} {c : Char} {q g g' : List Char} {pos : Nat} {p : Char → Bool}

theorem span_local (hp : ∀ c, stops c = true → p c = false)
    (h : (Cursor.span p ⟨pos, q ++ g⟩).2.rest = g) (ha : HeadsAgree g g') (pos' : Nat) :
    Cursor.span p ⟨pos', q ++ g'⟩ = (q, ⟨pos' + byteLength q, g'⟩) ∧ ∀ d ∈ q, p d = true := by
  obtain ⟨hsplit, htaken, hstop⟩ := span_spec p ⟨pos, q ++ g⟩
  rw [h] at hsplit hstop
  have htext : (Cursor.span p ⟨pos, q ++ g⟩).1 = q := (List.append_cancel_right hsplit).symm
  rw [htext] at htaken
  exact ⟨span_append htaken (ha.stop hp hstop) pos', htaken⟩

theorem endsInside_span (hp : ∀ c, stops c = true → p c = false) (h : ∀ d ∈ q, p d = true) :
    EndsInside q := by
  refine endsInside_of_forall fun d hd => ?_
  rw [Bool.eq_false_iff]
  intro hstop
  have := h d hd
  rw [hp d hstop] at this
  cases this

theorem endsInside_cons (hc : isBlank c = false ∧ c ≠ ';') (h : EndsInside q) :
    EndsInside (c :: q) := by
  cases q with
  | nil =>
    intro d hd
    obtain rfl := Option.some.inj hd
    exact hc
  | cons d q => exact h.append [c] (by simp)

theorem stringToken_local (hk : (stringToken c ⟨pos, c :: q ++ g⟩).1.kind ≠ .error)
    (h : (stringToken c ⟨pos, c :: q ++ g⟩).2.rest = g) (hc : c = '"' ∨ c = '\'') (pos' : Nat) :
    ReadAlike (c :: q) g' (stringToken c ⟨pos, c :: q ++ g⟩).1.kind
      (stringToken c ⟨pos', c :: q ++ g'⟩) := by
  simp only [stringToken, List.cons_append, Cursor.next] at hk h ⊢
  have hsome : (stringBody c ⟨pos + c.utf8Size, q ++ g⟩).value?.isSome = true := by
    cases hv : (stringBody c ⟨pos + c.utf8Size, q ++ g⟩).value? with
    | none =>
      rw [hv] at hk
      exact absurd rfl hk
    | some value => rfl
  obtain ⟨hread, hlast⟩ := stringBody_local rfl hsome h (pos' + c.utf8Size) g'
  obtain ⟨value, hvalue⟩ := Option.isSome_iff_exists.1 hsome
  refine ⟨by rw [hread, hvalue], by rw [hvalue]; rfl, by rw [hread],
    EndsInside.endsToken (fun d hd => ?_) _⟩
  rw [List.getLast?_cons, hlast] at hd
  obtain rfl := Option.some.inj hd
  rcases hc with rfl | rfl <;> decide

theorem privateToken_local (hk : (privateToken ⟨pos, '#' :: q ++ g⟩).1.kind ≠ .error)
    (h : (privateToken ⟨pos, '#' :: q ++ g⟩).2.rest = g)
    (ha : MayFollow (privateToken ⟨pos, '#' :: q ++ g⟩).1.kind g g') (pos' : Nat) :
    ReadAlike ('#' :: q) g' (privateToken ⟨pos, '#' :: q ++ g⟩).1.kind
      (privateToken ⟨pos', '#' :: q ++ g'⟩) := by
  have hsize : '#'.utf8Size = 1 := rfl
  have hrest : (Cursor.span isIdentifierPart ⟨pos + 1, q ++ g⟩).2.rest = g := by
    simp only [privateToken, List.cons_append, Cursor.next, hsize] at h
    split at h <;> exact h
  have hparts := (fun c => @isIdentifierPart_of_stops c)
  have hsame : HeadsAgree g g := fun c hc => .inr hc
  obtain ⟨hspan, hq⟩ := span_local hparts hrest hsame (pos + 1)
  simp only [privateToken, List.cons_append, Cursor.next, hsize, hspan] at hk ha
  have hlength : byteLength q ≠ 0 := by
    intro hzero
    simp [hzero, ofError] at hk
  have hne (n : Nat) : (n + 1 + byteLength q == n + 1) = false := by
    simp only [beq_eq_false_iff_ne]
    omega
  simp only [hne, Bool.false_eq_true, if_false] at ha
  obtain ⟨hspan', -⟩ := span_local hparts hrest (ha.agree rfl).heads (pos' + 1)
  simp only [privateToken, List.cons_append, Cursor.next, hsize, hspan, hspan', hne,
    Bool.false_eq_true, if_false]
  exact ⟨rfl, rfl, rfl, (endsInside_cons (by decide) (endsInside_span hparts hq)).endsToken _⟩

theorem regexToken_local (hk : (regexToken ⟨pos, '/' :: q ++ g⟩).1.kind ≠ .error)
    (h : (regexToken ⟨pos, '/' :: q ++ g⟩).2.rest = g)
    (ha : MayFollow (regexToken ⟨pos, '/' :: q ++ g⟩).1.kind g g') (pos' : Nat) :
    ReadAlike ('/' :: q) g' (regexToken ⟨pos, '/' :: q ++ g⟩).1.kind
      (regexToken ⟨pos', '/' :: q ++ g'⟩) := by
  have hsize : '/'.utf8Size = 1 := rfl
  simp only [regexToken, List.cons_append, Cursor.next, hsize] at hk h ha ⊢
  cases hbody : regexBody false (pos + 1) (q ++ g) with | mk closed body
  cases closed with
  | false =>
    rw [hbody] at hk
    exact absurd rfl hk
  | true =>
    rw [hbody] at h ha
    replace ha : Agree g g' := ha.agree rfl
    -- The body up to its closing slash, then the flags.
    obtain ⟨text, htext, -⟩ := regexBody_reaches false (pos + 1) (q ++ g)
    obtain ⟨flags, hflags, -⟩ := reaches_span isAlnum body
    rw [hbody] at htext
    replace hflags : body.rest = flags ++ g := by rw [hflags]; exact congrArg _ h
    obtain rfl : q = text ++ flags := by
      refine List.append_cancel_right (?_ : _ ++ g = _)
      rw [List.append_assoc, ← hflags]
      exact htext
    obtain ⟨hclosed, hrest, hlast⟩ := @regexBody_local false (pos + 1) _ _ _
      (List.append_assoc text flags g) (by rw [hbody]) (by rw [hbody]; exact hflags) (pos' + 1)
      (flags ++ g')
    have halnum := (fun c => @isAlnum_of_stops c)
    have hspan : (Cursor.span isAlnum ⟨body.pos, flags ++ g⟩).2.rest = g := by
      rw [← hflags]
      exact h
    cases hbody' : regexBody false (pos' + 1) (text ++ (flags ++ g')) with | mk closed' body'
    rw [hbody'] at hclosed hrest
    obtain rfl : closed' = true := hclosed
    obtain ⟨bodyPos, _⟩ := body'
    obtain rfl : _ = flags ++ g' := hrest
    obtain ⟨hread, hall⟩ := span_local halnum hspan ha.heads bodyPos
    rw [← List.append_assoc] at hbody'
    rw [hbody']
    refine ⟨rfl, rfl, by simp only [hread], ?_⟩
    cases flags with
    | nil =>
      refine EndsInside.endsToken (fun d hd => ?_) _
      rw [List.append_nil, List.getLast?_cons, hlast] at hd
      obtain rfl := Option.some.inj hd
      decide
    | cons d flags =>
      exact ((endsInside_span halnum hall).append ('/' :: text) (by simp)).endsToken _

theorem numberToken_alike (h : (numberToken ⟨pos, q ++ g⟩).2.rest = g) (hq : q ≠ [])
    (ha : MayFollow .number g g') (pos' : Nat) :
    ReadAlike q g' (numberToken ⟨pos, q ++ g⟩).1.kind (numberToken ⟨pos', q ++ g'⟩) := by
  obtain ⟨hrest, hends⟩ := @numberToken_local pos pos' q g g' h hq (ha.agree rfl).heads
  exact ⟨rfl, rfl, hrest, hends.endsToken _⟩

theorem wordToken_alike (h : (wordToken last ⟨pos, q ++ g⟩).2.rest = g)
    (hpoint : isPoint last = isPoint last') (hend : g = [] → g' = [] ∨ '\\' ∉ q)
    (ha : Agree g g') (pos' : Nat) :
    (wordToken last' ⟨pos', q ++ g'⟩).1.kind = (wordToken last ⟨pos, q ++ g⟩).1.kind ∧
      (wordToken last' ⟨pos', q ++ g'⟩).1.value = (wordToken last ⟨pos, q ++ g⟩).1.value ∧
      (wordToken last' ⟨pos', q ++ g'⟩).2.rest = g' ∧
      (g ≠ [] ∨ '\\' ∉ q → EndsInside q) := by
  obtain ⟨hname, hrest, hends⟩ := @identifierBody_local ⟨pos, q ++ g⟩ _ _ _ rfl h hend ha pos'
  refine ⟨?_, by simp only [wordToken, hname], hrest, hends⟩
  simp only [wordToken, hname]
  rw [show (last == some .dot || last == some .questionDot) = isPoint last from rfl, hpoint]
  rfl

theorem nextN_rest (n : Nat) (cur : Cursor) : (nextN n cur).rest = cur.rest.drop n := by
  induction n generalizing cur with
  | zero => rfl
  | succ n ih =>
    rw [nextN, ih]
    obtain ⟨pos, _ | ⟨c, rest⟩⟩ := cur <;> simp [Cursor.next]

theorem endsToken_punctuator {x : List Char × Kind} (hx : x ∈ punctuators) : EndsToken x.2 x.1 := by
  have htable : ∀ x ∈ punctuators, x.1.getLast?.all
      (fun c => !isBlank c && (c != ';' || x.2 == .semicolon)) = true := by decide +kernel
  intro c hc
  have hlast := htable x hx
  rw [hc, Option.all_some] at hlast
  simpa [or_iff_not_imp_left] using hlast

theorem punctuatorToken_alike (hk : (punctuatorToken c ⟨pos, q ++ g⟩).1.kind ≠ .error)
    (h : (punctuatorToken c ⟨pos, q ++ g⟩).2.rest = g) (hq : q ≠ [])
    (ha : Agree g g' ∨ OpensWord g') (pos' : Nat) :
    ReadAlike q g' (punctuatorToken c ⟨pos, q ++ g⟩).1.kind (punctuatorToken c ⟨pos', q ++ g'⟩) := by
  simp only [punctuatorToken] at hk h ⊢
  cases hpunct : punctuator? (q ++ g) with
  | none =>
    rw [hpunct] at hk
    exact absurd rfl hk
  | some found =>
    obtain ⟨kind, n⟩ := found
    rw [hpunct] at h
    obtain ⟨hmem, hlength, -⟩ := punctuator?_inv hpunct
    have hn : n = q.length := by
      have hdrop := congrArg List.length h
      rw [nextN_rest, List.length_drop] at hdrop
      simp only [List.length_take, List.length_append] at hlength hdrop
      omega
    subst hn
    have hsame : punctuator? (q ++ g') = some (kind, q.length) :=
      ha.elim (punctuator?_local hpunct hq) (punctuator?_opensWord hpunct)
    rw [List.take_left] at hmem
    rw [hsame]
    exact ⟨rfl, punctuator?_isOfWord hpunct, by rw [nextN_rest, List.drop_left],
      endsToken_punctuator hmem⟩

theorem numberToken_point {d : Char} (hd : d.isDigit = true) (rest : List Char) :
    (numberToken ⟨pos, '.' :: d :: rest⟩).2.rest.length < rest.length + 1 := by
  have hradix : hasRadix ('.' :: d :: rest) = false := rfl
  have hgoes : goesOnNumber false true '.' d = true := by
    unfold goesOnNumber
    split
    · rename_i hc
      rw [show d = '.' by simpa using hc] at hd
      cases hd
    split
    · rename_i hc
      rcases (by simpa using hc : d = '+' ∨ d = '-') with rfl | rfl <;> cases hd
    · simp [Char.isAlphanum, hd]
  have hfirst : goesOnNumber false false '\x00' '.' = true := rfl
  have hchars : 2 ≤ (numberChars false false '\x00' ('.' :: d :: rest)).length := by
    rw [numberChars_cons, if_pos hfirst, numberChars_cons,
      show (false || '.' == '.') = true from rfl, if_pos hgoes]
    simp
  rw [(numberToken_eq _).2, hradix, List.length_drop]
  simp only [List.length_cons]
  omega

theorem wordToken_escape (rest : List Char) :
    (wordToken last ⟨pos, '\\' :: 'u' :: rest⟩).2.rest.length ≤ rest.length := by
  simp only [wordToken, identifierBody_escape]
  obtain ⟨taken, htaken, -⟩ := identifierBody_reaches (unicodeEscape ⟨pos + 2, rest⟩).cursor
  have hle := unicodeEscape_length ⟨pos + 2, rest⟩
  rw [htaken] at hle
  simp only [List.length_append] at hle
  omega

theorem head?_append_of_ne (hq : q ≠ []) : (q ++ g').head? = (q ++ g).head? := by
  cases q with
  | nil => exact absurd rfl hq
  | cons d q => rfl

theorem ne_nil_of_numberToken (hdigit : (q ++ g).head?.any (·.isDigit) = true)
    (h : (numberToken ⟨pos, '.' :: (q ++ g)⟩).2.rest = g) : q ≠ [] := by
  rintro rfl
  cases g with
  | nil => cases hdigit
  | cons d g =>
    have := @numberToken_point pos d (by simpa using hdigit) g
    rw [List.nil_append] at h
    rw [h, List.length_cons] at this
    omega

theorem ne_nil_of_wordToken (hu : (q ++ g).head? = some 'u')
    (h : (wordToken last ⟨pos, '\\' :: (q ++ g)⟩).2.rest = g) : q ≠ [] := by
  rintro rfl
  obtain ⟨rest, rfl⟩ := List.head?_eq_some_iff.1 hu
  have := @wordToken_escape last pos rest
  rw [List.nil_append] at h
  rw [h, List.length_cons] at this
  omega

theorem wordToken_local (h : (wordToken last ⟨pos, c :: (q ++ g)⟩).2.rest = g)
    (hpoint : isPoint last = isPoint last')
    (hend : Bounded (wordToken last ⟨pos, c :: (q ++ g)⟩).1.kind (c :: q) g ∨ g' = [])
    (ha : MayFollow (wordToken last ⟨pos, c :: (q ++ g)⟩).1.kind g g') (pos' : Nat) :
    (wordToken last' ⟨pos', c :: (q ++ g')⟩).1.kind =
        (wordToken last ⟨pos, c :: (q ++ g)⟩).1.kind ∧
      ((wordToken last ⟨pos, c :: (q ++ g)⟩).1.kind.isOfWord = true →
        (wordToken last' ⟨pos', c :: (q ++ g')⟩).1.value =
          (wordToken last ⟨pos, c :: (q ++ g)⟩).1.value) ∧
      (wordToken last' ⟨pos', c :: (q ++ g')⟩).2.rest = g' ∧
      (Bounded (wordToken last ⟨pos, c :: (q ++ g)⟩).1.kind (c :: q) g →
        EndsToken (wordToken last ⟨pos, c :: (q ++ g)⟩).1.kind (c :: q)) := by
  have hkind : (wordToken last ⟨pos, c :: (q ++ g)⟩).1.kind.isOfWord = true :=
    wordKind_isOfWord last _
  obtain ⟨hsame, hvalue, hrest, hends⟩ := @wordToken_alike last last' (c :: q) g g' pos h hpoint
    (fun hnil => hend.elim (fun hb => .inr (hb hkind hnil)) .inl)
    (ha.agree (by rw [Kind.takesLetters, hkind]; rfl)) pos'
  refine ⟨hsame, fun _ => hvalue, hrest, fun hb => (hends ?_).endsToken _⟩
  exact (Classical.em (g = [])).elim (fun hnil => .inr (hb hkind hnil)) .inl

/-- Behind what starts like a text that may follow, a character stops where it did. -/
theorem MayFollow.stop {kind : Kind} (h : MayFollow kind g g')
    (hstops : ∀ c, stops c = true → p c = false)
    (hstart : ∀ c, isIdentifierStart c = true → p c = false)
    (hg : ∀ c, (q ++ g).head? = some c → p c = false) :
    ∀ c, (q ++ g').head? = some c → p c = false := by
  rcases h with h | ⟨⟨d, hd, hword, -⟩, -⟩
  · exact (h.heads_append q).stop hstops hg
  · intro c hc
    cases q with
    | nil =>
      obtain rfl := Option.some.inj (hd.symm.trans hc)
      exact hstart d hword
    | cons e q => exact hg c hc

/-- **A token that is no template is read alike** behind a token of a kind that makes no difference
and before a text that may follow it. If it is a word and ends its source, it has no escapes, or the
other text ends there, too. -/
theorem plainToken_local (hk : (plainToken last c ⟨pos, c :: q ++ g⟩).1.kind ≠ .error)
    (h : (plainToken last c ⟨pos, c :: q ++ g⟩).2.rest = g) (hlast : SameBefore c last last')
    (hend : Bounded (plainToken last c ⟨pos, c :: q ++ g⟩).1.kind (c :: q) g ∨ g' = [])
    (ha : MayFollow (plainToken last c ⟨pos, c :: q ++ g⟩).1.kind g g') (pos' : Nat) :
    (plainToken last' c ⟨pos', c :: q ++ g'⟩).1.kind =
        (plainToken last c ⟨pos, c :: q ++ g⟩).1.kind ∧
      ((plainToken last c ⟨pos, c :: q ++ g⟩).1.kind.isOfWord = true →
        (plainToken last' c ⟨pos', c :: q ++ g'⟩).1.value =
          (plainToken last c ⟨pos, c :: q ++ g⟩).1.value) ∧
      (plainToken last' c ⟨pos', c :: q ++ g'⟩).2.rest = g' ∧
      (Bounded (plainToken last c ⟨pos, c :: q ++ g⟩).1.kind (c :: q) g →
        EndsToken (plainToken last c ⟨pos, c :: q ++ g⟩).1.kind (c :: q)) := by
  have hof {out : Token × Cursor} {k : Kind} {value : String}
      (halike : ReadAlike (c :: q) g' k out) :
      out.1.kind = k ∧ (k.isOfWord = true → out.1.value = value) ∧ out.2.rest = g' ∧
        (Bounded k (c :: q) g → EndsToken k (c :: q)) := by
    refine ⟨halike.kind, fun hword => ?_, halike.rest, fun _ => halike.ends⟩
    rw [halike.noWord] at hword
    cases hword
  have hnext (p : Nat) (cs : List Char) : (⟨p, c :: cs⟩ : Cursor).next.rest = cs := rfl
  have hfollow := ha
  simp only [plainToken, List.cons_append, hnext] at hk h hend ha ⊢
  by_cases h1 : (c == '"' || c == '\'') = true
  · simp only [if_pos h1] at hk h ⊢
    exact hof (stringToken_local hk h (by simpa using h1) pos')
  simp only [if_neg h1] at hk h hend ha ⊢
  by_cases h2 : c.isDigit = true
  · simp only [if_pos h2] at h ha ⊢
    exact hof (numberToken_alike (q := c :: q) h (by simp) ha pos')
  simp only [if_neg h2] at hk h hend ha ⊢
  by_cases h3 : (c == '.' && (q ++ g).head?.any (·.isDigit)) = true
  · simp only [if_pos h3] at h ha ⊢
    simp only [Bool.and_eq_true, beq_iff_eq] at h3
    obtain ⟨rfl, hdigit⟩ := h3
    rw [head?_append_of_ne (g := g) (ne_nil_of_numberToken hdigit h), hdigit]
    exact hof (numberToken_alike (q := '.' :: q) h (by simp) ha pos')
  have h3' : ¬ (c == '.' && (q ++ g').head?.any (·.isDigit)) = true := by
    simp only [Bool.and_eq_true, beq_iff_eq, not_and, Bool.not_eq_true] at h3 ⊢
    intro hc
    have hdigit := hfollow.stop (q := q) (fun d => @isDigit_of_stops d)
      (fun d => @isDigit_of_start d) (fun d hd => by simpa [hd] using h3 hc)
    cases hhead : (q ++ g').head? with
    | none => rfl
    | some d => simpa using hdigit d hhead
  simp only [if_neg h3, if_neg h3'] at hk h hend ha ⊢
  by_cases h4 : (c == '#') = true
  · simp only [if_pos h4] at hk h ha ⊢
    obtain rfl : c = '#' := by simpa using h4
    exact hof (privateToken_local hk h ha pos')
  simp only [if_neg h4] at hk h hend ha ⊢
  have hregex : (c == '/' && regexAllowed last') = (c == '/' && regexAllowed last) := by
    by_cases hc : c = '/'
    · rw [hlast.slash hc]
    · rw [beq_eq_false_iff_ne.2 hc, Bool.false_and, Bool.false_and]
  rw [hregex]
  by_cases h5 : (c == '/' && regexAllowed last) = true
  · simp only [if_pos h5] at hk h ha ⊢
    obtain rfl : c = '/' := by
      simp only [Bool.and_eq_true, beq_iff_eq] at h5
      exact h5.1
    exact hof (regexToken_local hk h ha pos')
  simp only [if_neg h5] at hk h hend ha ⊢
  by_cases h6 : (c == '\\' && (q ++ g).head? == some 'u') = true
  · simp only [if_pos h6] at h hend ha ⊢
    simp only [Bool.and_eq_true, beq_iff_eq] at h6
    obtain ⟨rfl, hu⟩ := h6
    rw [head?_append_of_ne (g := g) (ne_nil_of_wordToken hu h), hu]
    exact wordToken_local h (hlast.point (.inr rfl)) hend ha pos'
  simp only [if_neg h6] at hk h hend ha ⊢
  by_cases h7 : isIdentifierStart c = true
  · have hc : (c == '\\') = false := by
      simp only [beq_eq_false_iff_ne]
      rintro rfl
      revert h7
      decide +kernel
    simp only [hc, Bool.false_and, Bool.false_eq_true, if_false, if_pos h7] at h hend ha ⊢
    exact wordToken_local h (hlast.point (.inl h7)) hend ha pos'
  simp only [if_neg h7] at hk h ⊢
  have hc : (c == '\\') = false := by
    simp only [beq_eq_false_iff_ne]
    rintro rfl
    exact hk rfl
  simp only [hc, Bool.false_and, Bool.false_eq_true, if_false]
  exact hof (punctuatorToken_alike (q := c :: q) hk h (by simp) (hfollow.imp id And.left) pos')

end

/-! ## Any token -/

/-- The texts agree behind whatever comes before them. -/
def Joins (g g' : List Char) : Prop :=
  ∀ w, Agree (w ++ g) (w ++ g')

theorem joins_of_stops (hg : ∀ c, g.head? = some c → c.isDigit = false) (hg' : Stopped g') :
    Joins g g' :=
  fun w => ⟨w, g, g', rfl, rfl, .inl hg', fun _ => hg⟩

/-- Where blanks and comments end, none of them starts. -/
theorem noComment_of_clear {newline newline' : Bool} {cur start : Cursor}
    (h : skipTrivia newline cur = .clear newline' start) {tail : List Char} :
    start.rest ≠ '/' :: '/' :: tail ∧ start.rest ≠ '/' :: '*' :: tail := by
  fun_induction skipTrivia newline cur with
  | case1 => rename_i ih; exact ih h
  | case2 => rename_i ih; exact ih h
  | case3 => cases h
  | case4 => rename_i ih; exact ih h
  | case5 => rename_i ih; exact ih h
  | case6 newline cur c rest hline hblock hrest =>
    cases h
    rw [hrest]
    refine ⟨fun heq => ?_, fun heq => ?_⟩
    · obtain ⟨rfl, rfl⟩ := List.cons.inj heq
      exact hline _ rfl rfl
    · obtain ⟨rfl, rfl⟩ := List.cons.inj heq
      exact hblock _ rfl rfl
  | case7 newline cur hrest =>
    cases h
    rw [hrest]
    simp

/-- The text that is left where the next token starts. -/
def Reader.ahead (r : Reader) : List Char :=
  (skipTrivia false r.cursor).cursor.rest

/-- The next token is read alike behind a token of the kind `last'`. -/
def SameNext (r : Reader) (last' : Option Kind) : Prop :=
  ∀ c, r.ahead.head? = some c → SameBefore c r.last last'

theorem templateBody_close (start : Nat) (last : Option Kind) (pos : Nat) (rest : List Char) :
    templateBody start ⟨last, ⟨pos, '`' :: rest⟩⟩ = (.ok [], ⟨last, ⟨pos + 1, rest⟩⟩) := by
  rw [templateBody]
  simp only

theorem templateBody_escape (start : Nat) (last : Option Kind) (pos : Nat) (c : Char)
    (rest : List Char) :
    templateBody start ⟨last, ⟨pos, '\\' :: c :: rest⟩⟩ =
      templateBody start ⟨last, ⟨pos + 1 + c.utf8Size, rest⟩⟩ := by
  rw [templateBody]
  simp only

theorem templateBody_char {c : Char} {rest : List Char} (hquote : c ≠ '`') (hback : c ≠ '\\')
    (hdollar : c = '$' → rest.head? ≠ some '\x7b') (start : Nat) (last : Option Kind) (pos : Nat) :
    templateBody start ⟨last, ⟨pos, c :: rest⟩⟩ =
      templateBody start ⟨last, ⟨pos + c.utf8Size, rest⟩⟩ := by
  rw [templateBody]
  split <;> rename_i heq
  · cases heq
  · exact absurd (List.cons.inj heq).1 hquote
  · exact absurd (List.cons.inj heq).1 hback
  · exact absurd (List.cons.inj heq).1 hback
  · obtain ⟨rfl, rfl⟩ := List.cons.inj heq
    exact absurd rfl (hdollar rfl)
  · obtain ⟨rfl, rfl⟩ := List.cons.inj heq
    rfl

theorem MayFollow.noComment {kind : Kind} (h : MayFollow kind g g') {d : Char}
    (hd : g'.head? = some d) (hmark : d = '/' ∨ d = '*') : g.head? = some d := by
  rcases h with h | ⟨⟨c, hc, hstart, -⟩, -⟩
  · refine (h.heads d hd).resolve_left fun hstop => ?_
    rcases hmark with rfl | rfl <;> cases hstop
  · obtain rfl := Option.some.inj (hc.symm.trans hd)
    rcases hmark with rfl | rfl <;> exact absurd hstart (by decide +kernel)

/-- The same blanks and comments stand before a token if what follows the token goes on with no
comment, and a line breaks among them or not. -/
theorem skipTrivia_local {cur start : Cursor} {newline : Bool} {c : Char}
    (h : skipTrivia false cur = .clear newline start) (hstart : start.rest = c :: q ++ g)
    (hslash : ∀ d, g'.head? = some d → d = '/' ∨ d = '*' → g.head? = some d) :
    ∃ b, cur.rest = b ++ (c :: q ++ g) ∧ ∀ pos',
      skipTrivia false ⟨pos', b ++ (c :: q ++ g')⟩ =
        .clear newline ⟨pos' + byteLength b, c :: q ++ g'⟩ := by
  obtain ⟨b, hb, hblanks, hno⟩ := skipTrivia_blanks h
  rw [hstart] at hb hblanks hno
  obtain ⟨hc, hmark⟩ := hno c rfl
  refine ⟨b, hb, fun pos' => ?_⟩
  -- A slash starts a comment in neither of the texts.
  have hsecond (d : Char) (hd : d = '/' ∨ d = '*') (tail : List Char) (hc : c = '/')
      (heq : q ++ g' = d :: tail) : False := by
    have hhead : (q ++ g).head? = some d := by
      cases q with
      | nil => exact hslash d (by rw [show g' = d :: tail from heq]; rfl) hd
      | cons e q => exact congrArg some (List.cons.inj heq).1
    obtain ⟨tail', htail⟩ := List.head?_eq_some_iff.1 hhead
    have hcomment := @noComment_of_clear _ _ _ _ h tail'
    rw [hstart, hc, List.cons_append, htail] at hcomment
    rcases hd with rfl | rfl
    · exact hcomment.1 rfl
    · exact hcomment.2 rfl
  have hline := isLineBreak_of_isBlank hc
  have hblank : (isBlank c || c == '\ufeff') = false := by simp [hc, hmark]
  obtain ⟨newline', hread⟩ : ∃ newline', skipTrivia false ⟨pos', b ++ (c :: q ++ g')⟩ =
      .clear newline' ⟨pos' + byteLength b, c :: q ++ g'⟩ := by
    obtain ⟨newline', hread⟩ := @skipTrivia_append false b (c :: q ++ g') hblanks
      (fun h => nomatch h) false pos'
    refine ⟨newline', ?_⟩
    rw [hread, List.cons_append, skipTrivia_char (fun tail => hsecond '/' (.inl rfl) tail)
      (fun tail => hsecond '*' (.inr rfl) tail)]
    simp only [hline, hblank, Bool.false_eq_true, if_false]
  obtain ⟨gap, hgap, hflag⟩ := skipTrivia_newline h
  obtain ⟨gap', hgap', hflag'⟩ := skipTrivia_newline hread
  obtain rfl : b = gap := by
    rw [hstart] at hgap
    exact List.append_cancel_right (hb.symm.trans hgap)
  obtain rfl : b = gap' := List.append_cancel_right hgap'
  rw [hread, hflag, hflag']

/-- What is read of a token elsewhere: it looks the same, and `g'` is left. -/
structure TokenAlike (t : Token) (g' : List Char) (out : Token × Reader) : Prop where
  look : out.1.look = t.look
  last : out.2.last = some t.kind
  rest : out.2.cursor.rest = g'

theorem kind_of_look {u : Token} (h : t.look = u.look) : t.kind = u.kind :=
  congrArg Prod.fst h

theorem TokenAlike.kind {out : Token × Reader} (h : TokenAlike t g' out) : out.1.kind = t.kind :=
  kind_of_look h.look

theorem exists_start {r : Reader} (hrest : r.cursor.rest = q ++ g)
    (herr : (nextToken r).1.kind ≠ .error) (heof : (nextToken r).1.kind ≠ .eof)
    (h : (nextToken r).2.cursor.rest = g) :
    ∃ newline pos c q1 b, skipTrivia false r.cursor = .clear newline ⟨pos, c :: q1 ++ g⟩ ∧
      q = b ++ c :: q1 := by
  obtain ⟨start, hclear, hcovers⟩ := nextToken_covers herr heof
  obtain ⟨taken, htaken, hpos⟩ := hcovers.passes.1
  obtain ⟨b, hb, -⟩ := reaches_of_clear hclear
  rw [h] at htaken
  obtain ⟨c, q1, rfl⟩ : ∃ c q1, taken = c :: q1 := by
    cases taken with
    | nil =>
      have := hcovers.passes.2
      simp [hpos] at this
    | cons c q1 => exact ⟨c, q1, rfl⟩
  obtain ⟨pos, rest⟩ := start
  obtain rfl : rest = c :: q1 ++ g := htaken
  refine ⟨_, pos, c, q1, b, hclear, List.append_cancel_right (?_ : q ++ g = _ ++ g)⟩
  rw [← hrest, hb, List.append_assoc]

theorem nextToken_last {r : Reader} (herr : (nextToken r).1.kind ≠ .error) :
    (nextToken r).2.last = some (nextToken r).1.kind := by
  obtain ⟨newline, cur, htrivia⟩ := exists_clear herr
  rw [nextToken_eq, htrivia] at herr ⊢
  obtain ⟨pos, _ | ⟨c, rest⟩⟩ := cur
  · rfl
  simp only [readBehind] at herr ⊢
  by_cases hquote : (c == '`') = true
  · simp only [if_pos hquote] at herr ⊢
    have hinside := templateBody_inside pos ⟨r.last, ⟨pos + 1, rest⟩⟩
    cases hbody : templateBody pos ⟨r.last, ⟨pos + 1, rest⟩⟩ with | mk result after
    rw [hbody] at herr hinside
    cases result with
    | error t => exact absurd (hinside.2 t rfl) herr
    | ok ts => rfl
  · simp only [if_neg hquote] at herr ⊢
    rw [if_neg (by simpa using herr)]

/-- How many braces are open behind a token of a substitution; `none` if it ends there. -/
def depthInside (depth : Nat) (kind : Kind) : Option Nat :=
  if kind = .rbrace then if depth = 0 then none else some (depth - 1)
  else if kind = .lbrace then some (depth + 1)
  else some depth

theorem substitutionFrom_eq (heof : t.kind ≠ .eof) (herr : t.kind ≠ .error) (start depth : Nat)
    (after : Reader) :
    substitutionFrom start depth t after =
      match depthInside depth t.kind with
      | none => (.ok [], after)
      | some depth' => prepend [t] (substitution start depth' after) := by
  by_cases hclose : t.kind = .rbrace
  · cases depth with
    | zero => simp [substitutionFrom, depthInside, hclose]
    | succ depth => simp [substitutionFrom, depthInside, hclose]
  · simp only [substitutionFrom]
    split <;> simp_all [depthInside]

mutual

/-- **A token is read alike** behind a token of a kind that makes no difference and before a text
that may follow it. -/
theorem nextToken_local (r : Reader) {q g g' : List Char} {last' : Option Kind}
    (hrest : r.cursor.rest = q ++ g) (herr : (nextToken r).1.kind ≠ .error)
    (heof : (nextToken r).1.kind ≠ .eof) (h : (nextToken r).2.cursor.rest = g)
    (hlast : SameNext r last') (hend : Bounded (nextToken r).1.kind r.ahead g ∨ g' = [])
    (ha : MayFollow (nextToken r).1.kind g g') (pos' : Nat) :
    TokenAlike (nextToken r).1 g' (nextToken ⟨last', ⟨pos', q ++ g'⟩⟩) ∧
      (Bounded (nextToken r).1.kind r.ahead g → EndsToken (nextToken r).1.kind q) := by
  obtain ⟨newline, pos, c, q1, b, hclear, rfl⟩ := exists_start hrest herr heof h
  obtain ⟨b', hb', htrivia⟩ := skipTrivia_local hclear rfl fun d hd hmark => ha.noComment hd hmark
  obtain rfl : b = b' := by
    rw [hrest] at hb'
    refine List.append_cancel_right (?_ : _ ++ (c :: q1 ++ g) = _)
    simpa using hb'
  have hclear' := htrivia pos'
  have hahead : r.ahead = c :: q1 ++ g := by
    rw [Reader.ahead, hclear]
    rfl
  have hends {k : Kind} (h : EndsToken k (c :: q1)) : EndsToken k (b ++ c :: q1) := by
    intro d hd
    rw [List.getLast?_append_cons] at hd
    exact h d hd
  rw [hahead] at hend ⊢
  rw [nextToken_eq, hclear] at h herr heof hend ha ⊢
  rw [nextToken_eq, List.append_assoc, hclear']
  simp only [readBehind, List.cons_append] at h herr heof hend ha ⊢
  by_cases hquote : c = '`'
  · subst hquote
    simp only [beq_self_eq_true, if_true] at h herr ⊢
    cases hbody : templateBody pos ⟨r.last, ⟨pos + 1, q1 ++ g⟩⟩ with | mk result after
    have hinside := templateBody_inside pos ⟨r.last, ⟨pos + 1, q1 ++ g⟩⟩
    rw [hbody] at h herr hinside
    cases result with
    | error token => exact absurd (hinside.2 token rfl) herr
    | ok ts =>
      replace h : after.cursor.rest = g := h
      obtain ⟨text, htext, -⟩ := templateBody_quote hbody
      replace htext : q1 ++ g = text ++ '`' :: g := by
        rw [h] at htext
        exact htext
      obtain rfl : q1 = text ++ ['`'] := by
        refine List.append_cancel_right (?_ : _ ++ g = _)
        simpa using htext
      have hlt : (text ++ ['`'] ++ g).length < r.left := by
        simp only [Reader.left, hrest, List.length_append, List.length_cons]
        omega
      obtain ⟨ts', after', hread, hrest'⟩ := templateBody_local pos _ hbody htext h
        (pos' + byteLength b) last' (pos' + byteLength b + 1)
      rw [List.append_assoc text ['`'] g', List.cons_append, List.nil_append, hread]
      refine ⟨⟨rfl, rfl, hrest'⟩, fun _ => hends fun d hd => ?_⟩
      rw [← List.cons_append, List.getLast?_concat] at hd
      obtain rfl := Option.some.inj hd
      exact ⟨by decide, fun hsemi => absurd hsemi (by decide)⟩
  · have hc : (c == '`') = false := by simpa using hquote
    simp only [hc, Bool.false_eq_true, if_false] at h herr hend ha ⊢
    have hkind : ((plainToken r.last c ⟨pos, c :: (q1 ++ g)⟩).1.kind == .error) = false := by
      simpa using herr
    have hbounded {k : Kind} (hb : Bounded k (c :: (q1 ++ g)) g) : Bounded k (c :: q1) g :=
      fun hk hnil hmem => hb hk hnil (by
        rw [← List.cons_append]
        exact List.mem_append_left _ hmem)
    obtain ⟨hk, hv, hr, he⟩ := plainToken_local (q := q1) herr h (hlast c (by rw [hahead]; rfl))
      (hend.imp hbounded id) ha (pos' + byteLength b)
    have hkind' : ((plainToken last' c ⟨pos' + byteLength b, c :: (q1 ++ g')⟩).1.kind ==
        .error) = false := by
      rw [← hkind]
      exact congrArg (· == Kind.error) hk
    refine ⟨⟨look_setNewline hk hv newline, ?_, hr⟩, fun hb => hends (he (hbounded hb))⟩
    simp only [hkind', Bool.false_eq_true, if_false]
    exact congrArg some hk
termination_by 2 * r.left
decreasing_by
  simp only [Reader.left] at *
  omega

theorem templateBody_local (start : Nat) (r : Reader) {after : Reader} {ts : List Token}
    {w g g' : List Char} (h : templateBody start r = (.ok ts, after))
    (hr : r.cursor.rest = w ++ '`' :: g) (hafter : after.cursor.rest = g) (start' : Nat)
    (last' : Option Kind) (pos' : Nat) :
    ∃ ts' after', templateBody start' ⟨last', ⟨pos', w ++ '`' :: g'⟩⟩ = (.ok ts', after') ∧
      after'.cursor.rest = g' := by
  -- What is left of `w` behind a part of the body.
  have hcut {r' : Reader} {u : List Char} {ts' : List Token}
      (hread : templateBody start r' = (.ok ts', after)) (hu : r.cursor.rest = u ++ r'.cursor.rest) :
      ∃ v, w = u ++ v ∧ r'.cursor.rest = v ++ '`' :: g := by
    obtain ⟨v, hv, -⟩ := templateBody_quote hread
    rw [hafter] at hv
    refine ⟨v, List.append_cancel_right (?_ : w ++ '`' :: g = _ ++ '`' :: g), hv⟩
    rw [← hr, hu, hv, List.append_assoc]
  have h0 := h
  rw [templateBody] at h
  split at h
  · cases h
  · rename_i rest hrest
    cases h
    obtain rfl : rest = g := hafter
    obtain rfl : w = [] := by
      have := congrArg List.length (hrest.symm.trans hr)
      simp only [List.length_append, List.length_cons] at this
      exact List.length_eq_zero_iff.1 (by omega)
    exact ⟨[], _, templateBody_close .., rfl⟩
  · cases h
  · rename_i c rest hrest
    have hlt : rest.length < r.left := by simp only [Reader.left, hrest, List.length_cons]; omega
    obtain ⟨v, rfl, hv⟩ := hcut h (u := ['\\', c]) hrest
    rw [List.cons_append, List.cons_append, List.cons_append, List.cons_append, List.nil_append,
      templateBody_escape]
    exact templateBody_local start _ h hv hafter _ _ _
  · rename_i rest hrest
    cases hs : substitution start 0 ⟨some .lbrace, ⟨r.cursor.pos + 2, rest⟩⟩ with | mk result mid
    have hlt := substitution_left_lt hrest hs
    have hinside := substitution_inside start 0 ⟨some .lbrace, ⟨r.cursor.pos + 2, rest⟩⟩
    rw [hs] at h hinside
    cases result with
    | error t => cases h
    | ok tokens =>
      simp only [if_pos hlt] at h
      cases hb : templateBody start mid with | mk result' after'
      rw [hb] at h
      cases result' with
      | error t => cases h
      | ok ts' =>
        cases h
        obtain ⟨taken, htaken, -⟩ := hinside.1
        replace htaken : rest = taken ++ mid.cursor.rest := htaken
        obtain ⟨v, rfl, hv⟩ := hcut hb (u := '$' :: '\x7b' :: taken) (by rw [hrest, htaken]; rfl)
        have hshort : rest.length + 2 = r.left := by simp [Reader.left, hrest]
        obtain ⟨tokens', mid', hsub, hmid⟩ := @substitution_local start 0 _ _ _
          (taken ++ v) v ('`' :: g) ('`' :: g') hs (by simp [htaken, hv]) hv (by simp)
          (joins_of_stops (by simp) (by simp [Stopped, stops, stopChars])) start'
          (pos' + 2)
        obtain ⟨ts'', after'', hread, hlast⟩ := templateBody_local start mid hb hv hafter start'
          mid'.last mid'.cursor.pos
        refine ⟨tokens' ++ ts'', after'', ?_, hlast⟩
        rw [← hmid] at hread
        simp only [List.cons_append, templateBody_dollar, hsub, hread, prepend]
        rfl
  · rename_i c rest hclose hlone hback hdollar hrest
    have hlt : rest.length < r.left := by simp only [Reader.left, hrest, List.length_cons]; omega
    obtain ⟨v, rfl, hv⟩ := hcut h (u := [c]) hrest
    replace hv : rest = v ++ '`' :: g := hv
    have hnoBack : c ≠ '\\' := by
      cases rest with
      | nil => exact fun hc => hlone hc rfl
      | cons d rest => exact fun hc => hback _ _ hc rfl
    have hnoDollar (hc : c = '$') : (v ++ '`' :: g').head? ≠ some '\x7b' := by
      cases v with
      | nil => simp
      | cons d v =>
        intro hd
        obtain rfl : d = '\x7b' := Option.some.inj hd
        exact hdollar _ hc hv
    rw [List.cons_append, List.nil_append, List.cons_append,
      templateBody_char hclose hnoBack hnoDollar]
    exact templateBody_local start _ h hv hafter _ _ _
termination_by 2 * r.left
decreasing_by
  all_goals simp only [Reader.left] at *
  all_goals omega

theorem substitution_local (start depth : Nat) (r : Reader) {after : Reader} {ts : List Token}
    {w w' g g' : List Char} (h : substitution start depth r = (.ok ts, after))
    (hr : r.cursor.rest = w ++ g) (hafter : after.cursor.rest = w' ++ g) (hne : g ≠ [])
    (hjoins : Joins g g') (start' pos' : Nat) :
    ∃ ts' after', substitution start' depth ⟨r.last, ⟨pos', w ++ g'⟩⟩ = (.ok ts', after') ∧
      after'.cursor.rest = w' ++ g' := by
  rw [substitution_eq] at h ⊢
  have hlt := nextToken_left_lt (r := r) rfl
  -- The next token ends before `g`, so that it is read alike.
  have hnext (hk : (nextToken r).1.kind ≠ .error) (heof : (nextToken r).1.kind ≠ .eof)
      (hreach : (nextToken r).2.cursor.Reaches after.cursor) :
      ∃ v, (nextToken r).2.cursor.rest = v ++ g ∧
        TokenAlike (nextToken r).1 (v ++ g') (nextToken ⟨r.last, ⟨pos', w ++ g'⟩⟩) := by
    obtain ⟨taken, htaken, -⟩ := (nextToken_reads r).reaches
    obtain ⟨inner, hinner, -⟩ := hreach
    rw [hafter, ← List.append_assoc] at hinner
    rw [hinner, ← List.append_assoc] at htaken
    obtain rfl : w = taken ++ (inner ++ w') := List.append_cancel_right (hr.symm.trans htaken)
    refine ⟨inner ++ w', hinner, ?_⟩
    rw [List.append_assoc taken]
    exact (nextToken_local r (by rw [hr, List.append_assoc]) hk heof hinner
      (fun c _ => .refl c r.last) (.inl fun _ hnil => absurd hnil (by simp [hne]))
      (.inl (hjoins _)) pos').1
  have heof : (nextToken r).1.kind ≠ .eof := by
    intro hk
    simp [substitutionFrom, hk] at h
  have herr : (nextToken r).1.kind ≠ .error := by
    intro hk
    simp [substitutionFrom, hk] at h
  rw [substitutionFrom_eq heof herr] at h
  cases hdepth : depthInside depth (nextToken r).1.kind with
  | none =>
    rw [hdepth] at h
    cases h
    obtain ⟨v, hv, halike⟩ := hnext herr heof (.refl _)
    obtain rfl : v = w' := List.append_cancel_right (hv.symm.trans hafter)
    rw [← halike.kind] at heof herr hdepth
    refine ⟨[], _, ?_, halike.rest⟩
    rw [substitutionFrom_eq heof herr, hdepth]
  | some depth' =>
    simp only [hdepth] at h
    cases hs : substitution start depth' (nextToken r).2 with | mk result after'
    rw [hs] at h
    cases result with
    | error t => cases h
    | ok ts' =>
      cases h
      have hinside := substitution_inside start depth' (nextToken r).2
      rw [hs] at hinside
      obtain ⟨v, hv, halike⟩ := hnext herr heof hinside.1
      have hshort := hlt heof
      obtain ⟨ts'', after'', hread, hrest⟩ := substitution_local start depth' _ hs hv hafter hne
        hjoins start' (nextToken ⟨r.last, ⟨pos', w ++ g'⟩⟩).2.cursor.pos
      have hlast : (nextToken r).2.last = some (nextToken r).1.kind := nextToken_last herr
      rw [← halike.rest, hlast, ← halike.last] at hread
      rw [← halike.kind] at heof herr hdepth
      refine ⟨(nextToken ⟨r.last, ⟨pos', w ++ g'⟩⟩).1 :: ts'', after'', ?_, hrest⟩
      rw [substitutionFrom_eq heof herr, hdepth]
      simp only [hread, prepend]
      rfl
termination_by 2 * r.left + 1

end

end ModuleForge.Token
