import ModuleForge.Proofs.Gaps
import ModuleForge.Proofs.Loops
import ModuleForge.Text.Quoted

/-!
# Text that is written token by token

Generated code is written as words, marks and string literals with single spaces. Reading it gives
these tokens back, wherever in a source it stands.

- `tokensFrom_blanks`: blanks and comments before a text change none of its tokens, apart from their
  places.
- `stringBody_quoteChars`, `nextToken_quote`: a string literal is read as the text that it was
  written for.
- `tokensFrom_lexemes`: lexemes that are well spaced are read as what they spell.
-/

namespace ModuleForge.Token

open Text Cursor

variable {c : Char} {rest w : List Char} {t : Token}

/-! ## Reading behind blanks -/

/-- The token without its place. -/
def bare (t : Token) : Token :=
  { t with span := ⟨0, 0⟩, newlineBefore := false }

/-- What is read behind blanks and comments. -/
def readBehind (last : Option Kind) : Trivia → Token × Reader
  | .unterminated start after =>
    (ofError start after.pos .unterminatedComment, ⟨last, after⟩)
  | .clear newline cur =>
    match cur.rest with
    | [] =>
      ({ kind := .eof, span := ⟨cur.pos, cur.pos⟩, value := "", newlineBefore := newline },
        ⟨some .eof, cur⟩)
    | c :: rest =>
      if c == '`' then
        let body := templateBody cur.pos ⟨last, ⟨cur.pos + 1, rest⟩⟩
        match body.1 with
        | .error token => ({ token with newlineBefore := newline }, body.2)
        | .ok substitutions =>
          ({ kind := .template
             span := ⟨cur.pos, body.2.cursor.pos⟩
             value := String.ofList (rest.take (rest.length - body.2.left - 1))
             newlineBefore := newline
             substitutions },
            ⟨some .template, body.2.cursor⟩)
      else
        ({ (plainToken last c cur).1 with newlineBefore := newline },
          ⟨if (plainToken last c cur).1.kind == .error then last
            else some (plainToken last c cur).1.kind, (plainToken last c cur).2⟩)

theorem nextToken_eq (r : Reader) :
    nextToken r = readBehind r.last (skipTrivia false r.cursor) := by
  rw [nextToken]
  split
  · rename_i h
    rw [h]
    rfl
  · rename_i newline cur h
    refine Eq.trans ?_ (congrArg (readBehind r.last) h).symm
    simp only [readBehind]
    split
    · rename_i hc
      simp only [hc]
    · rename_i c rest hc
      obtain ⟨pos, text⟩ := cur
      obtain rfl : text = c :: rest := hc
      rfl

theorem blockComment_newline (a b : Bool) (pos : Nat) (cs : List Char) :
    (blockComment a pos cs).closed = (blockComment b pos cs).closed ∧
      (blockComment a pos cs).cursor = (blockComment b pos cs).cursor := by
  fun_induction blockComment a pos cs generalizing b with
  | case1 => exact ⟨rfl, rfl⟩
  | case2 => exact ⟨rfl, rfl⟩
  | case3 a pos c rest hne ih =>
    rw [blockComment.eq_3 _ _ _ _ hne]
    exact ih (b || isLineBreak c)

/-- What stands before a token, but for whether a line break is among it. -/
def Trivia.setNewline (newline : Bool) : Trivia → Trivia
  | .clear _ cur => .clear newline cur
  | t => t

/-- Line breaks that were met before do not change what is stepped over. -/
theorem skipTrivia_setNewline (a b newline : Bool) (cur : Cursor) :
    (skipTrivia a cur).setNewline newline = (skipTrivia b cur).setNewline newline := by
  fun_induction skipTrivia a cur generalizing b with
  | case1 a cur tail h ih =>
    obtain ⟨pos, cs⟩ := cur
    subst h
    rw [ih b]
    conv => rhs; rw [skipTrivia]
    rfl
  | case2 a cur tail h hclosed ih =>
    obtain ⟨pos, cs⟩ := cur
    subst h
    have hb := blockComment_newline a b (pos + 2) tail
    rw [ih (blockComment b (pos + 2) tail).newline, hb.2]
    conv => rhs; rw [skipTrivia]
    simp only [← hb.1, hclosed, if_true]
  | case3 a cur tail h hclosed =>
    obtain ⟨pos, cs⟩ := cur
    subst h
    have hb := blockComment_newline a b (pos + 2) tail
    rw [hb.2]
    conv => rhs; rw [skipTrivia]
    simp only [← hb.1, hclosed]
    rfl
  | case4 a cur c rest h1 h2 h hc _ =>
    obtain ⟨pos, cs⟩ := cur
    subst h
    rw [skipTrivia_char h1 h2, if_pos hc]
  | case5 a cur c rest h1 h2 h hc hb ih =>
    obtain ⟨pos, cs⟩ := cur
    subst h
    rw [skipTrivia_char h1 h2, if_neg hc, if_pos hb]
    exact ih b
  | case6 a cur c rest h1 h2 h hc hb =>
    obtain ⟨pos, cs⟩ := cur
    subst h
    rw [skipTrivia_char h1 h2, if_neg hc, if_neg hb]
    rfl
  | case7 a cur h =>
    obtain ⟨pos, cs⟩ := cur
    subst h
    conv => rhs; rw [skipTrivia]
    rfl

/-- Only the flag of the token that is read depends on that of what stands before it. -/
theorem readBehind_setNewline (last : Option Kind) (newline : Bool) (tr : Trivia) :
    (∃ flag, (readBehind last tr).1 =
        { (readBehind last (tr.setNewline newline)).1 with newlineBefore := flag }) ∧
      (readBehind last tr).2 = (readBehind last (tr.setNewline newline)).2 := by
  cases tr with
  | unterminated start after => exact ⟨⟨false, rfl⟩, rfl⟩
  | clear newline' cur =>
    simp only [readBehind, Trivia.setNewline]
    split
    · exact ⟨⟨newline', rfl⟩, rfl⟩
    · split
      · split <;> exact ⟨⟨newline', rfl⟩, rfl⟩
      · exact ⟨⟨newline', rfl⟩, rfl⟩

/-- The tokens with a flag of its own for the line break before the first. -/
def restart (newline : Bool) : List Token → List Token
  | [] => []
  | t :: ts => { t with newlineBefore := newline } :: ts

theorem restart_append {ts : List Token} (h : ts ≠ []) (newline : Bool) (us : List Token) :
    restart newline (ts ++ us) = restart newline ts ++ us := by
  cases ts with
  | nil => exact absurd rfl h
  | cons t ts => rfl

theorem restart_restart (a b : Bool) (ts : List Token) : restart a (restart b ts) = restart a ts := by
  cases ts <;> rfl

theorem exists_restart (ts : List Token) : ∃ newline, restart newline ts = ts := by
  cases ts with
  | nil => exact ⟨false, rfl⟩
  | cons t ts => exact ⟨t.newlineBefore, by cases t; rfl⟩

theorem map_restart {β : Type} {v : Token → β}
    (hv : ∀ t newline, v { t with newlineBefore := newline } = v t) (newline : Bool)
    (ts : List Token) : (restart newline ts).map v = ts.map v := by
  cases ts with
  | nil => rfl
  | cons t ts => exact congrArg (· :: _) (hv t newline)

/-- **Blanks and comments before a text change none of its tokens** but the flag of the first. -/
theorem tokensFrom_restart {last : Bool} {text : List Char} (h : Blanks last text)
    (hrest : last = true → ∀ c, rest.head? = some c → isLineBreak c = true) (kind : Option Kind)
    (pos : Nat) :
    ∃ newline, tokensFrom ⟨kind, ⟨pos, text ++ rest⟩⟩ =
      restart newline (tokensFrom ⟨kind, ⟨pos + byteLength text, rest⟩⟩) := by
  obtain ⟨newline, hskip⟩ := skipTrivia_append h hrest false pos
  have hclear := skipTrivia_setNewline newline false false ⟨pos + byteLength text, rest⟩
  obtain ⟨⟨flag, ht⟩, hr⟩ :=
    readBehind_setNewline kind false (skipTrivia false ⟨pos, text ++ rest⟩)
  obtain ⟨⟨flag', ht'⟩, hr'⟩ :=
    readBehind_setNewline kind false (skipTrivia false ⟨pos + byteLength text, rest⟩)
  rw [hskip, hclear, ← hskip] at ht hr
  refine ⟨flag, ?_⟩
  rw [tokensFrom_eq, tokensFrom_eq ⟨kind, ⟨pos + byteLength text, rest⟩⟩, nextToken_eq,
    nextToken_eq ⟨kind, ⟨pos + byteLength text, rest⟩⟩]
  dsimp only
  rw [ht, hr, ht', hr']
  split <;> rfl

/-- The same, apart from the places of the tokens. -/
theorem tokensFrom_blanks {last : Bool} {text rest : List Char} (h : Blanks last text)
    (hrest : last = true → ∀ c, rest.head? = some c → isLineBreak c = true) (kind : Option Kind)
    (pos : Nat) :
    (tokensFrom ⟨kind, ⟨pos, text ++ rest⟩⟩).map bare =
      (tokensFrom ⟨kind, ⟨pos + byteLength text, rest⟩⟩).map bare := by
  obtain ⟨newline, hread⟩ := tokensFrom_restart h hrest kind pos
  rw [hread, map_restart fun _ _ => rfl]

/-! ## String literals -/

theorem stringBody_char (hquote : c ≠ '"') (hback : c ≠ '\\') (hn : c ≠ '\n') (hr : c ≠ '\r')
    (pos : Nat) :
    stringBody '"' ⟨pos, c :: rest⟩ = (stringBody '"' ⟨pos + c.utf8Size, rest⟩).push (some c) := by
  rw [stringBody]
  simp [hquote, hback, hn, hr]

theorem stringBody_escape {cs : List Char} {pos pos' : Nat}
    (h : stringEscape ⟨pos + 1, cs⟩ = (some c, ⟨pos', rest⟩)) :
    stringBody '"' ⟨pos, '\\' :: cs⟩ = (stringBody '"' ⟨pos', rest⟩).push (some c) := by
  rw [stringBody]
  simp [h]

theorem charOfHex_control {n : Nat} (h : n < 0x20) :
    charOfHex ['0', '0', hexDigit (n / 16), hexDigit (n % 16)] = Char.ofNat n ∧
      isHexDigit (hexDigit (n / 16)) = true ∧ isHexDigit (hexDigit (n % 16)) = true ∧
      (hexDigit (n / 16)).utf8Size = 1 ∧ (hexDigit (n % 16)).utf8Size = 1 := by
  revert n
  decide

theorem stringEscape_letter {d : Char} (hd : unescape d = c) (hu : d ≠ 'u') (hx : d ≠ 'x')
    (hbreak : isLineBreak d = false) (pos : Nat) (rest : List Char) :
    stringEscape ⟨pos, d :: rest⟩ = (some c, ⟨pos + d.utf8Size, rest⟩) := by
  have hr : d ≠ '\r' := by
    rintro rfl
    cases hbreak
  simp only [stringEscape]
  split <;> rename_i heq
  · cases heq
  · exact absurd (List.cons.inj heq).1 hu
  · exact absurd (List.cons.inj heq).1 hx
  · exact absurd (List.cons.inj heq).1 hr
  · obtain ⟨rfl, rfl⟩ := List.cons.inj heq
    simp [hbreak, hd]

theorem stringEscape_control (h : c.toNat < 0x20) (pos : Nat) (rest : List Char) :
    stringEscape ⟨pos, 'u' :: '0' :: '0' :: hexDigit (c.toNat / 16) :: hexDigit (c.toNat % 16) ::
        rest⟩ = (some c, ⟨pos + 5, rest⟩) := by
  obtain ⟨hchar, hhi, hlo, hhi', hlo'⟩ := charOfHex_control h
  have hzero : isHexDigit '0' = true := by decide
  have hsize : '0'.utf8Size = 1 := rfl
  have hdigits : hexDigits 4 ('0' :: '0' :: hexDigit (c.toNat / 16) :: hexDigit (c.toNat % 16) ::
      rest) = (['0', '0', hexDigit (c.toNat / 16), hexDigit (c.toNat % 16)], rest) := by
    simp [hexDigits, hzero, hhi, hlo]
  have hescape (cs : List Char) : unicodeEscape ⟨pos + 1, '0' :: cs⟩ =
      ⟨charOfHex (hexDigits 4 ('0' :: cs)).1,
        jump ⟨pos + 1, '0' :: cs⟩ (hexDigits 4 ('0' :: cs)).1 (hexDigits 4 ('0' :: cs)).2⟩ := rfl
  simp only [stringEscape, hescape, hdigits, hchar, jump, byteLength_cons, byteLength_nil, hhi',
    hlo', hsize, Char.ofNat_toNat]

/-- **A character between quotes is read as itself.** -/
theorem stringBody_quoteChar (c : Char) (rest : List Char) (pos : Nat) :
    stringBody '"' ⟨pos, quoteChar c ++ rest⟩ =
      (stringBody '"' ⟨pos + byteLength (quoteChar c), rest⟩).push (some c) := by
  have hback : '\\'.utf8Size = 1 := rfl
  have hquoted := quotedAs_quoteChar c
  generalize quoteChar c = text at hquoted ⊢
  cases hquoted with
  | letter hd =>
    have htable : ∀ x ∈ letterEscapes, unescape x.2 = x.1 ∧ x.2 ≠ 'u' ∧ x.2 ≠ 'x' ∧
        isLineBreak x.2 = false := by decide
    obtain ⟨hletter, hu, hx, hbreak⟩ := htable _ hd
    refine (stringBody_escape (stringEscape_letter hletter hu hx hbreak _ _)).trans ?_
    simp only [byteLength_cons, byteLength_nil, hback, Nat.add_assoc, Nat.add_zero]
    rfl
  | control hcontrol =>
    obtain ⟨-, -, -, hhi, hlo⟩ := charOfHex_control hcontrol
    refine (stringBody_escape (stringEscape_control hcontrol _ _)).trans ?_
    have hu : 'u'.utf8Size = 1 := rfl
    have hzero : '0'.utf8Size = 1 := rfl
    simp only [byteLength_cons, byteLength_nil, hback, hu, hzero, hhi, hlo]
    rfl
  | plain hquote hslash hspace =>
    have hne {d : Char} (hd : d.toNat < 0x20) : c ≠ d := by
      rintro rfl
      omega
    exact (stringBody_char hquote hslash (hne (by decide)) (hne (by decide)) pos).trans (by simp)

/-- **A string literal is read as the text that it was written for.** -/
theorem stringBody_quoteChars (cs rest : List Char) (pos : Nat) :
    stringBody '"' ⟨pos, quoteChars cs ++ '"' :: rest⟩ =
      ⟨some cs, ⟨pos + byteLength (quoteChars cs) + 1, rest⟩⟩ := by
  induction cs generalizing pos with
  | nil =>
    rw [quoteChars, stringBody]
    rfl
  | cons c cs ih =>
    rw [quoteChars, List.append_assoc, stringBody_quoteChar, ih]
    simp [StringBody.push, Nat.add_assoc]

/-! ## Words -/

/-- The characters of a word that is written without escapes. -/
def isPlain : List Char → Bool
  | [] => false
  | c :: cs => isIdentifierStart c && cs.all isIdentifierPart

theorem exists_start_of_isPlain (h : isPlain w = true) :
    ∃ c cs, w = c :: cs ∧ isIdentifierStart c = true := by
  cases w with
  | nil => cases h
  | cons c cs => exact ⟨c, cs, rfl, (Bool.and_eq_true_iff.1 h).1⟩

/-- A character that is not part of a word and starts no escape. -/
def EndsWord (rest : List Char) : Prop :=
  ∀ c, rest.head? = some c → isIdentifierPart c = false ∧ c ≠ '\\'

theorem identifierBody_append (hw : ∀ c ∈ w, isIdentifierPart c = true) (hrest : EndsWord rest)
    (pos : Nat) : identifierBody ⟨pos, w ++ rest⟩ = (w, ⟨pos + byteLength w, rest⟩) := by
  induction w generalizing pos with
  | nil =>
    cases rest with
    | nil => rw [identifierBody]; rfl
    | cons c rest =>
      obtain ⟨hpart, hback⟩ := hrest c rfl
      rw [identifierBody]
      split <;> rename_i heq
      · cases heq
      · exact absurd (List.cons.inj heq).1 hback
      · obtain ⟨rfl, rfl⟩ := List.cons.inj heq
        simp [hpart]
  | cons c w ih =>
    obtain ⟨hc, hw⟩ := List.forall_mem_cons.1 hw
    have hback : c ≠ '\\' := by
      rintro rfl
      revert hc
      decide
    rw [identifierBody]
    split <;> rename_i heq
    · cases heq
    · exact absurd (List.cons.inj heq).1 hback
    · obtain ⟨rfl, rfl⟩ := List.cons.inj heq
      simp [hc, ih hw, Nat.add_assoc]

/-- The kind of a word behind a token of the kind `last`. -/
def wordKind (last : Option Kind) (w : String) : Kind :=
  if last == some .dot || last == some .questionDot then .identifier
  else (keyword? w).getD .identifier

/-- The kinds of words. -/
def Kind.isOfWord (kind : Kind) : Bool :=
  kind == .identifier || keywords.any (·.2 == kind)

theorem wordKind_isOfWord (last : Option Kind) (w : String) :
    (wordKind last w).isOfWord = true := by
  unfold wordKind
  split
  · rfl
  · cases hk : keyword? w with
    | none => rfl
    | some kind =>
      obtain ⟨l1, l2, hl, -⟩ := List.lookup_eq_some_iff.1 hk
      have hmem : (w, kind) ∈ keywords := by simp [hl]
      have : keywords.any (·.2 == kind) = true := List.any_eq_true.2 ⟨_, hmem, by simp⟩
      simp [Kind.isOfWord, this]

theorem wordKind_ne {kind : Kind} (h : kind.isOfWord = false) (last : Option Kind) (w : String) :
    wordKind last w ≠ kind := by
  rintro rfl
  rw [wordKind_isOfWord] at h
  cases h

theorem wordToken_append (hw : ∀ c ∈ w, isIdentifierPart c = true) (hrest : EndsWord rest)
    (last : Option Kind) (pos : Nat) :
    wordToken last ⟨pos, w ++ rest⟩ =
      ({ kind := wordKind last (String.ofList w), span := ⟨pos, pos + byteLength w⟩,
         value := String.ofList w }, ⟨pos + byteLength w, rest⟩) := by
  simp only [wordToken, identifierBody_append hw hrest, wordKind]

theorem isIdentifierPart_of_isPlain (h : isPlain w = true) :
    ∀ c ∈ w, isIdentifierPart c = true := by
  cases w with
  | nil => cases h
  | cons c w =>
    simp only [isPlain, Bool.and_eq_true, List.all_eq_true] at h
    exact List.forall_mem_cons.2 ⟨isIdentifierPart_of_start h.1, h.2⟩

/-- The characters with the property White_Space. -/
def blankCodes : List Nat :=
  [9, 10, 11, 12, 13, 0x20, 0x85, 0xA0, 0x1680, 0x2000, 0x2001, 0x2002, 0x2003, 0x2004, 0x2005,
   0x2006, 0x2007, 0x2008, 0x2009, 0x200A, 0x2028, 0x2029, 0x202F, 0x205F, 0x3000]

theorem toNat_mem_blankCodes (h : isBlank c = true) : c.toNat ∈ blankCodes := by
  simp only [isBlank, Bool.or_eq_true, Bool.and_eq_true, decide_eq_true_eq, beq_iff_eq] at h
  simp only [blankCodes, List.mem_cons, List.not_mem_nil, or_false]
  omega

theorem isBlank_of_start (h : isIdentifierStart c = true) : isBlank c = false := by
  have hall : ∀ n ∈ blankCodes, isIdentifierStart (Char.ofNat n) = false := by decide +kernel
  by_contra hb
  have := hall _ (toNat_mem_blankCodes (by simpa using hb))
  rw [Char.ofNat_toNat, h] at this
  cases this

theorem skipTrivia_word (h : isIdentifierStart c = true) (pos : Nat) (rest : List Char) :
    skipTrivia false ⟨pos, c :: rest⟩ = .clear false ⟨pos, c :: rest⟩ := by
  have hblank := isBlank_of_start h
  have hne {d : Char} (hd : isIdentifierStart d = false) : c ≠ d := by
    rintro rfl
    rw [h] at hd
    cases hd
  have hbreak := isLineBreak_of_isBlank hblank
  have hslash : c ≠ '/' := hne (by decide +kernel)
  have hmark : c ≠ '\ufeff' := hne (by decide +kernel)
  rw [skipTrivia_char (fun _ h => absurd h hslash) (fun _ h => absurd h hslash)]
  simp [hbreak, hblank, hmark]

theorem isDigit_of_start {c : Char} (h : isIdentifierStart c = true) : c.isDigit = false := by
  have hall : ∀ n, 48 ≤ n → n ≤ 57 → isIdentifierStart (Char.ofNat n) = false := by
    intro n h1 h2
    have : ∀ k < 58, 48 ≤ k → isIdentifierStart (Char.ofNat k) = false := by decide +kernel
    exact this n (by omega) h1
  by_contra hd
  simp only [Char.isDigit, Bool.and_eq_true, decide_eq_true_eq, Bool.not_eq_false] at hd
  have := hall c.toNat hd.1 hd.2
  rw [Char.ofNat_toNat, h] at this
  cases this

theorem plainToken_word (h : isIdentifierStart c = true) (last : Option Kind) (cur : Cursor) :
    plainToken last c cur = wordToken last cur := by
  have hne {d : Char} (hd : isIdentifierStart d = false) : (c == d) = false := by
    rw [beq_eq_false_iff_ne]
    rintro rfl
    rw [h] at hd
    cases hd
  have h1 : (c == '"') = false := hne (by decide +kernel)
  have h2 : (c == '\'') = false := hne (by decide +kernel)
  have h3 : (c == '.') = false := hne (by decide +kernel)
  have h4 : (c == '#') = false := hne (by decide +kernel)
  have h5 : (c == '/') = false := hne (by decide +kernel)
  have h6 : (c == '\\') = false := hne (by decide +kernel)
  simp [plainToken, h1, h2, h3, h4, h5, h6, h, isDigit_of_start h]

/-! ## Lexemes -/

/-- The punctuators of generated code. -/
inductive Mark where
  | lparen | rparen | lbrace | rbrace | lbracket | rbracket | semicolon | comma | colon
  | dot | question | assign | identical | and | or
  deriving DecidableEq, Repr

namespace Mark

def chars : Mark → List Char
  | lparen => ['('] | rparen => [')'] | lbrace => ['\x7b'] | rbrace => ['\x7d']
  | lbracket => ['['] | rbracket => [']'] | semicolon => [';'] | comma => [','] | colon => [':']
  | dot => ['.'] | question => ['?'] | assign => ['='] | identical => ['=', '=', '=']
  | and => ['&', '&'] | or => ['|', '|']

def kind : Mark → Kind
  | lparen => .lparen | rparen => .rparen | lbrace => .lbrace | rbrace => .rbrace
  | lbracket => .lbracket | rbracket => .rbracket | semicolon => .semicolon | comma => .comma
  | colon => .colon | dot => .dot | question => .question | assign => .assign
  | identical | and | or => .operator

/-- No punctuator is longer than this one and starts with it. -/
def isSolid : Mark → Bool
  | lparen | rparen | lbrace | rbrace | lbracket | rbracket | semicolon | comma | colon => true
  | _ => false

end Mark

/-- A part of generated code. -/
inductive Lexeme where
  | word (w : String)
  | mark (m : Mark)
  /-- The literal of a string. -/
  | string (text : String)
  | space
  deriving DecidableEq, Repr

namespace Lexeme

def chars : Lexeme → List Char
  | word w => w.toList
  | mark m => m.chars
  | string text => quote text.toList
  | space => [' ']

/-- The token of a lexeme behind a token of the kind `last`. -/
def token? (last : Option Kind) : Lexeme → Option Token
  | word w => some { kind := wordKind last w, span := ⟨0, 0⟩, value := w }
  | mark m => some { kind := m.kind, span := ⟨0, 0⟩, value := String.ofList m.chars }
  | string text => some { kind := .string, span := ⟨0, 0⟩, value := text }
  | space => none

/-- Whether the lexeme is read as it is where `next` follows it. -/
def FitsBefore (next : List Char) : Lexeme → Prop
  | word w => isPlain w.toList = true ∧ EndsWord next
  | mark m => m.isSolid = true ∨ next.head? = some ' ' ∨
      m = .dot ∧ ∃ c, next.head? = some c ∧ isIdentifierStart c = true
  | string _ | space => True

end Lexeme

theorem nextToken_plain {last : Option Kind} {cs : List Char} {pos : Nat} {after : Cursor}
    (htrivia : skipTrivia false ⟨pos, c :: cs⟩ = .clear false ⟨pos, c :: cs⟩) (hquote : c ≠ '`')
    (ht : plainToken last c ⟨pos, c :: cs⟩ = (t, after)) (herror : t.kind ≠ .error) :
    nextToken ⟨last, ⟨pos, c :: cs⟩⟩ =
      ({ t with newlineBefore := false }, ⟨some t.kind, after⟩) := by
  rw [nextToken_eq]
  simp [htrivia, readBehind, hquote, ht, herror]

theorem nextToken_word {next : List Char} (hw : isPlain w = true) (hnext : EndsWord next)
    (last : Option Kind) (pos : Nat) :
    nextToken ⟨last, ⟨pos, w ++ next⟩⟩ =
      ({ kind := wordKind last (String.ofList w), span := ⟨pos, pos + byteLength w⟩,
         value := String.ofList w },
        ⟨some (wordKind last (String.ofList w)), ⟨pos + byteLength w, next⟩⟩) := by
  have hparts := isIdentifierPart_of_isPlain hw
  obtain ⟨c, cs, rfl, hc⟩ := exists_start_of_isPlain hw
  have hquote : c ≠ '`' := by
    rintro rfl
    revert hc
    decide +kernel
  have ht := (plainToken_word hc last ⟨pos, c :: cs ++ next⟩).trans
    (wordToken_append hparts hnext last pos)
  exact nextToken_plain (skipTrivia_word hc pos _) hquote ht (wordKind_ne (by decide) _ _)

/-- What the first character of a punctuator is not. -/
theorem Mark.chars_spec (m : Mark) : ∃ c cs, m.chars = c :: cs ∧ isBlank c = false ∧
    c ∉ ['/', '\ufeff', '`', '"', '\'', '#', '\\'] ∧ c.isDigit = false ∧
    isIdentifierStart c = false ∧ (c = '.' → m = .dot) := by
  cases m <;> exact ⟨_, _, rfl, by decide +kernel⟩

theorem punctuator?_mark {m : Mark} {next : List Char} (h : (Lexeme.mark m).FitsBefore next) :
    punctuator? (m.chars ++ next) = some (m.kind, m.chars.length) := by
  rcases h with h | h | ⟨rfl, c, h, hc⟩
  · cases m <;> first | exact absurd h (by decide) | rfl
  · obtain ⟨tail, rfl⟩ := List.head?_eq_some_iff.1 h
    cases m <;> rfl
  · obtain ⟨tail, rfl⟩ := List.head?_eq_some_iff.1 h
    have hdot : c ≠ '.' := by
      rintro rfl
      revert hc
      decide +kernel
    refine punctuator?_eq_some_iff.2 ⟨['.'], by decide, rfl, ⟨c :: tail, rfl, ?_⟩, ?_⟩
    · rintro ⟨h, -⟩
      exact absurd h (by decide)
    · rintro ⟨text, kind⟩ hx ⟨rest, htext, -⟩
      -- A longer punctuator would have a second dot.
      have htable : ∀ x ∈ punctuators, x.1.take 1 = ['.'] → 1 < x.1.length →
          x.1.take 2 = ['.', '.'] := by decide
      refine Nat.le_of_not_lt fun hlt => ?_
      obtain ⟨d, text, rfl⟩ := List.exists_cons_of_length_pos (Nat.zero_lt_of_lt hlt)
      obtain ⟨rfl, htail⟩ := List.cons.inj htext
      obtain ⟨e, text, rfl⟩ := List.exists_cons_of_length_pos (Nat.lt_of_succ_lt_succ hlt)
      obtain ⟨rfl, -⟩ := List.cons.inj htail
      exact hdot (List.cons.inj (List.cons.inj (htable _ hx rfl hlt)).2).1

theorem nextN_append (text rest : List Char) (pos : Nat) :
    nextN text.length ⟨pos, text ++ rest⟩ = ⟨pos + byteLength text, rest⟩ := by
  induction text generalizing pos with
  | nil => rfl
  | cons c text ih =>
    rw [List.length_cons, nextN]
    exact (ih (pos + c.utf8Size)).trans (by simp [Nat.add_assoc])

theorem Mark.kind_ne (m : Mark) : m.kind ≠ .eof ∧ m.kind ≠ .error := by
  cases m <;> decide

theorem head_of_fitsBefore_dot {next : List Char} (h : (Lexeme.mark .dot).FitsBefore next) :
    next.head?.any (·.isDigit) = false := by
  rcases h with h | h | ⟨-, c, h, hc⟩
  · cases h
  · rw [h]
    rfl
  · rw [h]
    exact isDigit_of_start hc

theorem nextToken_mark {m : Mark} {next : List Char} (h : (Lexeme.mark m).FitsBefore next)
    (last : Option Kind) (pos : Nat) :
    nextToken ⟨last, ⟨pos, m.chars ++ next⟩⟩ =
      ({ kind := m.kind, span := ⟨pos, pos + byteLength m.chars⟩, value := String.ofList m.chars },
        ⟨some m.kind, ⟨pos + byteLength m.chars, next⟩⟩) := by
  have hpunct := punctuator?_mark h
  have hafter := nextN_append m.chars next pos
  obtain ⟨c, cs, hchars, hblank, hne, hdigit, hstart, hdot⟩ := m.chars_spec
  simp only [List.mem_cons, List.not_mem_nil, or_false, not_or] at hne
  obtain ⟨hslash, hmark, htemplate, hdouble, hsingle, hhash, hback⟩ := hne
  have hbreak := isLineBreak_of_isBlank hblank
  have hnumber : (c == '.' && (cs ++ next).head?.any (·.isDigit)) = false := by
    by_cases hc : c = '.'
    · obtain rfl := hdot hc
      obtain rfl : [] = cs := (List.cons.inj hchars).2
      rw [List.nil_append, head_of_fitsBefore_dot h, Bool.and_false]
    · simp [hc]
  rw [hchars, List.cons_append] at hpunct hafter ⊢
  have htrivia : skipTrivia false ⟨pos, c :: (cs ++ next)⟩ =
      .clear false ⟨pos, c :: (cs ++ next)⟩ := by
    rw [skipTrivia_char (fun _ h => absurd h hslash) (fun _ h => absurd h hslash)]
    simp [hbreak, hblank, hmark]
  have hvalue : (c :: (cs ++ next)).take ((c :: (cs ++ next)).length - next.length) = c :: cs := by
    rw [← List.cons_append, List.length_append, Nat.add_sub_cancel, List.take_left]
  have ht : plainToken last c ⟨pos, c :: (cs ++ next)⟩ =
      ({ kind := m.kind, span := ⟨pos, pos + byteLength (c :: cs)⟩,
         value := String.ofList (c :: cs) }, ⟨pos + byteLength (c :: cs), next⟩) := by
    simp only [plainToken, beq_eq_false_iff_ne.2 hdouble, beq_eq_false_iff_ne.2 hsingle, hdigit,
      Cursor.next, hnumber, beq_eq_false_iff_ne.2 hhash, beq_eq_false_iff_ne.2 hslash,
      beq_eq_false_iff_ne.2 hback, hstart, Bool.or_false, Bool.false_and, Bool.false_eq_true,
      if_false, punctuatorToken, hpunct, hafter, between, hvalue]
  exact nextToken_plain htrivia htemplate ht m.kind_ne.2

/-- **A string literal is one token**, from quote to quote. -/
theorem nextToken_quote (cs next : List Char) (last : Option Kind) (pos : Nat) :
    nextToken ⟨last, ⟨pos, quote cs ++ next⟩⟩ =
      ({ kind := .string, span := ⟨pos, pos + byteLength (quote cs)⟩, value := String.ofList cs },
        ⟨some .string, ⟨pos + byteLength (quote cs), next⟩⟩) := by
  have hlength : pos + 1 + byteLength (quoteChars cs) + 1 = pos + byteLength (quote cs) := by
    have hquote : '"'.utf8Size = 1 := rfl
    simp only [quote, byteLength_cons, byteLength_append, byteLength_nil, hquote,
      List.cons_append]
    omega
  have hbody := stringBody_quoteChars cs next (pos + 1)
  rw [hlength] at hbody
  have ht : plainToken last '"' ⟨pos, '"' :: (quoteChars cs ++ '"' :: next)⟩ =
      ({ kind := .string, span := ⟨pos, pos + byteLength (quote cs)⟩, value := String.ofList cs },
        ⟨pos + byteLength (quote cs), next⟩) := by
    have hsize : '"'.utf8Size = 1 := rfl
    simp [plainToken, stringToken, Cursor.next, hsize, hbody]
  have htext : quote cs ++ next = '"' :: (quoteChars cs ++ '"' :: next) := by simp [quote]
  rw [htext]
  refine nextToken_plain ?_ (by decide) ht (by simp)
  rw [skipTrivia_char (fun _ h => by cases h) (fun _ h => by cases h)]
  rfl

/-- **A lexeme is read as its token**, if it has one. -/
theorem nextToken_lexeme {l : Lexeme} {next : List Char} (h : l.FitsBefore next)
    {last : Option Kind} (ht : l.token? last = some t) (pos : Nat) :
    nextToken ⟨last, ⟨pos, l.chars ++ next⟩⟩ =
      ({ t with span := ⟨pos, pos + byteLength l.chars⟩ },
        ⟨some t.kind, ⟨pos + byteLength l.chars, next⟩⟩) := by
  cases l with
  | word w =>
    obtain rfl := Option.some.inj ht
    have hread := nextToken_word h.1 h.2 last pos
    rw [String.ofList_toList] at hread
    exact hread
  | mark m =>
    obtain rfl := Option.some.inj ht
    exact nextToken_mark h last pos
  | string text =>
    obtain rfl := Option.some.inj ht
    have hread := nextToken_quote text.toList next last pos
    rw [String.ofList_toList] at hread
    exact hread
  | space => cases ht

theorem token?_ne_eof {l : Lexeme} {last : Option Kind} (h : l.token? last = some t) :
    t.kind ≠ .eof := by
  cases l with
  | word w =>
    obtain rfl := Option.some.inj h
    exact wordKind_ne (by decide) _ _
  | mark m =>
    obtain rfl := Option.some.inj h
    exact m.kind_ne.1
  | string text =>
    obtain rfl := Option.some.inj h
    simp
  | space => cases h

theorem tokensFrom_lexeme {l : Lexeme} {next : List Char} (h : l.FitsBefore next)
    (last : Option Kind) (pos : Nat) :
    (tokensFrom ⟨last, ⟨pos, l.chars ++ next⟩⟩).map bare =
      (l.token? last).toList ++
        (tokensFrom ⟨((l.token? last).map (·.kind)).or last,
          ⟨pos + byteLength l.chars, next⟩⟩).map bare := by
  cases ht : l.token? last with
  | none =>
    cases l with
    | space =>
      exact @tokensFrom_blanks false [' '] next (.blank (.inl rfl) .nil) (fun h => by cases h) last pos
    | _ => cases ht
  | some t =>
    rw [tokensFrom_eq, nextToken_lexeme h ht, if_neg (token?_ne_eof ht), List.map_cons]
    cases l with
    | space => cases ht
    | _ =>
      obtain rfl := Option.some.inj ht
      rfl

/-! ## Lists of lexemes -/

namespace Lexeme

/-- Words are written without escapes. -/
def isReadable : Lexeme → Bool
  | word w => isPlain w.toList
  | _ => true

/-- Whether a lexeme is told apart from the one behind it. -/
def fits : Lexeme → Lexeme → Bool
  | word _, word _ => false
  | mark m, word _ => m.isSolid || m == .dot
  | mark _, space => true
  | mark m, _ => m.isSolid
  | _, _ => true

/-- Each lexeme is told apart from the next, and the last one from whatever follows. -/
def wellSpaced : List Lexeme → Bool
  | [] => false
  | [mark m] => m.isSolid
  | [_] => false
  | l :: l' :: ls => l.fits l' && wellSpaced (l' :: ls)

/-- The text of a list of lexemes. -/
def text (ls : List Lexeme) : List Char :=
  ls.flatMap chars

/-- The kind of the last token behind a lexeme. -/
def kindBehind (last : Option Kind) (l : Lexeme) : Option Kind :=
  ((l.token? last).map (·.kind)).or last

/-- The tokens of a list of lexemes. -/
def spell (last : Option Kind) : List Lexeme → List Token
  | [] => []
  | l :: ls => (l.token? last).toList ++ spell (l.kindBehind last) ls

theorem endsWord_mark (m : Mark) (rest : List Char) : EndsWord (m.chars ++ rest) := by
  intro c hc
  have hall : ∀ m : Mark, ∃ d ds, m.chars = d :: ds ∧ isIdentifierPart d = false ∧ d ≠ '\\' := by
    intro m
    cases m <;> exact ⟨_, _, rfl, by decide +kernel⟩
  obtain ⟨d, ds, hm, hd⟩ := hall m
  rw [hm] at hc
  obtain rfl := Option.some.inj hc
  exact hd

theorem endsWord_of_head (h : isIdentifierPart c = false) (hc : c ≠ '\\') :
    EndsWord (c :: rest) := by
  intro d hd
  obtain rfl := Option.some.inj hd
  exact ⟨h, hc⟩

theorem fitsBefore_of_fits {l l' : Lexeme} (h : l.fits l' = true) (hl : l.isReadable = true)
    (hl' : l'.isReadable = true) (rest : List Char) : l.FitsBefore (l'.chars ++ rest) := by
  cases l with
  | string | space => trivial
  | word w =>
    refine ⟨hl, ?_⟩
    cases l' with
    | word => cases h
    | mark m => exact endsWord_mark m rest
    | string cs => exact endsWord_of_head (by decide +kernel) (by decide)
    | space => exact endsWord_of_head (by decide +kernel) (by decide)
  | mark m =>
    cases l' with
    | word w =>
      rcases Bool.or_eq_true_iff.1 h with hsolid | hdot
      · exact .inl hsolid
      · obtain ⟨c, cs, hw, hc⟩ := exists_start_of_isPlain hl'
        exact .inr (.inr ⟨beq_iff_eq.1 hdot, c, by rw [chars, hw]; rfl, hc⟩)
    | space => exact .inr (.inl rfl)
    | mark | string => exact .inl h

end Lexeme

open Lexeme

/-- **Lexemes that are well spaced are read as what they spell**, whatever follows them. -/
theorem tokensFrom_lexemes {ls : List Lexeme} (hr : ∀ l ∈ ls, l.isReadable = true)
    (hs : wellSpaced ls = true) (rest : List Char) (last : Option Kind) (pos : Nat) :
    (tokensFrom ⟨last, ⟨pos, text ls ++ rest⟩⟩).map bare =
      spell last ls ++
        (tokensFrom ⟨ls.foldl kindBehind last, ⟨pos + byteLength (text ls), rest⟩⟩).map bare := by
  fun_induction wellSpaced ls generalizing last pos with
  | case1 => cases hs
  | case2 m =>
    have hfits : FitsBefore rest (.mark m) := Or.inl hs
    simpa [text, spell, kindBehind] using tokensFrom_lexeme hfits last pos
  | case3 => cases hs
  | case4 l l' ls ih =>
    obtain ⟨hl, hr'⟩ := List.forall_mem_cons.1 hr
    obtain ⟨hfits, hs'⟩ := Bool.and_eq_true_iff.1 hs
    have hnext := fitsBefore_of_fits hfits hl (hr' l' (by simp)) (text ls ++ rest)
    have htext : text (l :: l' :: ls) ++ rest = l.chars ++ (text (l' :: ls) ++ rest) := by
      simp [text]
    have hnext' : l.FitsBefore (text (l' :: ls) ++ rest) := by simpa [text] using hnext
    rw [htext, tokensFrom_lexeme hnext', ih hr' hs']
    simp [spell, text, kindBehind, Nat.add_assoc]

end ModuleForge.Token
