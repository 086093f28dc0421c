import ModuleForge.Proofs.PlainNames
import ModuleForge.Scan

/-!
# What a quick look finds

A quick look at a source goes by the text at the start of statements, where the lexer goes by tokens.
The two agree on every module item that is written plainly: behind nothing but an indent, with no
comment behind its keyword and no escape in its words.

- `Token.nextToken_spelled`: a word that is written as it is read ends where its letters end.
- `Grammar.moduleItem_opening`: the first two tokens of a module item.
- `Scan.startsItem_of_moduleItem`: a plain item is found at its place.
- `Scan.hidden_of_not_needsTranspile`: what is passed on unread has no module item but hidden ones.
-/

namespace ModuleForge

open Text

/-! ## The first characters of tokens -/

namespace Token

open Cursor

variable {c : Char} {cur : Cursor} {rest : List Char} {r : Reader}

/-- Whether a token of the kind can start with the character, as far as it has to be known. -/
def Kind.startsWith (kind : Kind) (c : Char) : Bool :=
  match kind with
  | .string => c == '"' || c == '\''
  | .star => c == '*'
  | .lparen => c == '('
  | .lbrace => c == '\x7b'
  | _ => true

theorem startsWith_of_isOfWord {kind : Kind} (h : kind.isOfWord = true) (c : Char) :
    kind.startsWith c = true := by
  cases kind <;> first | rfl | cases h

theorem punctuator?_first {cs : List Char} {kind : Kind} {n : Nat}
    (h : punctuator? cs = some (kind, n)) :
    ∃ c rest, cs = c :: rest ∧ c.toNat < 128 ∧ kind.startsWith c = true := by
  obtain ⟨rest, hcs, -⟩ := punctuator?_begins h
  have htable : ∀ x ∈ punctuators,
      x.1.head?.any (fun c => c.toNat < 128 && x.2.startsWith c) = true := by decide
  obtain ⟨c, hc, hfirst⟩ := (Option.any_eq_true _ _).1 (htable _ (punctuator?_inv h).1)
  obtain ⟨hsmall, hstart⟩ : c.toNat < 128 ∧ kind.startsWith c = true := by simpa using hfirst
  obtain ⟨tail, htail⟩ : ∃ tail, cs.take n = c :: tail := List.head?_eq_some_iff.1 hc
  rw [htail] at hcs
  exact ⟨c, tail ++ rest, hcs, hsmall, hstart⟩

theorem plainToken_startsWith (last : Option Kind) (hcur : cur.rest = c :: rest) :
    (plainToken last c cur).1.kind.startsWith c = true := by
  have hread := plainToken_readBy last c cur
  generalize plainToken last c cur = out at hread ⊢
  cases hread with
  | string hquote =>
    simp only [stringToken]
    split
    · simpa [Kind.startsWith] using hquote
    · rfl
  | number => rfl
  | privateName =>
    simp only [privateToken]
    split <;> rfl
  | regex =>
    simp only [regexToken]
    split <;> rfl
  | word => exact startsWith_of_isOfWord (wordKind_isOfWord last _) c
  | punctuator =>
    simp only [punctuatorToken]
    split
    · rename_i hk
      obtain ⟨d, _, hd, -, hstart⟩ := punctuator?_first hk
      obtain rfl : c = d := (List.cons.inj (hcur.symm.trans hd)).1
      exact hstart
    · rfl

theorem exists_first {newline : Bool} (htrivia : skipTrivia false r.cursor = .clear newline cur)
    (hk : (nextToken r).1.kind ≠ .eof) : ∃ c rest, cur.rest = c :: rest := by
  cases hrest : cur.rest with
  | nil =>
    rw [nextToken_eq, htrivia] at hk
    simp [readBehind, hrest] at hk
  | cons c rest => exact ⟨c, rest, rfl⟩

theorem nextToken_startsWith {newline : Bool}
    (htrivia : skipTrivia false r.cursor = .clear newline cur) (hcur : cur.rest = c :: rest) :
    (nextToken r).1.kind.startsWith c = true := by
  rw [nextToken_eq, htrivia]
  simp only [readBehind, hcur]
  split
  · have hbody := (templateBody_inside cur.pos ⟨r.last, ⟨cur.pos + 1, rest⟩⟩).2
    split
    · rename_i token htoken
      simp only [hbody token htoken]
      rfl
    · rfl
  · exact plainToken_startsWith r.last hcur

/-! ## Words -/

/-- The letters and escapes that a text starts with. -/
def spelling (cs : List Char) : List Char :=
  cs.takeWhile fun c => isIdentifierPart c || c == '\\'

theorem identifierBody_plain (cur : Cursor) (h : '\\' ∉ spelling cur.rest) :
    identifierBody cur = cur.span isIdentifierPart := by
  obtain ⟨hsplit, hletters, hstop⟩ := span_spec isIdentifierPart cur
  have hends : EndsWord (cur.span isIdentifierPart).2.rest := by
    refine fun c hc => ⟨hstop c hc, ?_⟩
    rintro rfl
    obtain ⟨tail, htail⟩ := List.head?_eq_some_iff.1 hc
    -- The letters and the backslash behind them are all part of the spelling.
    rw [hsplit, htail, spelling,
      List.takeWhile_append_of_pos (fun d hd => by simp [hletters d hd])] at h
    simp at h
  have hread := identifierBody_append hletters hends cur.pos
  rwa [← hsplit] at hread

theorem start_of_isOfWord {newline : Bool}
    (htrivia : skipTrivia false r.cursor = .clear newline cur)
    (hk : (nextToken r).1.kind.isOfWord = true) (hcur : cur.rest = c :: rest) (hc : c ≠ '\\') :
    isIdentifierStart c = true := by
  obtain ⟨_, cur', c', _, htrivia', hcur', hstart, -⟩ := nextToken_isOfWord hk
  obtain ⟨rfl, rfl⟩ := Trivia.clear.inj (htrivia.symm.trans htrivia')
  obtain ⟨rfl, -⟩ := List.cons.inj (hcur.symm.trans hcur')
  exact hstart.resolve_left hc

/-- **A word without escapes is its letters**, behind which no letter follows. -/
theorem nextToken_spelled {newline : Bool}
    (htrivia : skipTrivia false r.cursor = .clear newline cur)
    (hk : (nextToken r).1.kind.isOfWord = true) (hback : '\\' ∉ spelling cur.rest) :
    ∃ rest, cur.rest = (nextToken r).1.value.toList ++ rest ∧ (nextToken r).2.cursor.rest = rest ∧
      ∀ c, rest.head? = some c → isIdentifierPart c = false := by
  obtain ⟨newline', cur', c, tail, htrivia', -, -, -, hnext⟩ := nextToken_isOfWord hk
  obtain ⟨rfl, rfl⟩ := Trivia.clear.inj (htrivia.symm.trans htrivia')
  obtain ⟨hsplit, -, hstop⟩ := span_spec isIdentifierPart cur
  have hread := identifierBody_plain cur hback
  refine ⟨(cur.span isIdentifierPart).2.rest, ?_, ?_, hstop⟩
  · simp only [hnext, wordToken, hread, String.toList_ofList]
    exact hsplit
  · simp only [hnext, wordToken, hread]

/-- A word character that is not part of a name is no ASCII character and no blank. -/
theorem notBlank_of_isWord (hword : Text.isWord c = true) (hpart : isIdentifierPart c = false) :
    128 ≤ c.toNat ∧ isBlank c = false ∧ c ≠ '\ufeff' := by
  refine ⟨?_, ?_, ?_⟩
  · by_contra hsmall
    simp only [isIdentifierPart, isAlnum, isNumeric, Bool.or_eq_false_iff, beq_eq_false_iff_ne,
      if_pos (show c.toNat < 128 by omega)] at hpart
    have hunder : c.toNat ≠ 0x5F := fun h => hpart.1.1.2 (by rw [← Char.ofNat_toNat c, h])
    simp only [Text.isWord, isDecimal, isConnector, isMark, Bool.or_eq_true, Bool.and_eq_true,
      hpart, if_pos (show c.toNat < 128 by omega), decide_eq_true_eq, beq_iff_eq, reduceCtorEq,
      false_or, or_false] at hword
    omega
  · have hall : ∀ n ∈ blankCodes, Text.isWord (Char.ofNat n) = false := by decide +kernel
    by_contra hb
    have := hall _ (toNat_mem_blankCodes (by simpa using hb))
    rw [Char.ofNat_toNat, hword] at this
    cases this
  · rintro rfl
    revert hword
    decide +kernel

/-- **A word character that is not part of a name is no token.** -/
theorem nextToken_isWord (hcur : r.cursor.rest = c :: rest) (hword : Text.isWord c = true)
    (hpart : isIdentifierPart c = false) : (nextToken r).1.kind = .error := by
  obtain ⟨last, pos, _⟩ := r
  obtain rfl : _ = c :: rest := hcur
  obtain ⟨hlarge, hblank, hmark⟩ := notBlank_of_isWord hword hpart
  have hne {d : Char} (hd : d.toNat < 128) : c ≠ d := by
    rintro rfl
    omega
  have hslash : c ≠ '/' := hne (by decide)
  have hbreak := isLineBreak_of_isBlank hblank
  have hdigit : c.isDigit = false := by
    by_contra hd
    simp only [Char.isDigit, Bool.and_eq_true, decide_eq_true_eq, Bool.not_eq_false] at hd
    have : c.toNat ≤ 57 := hd.2
    omega
  have hstart : isIdentifierStart c = false := by
    by_contra hs
    rw [isIdentifierPart_of_start (by simpa using hs)] at hpart
    cases hpart
  have hpunct : punctuator? (c :: rest) = none := by
    cases hp : punctuator? (c :: rest) with
    | none => rfl
    | some found =>
      obtain ⟨d, tail, hd, hsmall, -⟩ := punctuator?_first hp
      exact absurd (List.cons.inj hd).1 (hne hsmall)
  rw [nextToken_eq, skipTrivia_char (fun _ h => absurd h hslash) (fun _ h => absurd h hslash)]
  simp [hbreak, hblank, hmark, readBehind, hne (d := '`') (by decide), plainToken,
    hne (d := '"') (by decide), hne (d := '\'') (by decide), hdigit, hne (d := '.') (by decide),
    hne (d := '#') (by decide), hslash, hne (d := '\\') (by decide), hstart, punctuatorToken,
    hpunct, ofError]

/-! ## Blanks -/

/-- Where neither a comment nor a byte order mark follows the blanks, there are only blanks. -/
theorem Blanks.dropWhile_isBlank {last : Bool} {text : List Char} (h : Blanks last text)
    (hrest : NoBlank rest)
    (hfree : ∀ c, ((text ++ rest).dropWhile isBlank).head? = some c → c ≠ '/' ∧ c ≠ '\ufeff') :
    (text ++ rest).dropWhile isBlank = rest := by
  induction h with
  | nil =>
    cases rest with
    | nil => rfl
    | cons c rest => simp [(hrest c rfl).1]
  | @blank c cs hc _ ih =>
    by_cases hb : isBlank c = true
    · simp only [List.cons_append, List.dropWhile_cons, hb, if_true] at hfree ⊢
      exact ih hfree
    · simp only [List.cons_append, List.dropWhile_cons, hb] at hfree
      exact absurd (hc.resolve_left hb) (hfree c rfl).2
  | line => exact absurd rfl (hfree '/' rfl).1
  | lastLine => exact absurd rfl (hfree '/' rfl).1
  | block => exact absurd rfl (hfree '/' rfl).1

/-- **Behind blanks alone, the next token starts with the first other character.** -/
theorem skipTrivia_isBlank (herror : (nextToken r).1.kind ≠ .error)
    (hfree : ∀ c, (r.cursor.rest.dropWhile isBlank).head? = some c → c ≠ '/' ∧ c ≠ '\ufeff') :
    ∃ newline cur, skipTrivia false r.cursor = .clear newline cur ∧
      cur.rest = r.cursor.rest.dropWhile isBlank := by
  obtain ⟨newline, cur, htrivia⟩ := exists_clear herror
  obtain ⟨text, htext, hblanks, hno⟩ := skipTrivia_blanks htrivia
  rw [htext] at hfree ⊢
  exact ⟨newline, cur, htrivia, (hblanks.dropWhile_isBlank hno hfree).symm⟩

theorem mem_keywords (hk : (nextToken r).1.kind.isOfWord = true)
    (hne : (nextToken r).1.kind ≠ .identifier) :
    ((nextToken r).1.value, (nextToken r).1.kind) ∈ keywords := by
  obtain ⟨_, cur, _, _, -, -, -, -, hnext⟩ := nextToken_isOfWord hk
  rw [hnext] at hne ⊢
  have hkind : (wordToken r.last cur).1.kind = wordKind r.last (wordToken r.last cur).1.value := rfl
  simp only [hkind] at hne ⊢
  unfold wordKind at hne ⊢
  split at hne
  · exact absurd rfl hne
  · cases hkey : keyword? (wordToken r.last cur).1.value with
    | none => simp [hkey] at hne
    | some kind =>
      obtain ⟨l1, l2, hl, -⟩ := List.lookup_eq_some_iff.1 hkey
      simp_all

/-! ## Places -/

theorem tokensFrom_cons {t : Token} {ts : List Token} (h : tokensFrom r = t :: ts) :
    (nextToken r).1 = t ∧ (t.kind ≠ .eof → tokensFrom (nextToken r).2 = ts) := by
  rw [tokensFrom_eq] at h
  split at h
  · obtain ⟨rfl, rfl⟩ := List.cons.inj h
    exact ⟨rfl, fun ht => absurd ‹_› ht⟩
  · obtain ⟨rfl, rfl⟩ := List.cons.inj h
    exact ⟨rfl, fun _ => rfl⟩

theorem nextToken_mem (r : Reader) : (nextToken r).1 ∈ tokensFrom r := by
  rw [tokensFrom_eq]
  split <;> simp

theorem mem_tokensFrom_of_next {t : Token} (hk : (nextToken r).1.kind ≠ .eof)
    (ht : t ∈ tokensFrom (nextToken r).2) : t ∈ tokensFrom r := by
  rw [tokensFrom_eq, if_neg hk]
  exact List.mem_cons_of_mem _ ht

/-- A place that is reached in the tokens of a text is where a reader stands. -/
theorem exists_reader {s s' : Grammar.Tokens} (hr : s.Reaches s') (hs : s.rest = tokensFrom r) :
    ∃ r', s'.rest = tokensFrom r' ∧ r.cursor.Reaches r'.cursor := by
  induction hr generalizing r with
  | refl s => exact ⟨r, hs, .refl _⟩
  | @step s s' t rest hrest ht _ ih =>
    obtain ⟨r', hr', hreach⟩ := ih ((tokensFrom_cons (hs.symm.trans hrest)).2 ht).symm
    exact ⟨r', hr', (nextToken_reads r).reaches.trans hreach⟩

end Token

/-! ## The first tokens of an item -/

namespace Grammar

open Token (Kind)
open Tokens

variable {s s' : Tokens} {st : Statement}

theorem rest_of_current (h : s.current.kind ≠ .eof) : ∃ rest, s.rest = s.current :: rest := by
  cases hr : s.rest with
  | nil => simp [current, hr] at h
  | cons t rest => exact ⟨rest, by rw [current_of_rest hr]⟩

theorem importClause_opening {specs : List ImportSpecifier} (h : importClause s = .ok specs s') :
    s.current.kind = .star ∨ s.current.kind = .lbrace := by
  obtain ⟨t, s1, h1, h⟩ := bind_eq_ok.1 h
  cases h1
  cases hk : s.current.kind with
  | star => exact .inl rfl
  | lbrace => exact .inr rfl
  | _ => simp only [hk] at h; cases h

theorem importSpecifiers_opening {specs : List ImportSpecifier}
    (h : importSpecifiers s = .ok specs s') :
    s.current.kind ∈ [Kind.string, .identifier, .star, .lbrace] := by
  obtain ⟨binding, s1, h1, hclause⟩ := bind_eq_ok.1 h
  rcases optionalIdentifier_eq_ok h1 with ⟨rfl, rfl⟩ | ⟨t, rest, hrest, hk, -⟩
  · rcases importClause_opening hclause with hk | hk <;> simp [hk]
  · simp [current_of_rest hrest, hk]

theorem importDecl_opening {decl : ImportDecl} (h : importDecl s = .ok decl s') :
    ∃ t next rest, s.rest = t :: next :: rest ∧ t.kind = .kwImport ∧
      next.kind ∈ [Kind.string, .identifier, .star, .lbrace] := by
  obtain ⟨t, s1, h1, h⟩ := bind_eq_ok.1 h
  obtain ⟨next, s2, h2, h⟩ := bind_eq_ok.1 h
  cases h2
  obtain ⟨rest, hrest, ht, -, rfl⟩ := consume_eq_ok h1
  have hkind : (Tokens.current ⟨some t, rest⟩).kind ∈
      [Kind.string, .identifier, .star, .lbrace] := by
    split at h
    · rename_i hstring
      simp [show _ = Kind.string by simpa using hstring]
    · obtain ⟨specifiers, s3, h3, -⟩ := bind_eq_ok.1 h
      exact importSpecifiers_opening h3
  obtain ⟨tail, htail⟩ := rest_of_current (s := ⟨some t, rest⟩) (by rintro hk; simp [hk] at hkind)
  exact ⟨t, _, tail, hrest.trans (congrArg _ htail), ht, hkind⟩

/-- The words that can follow `export`, as tokens. -/
def opensExport (t : Token) : Bool :=
  [Kind.kwDefault, .kwVar, .kwLet, .kwConst, .kwFunction, .kwClass].contains t.kind ||
    t.isWord "async"

theorem exportHoistable_word {start : Nat} (hk : s.current.kind = .identifier)
    (h : exportHoistable start s = .ok st s') : s.current.isWord "async" = true := by
  obtain ⟨first, s1, h1, h⟩ := bind_eq_ok.1 h
  cases h1
  obtain ⟨found, s2, h2, -⟩ := bind_eq_ok.1 h
  obtain ⟨⟨⟩, s3, h3, h2⟩ := bind_eq_ok.1 h2
  obtain ⟨t, s4, h4, h2⟩ := bind_eq_ok.1 h2
  cases h4
  cases h3
  by_contra hword
  have hno : atAsyncFunction s = false := by simp [atAsyncFunction, hword]
  simp only [hno, Bool.false_eq_true, if_false, hk] at h2
  cases h2

theorem exportItem_opening (h : exportItem s = .ok st s') :
    ∃ t next rest, s.rest = t :: next :: rest ∧ t.kind = .kwExport ∧
      (next.kind = .star ∨ next.kind = .lbrace ∨ opensExport next = true) := by
  obtain ⟨t, s1, h1, h⟩ := bind_eq_ok.1 h
  obtain ⟨next, s2, h2, h⟩ := bind_eq_ok.1 h
  cases h2
  obtain ⟨rest, hrest, ht, -, rfl⟩ := consume_eq_ok h1
  have hkind : (Tokens.current ⟨some t, rest⟩).kind = .star ∨
      (Tokens.current ⟨some t, rest⟩).kind = .lbrace ∨
      opensExport (Tokens.current ⟨some t, rest⟩) = true := by
    cases hk : (Tokens.current ⟨some t, rest⟩).kind with
    | star => exact .inl rfl
    | lbrace => exact .inr (.inl rfl)
    | kwDefault | kwVar | kwLet | kwConst | kwFunction | kwClass =>
      exact .inr (.inr (by simp [opensExport, hk]))
    | identifier =>
      simp only [hk] at h
      exact .inr (.inr (by simp [opensExport, exportHoistable_word hk h]))
    | _ => simp only [hk] at h; cases h
  obtain ⟨tail, htail⟩ := rest_of_current (s := ⟨some t, rest⟩) (by
    rintro hk
    simp [hk, opensExport, Token.isWord] at hkind)
  exact ⟨t, _, tail, hrest.trans (congrArg _ htail), ht, hkind⟩

/-- **The first two tokens of a module item.** -/
theorem moduleItem_opening (h : moduleItem s = .ok st s') :
    ∃ t next rest, s.rest = t :: next :: rest ∧
      ((t.kind = .kwImport ∧ next.kind ∈ [Kind.string, .identifier, .star, .lbrace]) ∨
        t.kind = .kwExport ∧
          (next.kind = .star ∨ next.kind = .lbrace ∨ opensExport next = true)) := by
  obtain ⟨t, s1, ht, h⟩ := bind_eq_ok.1 h
  cases ht
  split at h
  · obtain ⟨decl, hdecl, -⟩ := map_eq_ok.1 h
    obtain ⟨t, next, rest, hrest, hopen⟩ := importDecl_opening hdecl
    exact ⟨t, next, rest, hrest, .inl hopen⟩
  · obtain ⟨t, next, rest, hrest, hopen⟩ := exportItem_opening h
    exact ⟨t, next, rest, hrest, .inr hopen⟩

end Grammar

/-! ## Items that are found -/

namespace Scan

open Token

variable {rest : List Char} {r : Reader}

/-- Spaces and tabs, which can stand before a statement. -/
def isIndent (c : Char) : Bool :=
  c == ' ' || c == '\t'

/-- **Ways to write a module item that is not found at its place**, by the text from its keyword
on. -/
inductive Disguised (text : List Char) : Prop
  /-- The keyword has an escape. -/
  | keyword : '\\' ∈ spelling text → Disguised text
  /-- A comment or a byte order mark stands behind the keyword. -/
  | gap {rest : List Char} :
      text = "import".toList ++ rest ∨ text = "export".toList ++ rest →
      (rest.dropWhile isBlank).head?.any (fun c => c == '/' || c == '\ufeff') = true →
      Disguised text
  /-- The first name of an import starts with an escape. -/
  | name {rest : List Char} : text = "import".toList ++ rest →
      (rest.dropWhile isBlank).head? = some '\\' → Disguised text
  /-- The word behind `export` has an escape. -/
  | word {rest : List Char} : text = "export".toList ++ rest →
      '\\' ∈ spelling (rest.dropWhile isBlank) → Disguised text

/-- **A module item that is not found**: it is disguised, or something else than an indent stands
between it and the next character before it where a statement can start. -/
def Hidden (before text : List Char) : Prop :=
  (before.reverse.dropWhile isIndent).head?.any (!opensStatement ·) = true ∨ Disguised text

@[simp] theorem after?_append (start rest : List Char) : after? start (start ++ rest) = some rest := by
  simp [after?]

theorem itemBehind_append {c : Char} {ys : List Char} (hc : opensStatement c = true)
    (h : startsItem ys = true) (xs : List Char) : itemBehind (xs ++ c :: ys) = true := by
  induction xs with
  | nil => simp [itemBehind, hc, h]
  | cons x xs ih => simp [itemBehind, ih]

theorem startsItem_eq (cs : List Char) :
    startsItem cs = ((after? "import".toList (cs.dropWhile isIndent)).any importFollows ||
      (after? "export".toList (cs.dropWhile isIndent)).any exportFollows) :=
  rfl

/-- An indent does not keep an item from being found. -/
theorem startsItem_indent {indent text : List Char} (h : ∀ c ∈ indent, isIndent c = true) :
    startsItem (indent ++ text) = startsItem text := by
  rw [startsItem_eq, List.dropWhile_append_of_pos h, ← startsItem_eq]

/-- **An item behind an indent is found.** -/
theorem isModule_of_startsItem {source : String} {before text : List Char}
    (hsource : source.toList = before ++ text) (htext : startsItem text = true)
    (hbefore : (before.reverse.dropWhile isIndent).head?.any (!opensStatement ·) = false) :
    isModule source = true := by
  have hsplit : before = (before.reverse.dropWhile isIndent).reverse ++
      (before.reverse.takeWhile isIndent).reverse := by
    rw [← List.reverse_append, List.takeWhile_append_dropWhile, List.reverse_reverse]
  have hindent : startsItem ((before.reverse.takeWhile isIndent).reverse ++ text) = true := by
    rw [startsItem_indent fun c hc => List.mem_takeWhile_imp (List.mem_reverse.1 hc), htext]
  cases hrest : before.reverse.dropWhile isIndent with
  | nil =>
    rw [hrest, List.reverse_nil, List.nil_append] at hsplit
    rw [isModule, hsource, hsplit, hindent, Bool.true_or]
  | cons c tail =>
    have hc : opensStatement c = true := by simpa [hrest] using hbefore
    rw [hrest, List.reverse_cons, List.append_assoc, List.singleton_append] at hsplit
    rw [isModule, hsource, hsplit, List.append_assoc, List.cons_append,
      itemBehind_append hc hindent, Bool.or_true]

/-- A name is set off from the keyword before it. -/
theorem isBlank_of_part {tail : List Char} {c : Char}
    (hhead : ∀ d, rest.head? = some d → isIdentifierPart d = false)
    (hrest : rest.dropWhile isBlank = c :: tail) (hc : isIdentifierPart c = true) :
    rest.head?.any isBlank = true := by
  cases rest with
  | nil => cases hrest
  | cons d rest =>
    by_contra hb
    have hd : isBlank d = false := by simpa using hb
    simp only [List.dropWhile_cons, hd, Bool.false_eq_true, if_false] at hrest
    obtain ⟨rfl, -⟩ := List.cons.inj hrest
    rw [hhead d rfl] at hc
    cases hc

theorem importFollows_of_kind
    (hk : (nextToken r).1.kind ∈ [Kind.string, .identifier, .star, .lbrace])
    (hhead : ∀ c, r.cursor.rest.head? = some c → isIdentifierPart c = false)
    (hfree : ∀ c, (r.cursor.rest.dropWhile isBlank).head? = some c → c ≠ '/' ∧ c ≠ '\ufeff')
    (hname : (r.cursor.rest.dropWhile isBlank).head? ≠ some '\\') :
    importFollows r.cursor.rest = true := by
  obtain ⟨newline, cur, htrivia, hcur⟩ := skipTrivia_isBlank (fun he => by simp [he] at hk) hfree
  cases hrest : cur.rest with
  | nil =>
    rw [nextToken_eq, htrivia] at hk
    simp [readBehind, hrest] at hk
  | cons c tail =>
    rw [hrest] at hcur
    have hstart := nextToken_startsWith htrivia hrest
    unfold importFollows
    rw [← hcur]
    simp only [List.mem_cons, List.not_mem_nil, or_false] at hk
    rcases hk with hk | hk | hk | hk <;> rw [hk] at hstart
    · simp only [Kind.startsWith, Bool.or_eq_true] at hstart
      rcases hstart with h | h <;> simp [h]
    · have hc : isIdentifierStart c = true :=
        start_of_isOfWord htrivia (by rw [hk]; rfl) hrest fun h => hname (by rw [← hcur, h]; rfl)
      have hnameChar : isNameChar c = true := by
        simp only [isIdentifierStart, Bool.or_eq_true, beq_iff_eq] at hc
        rcases hc with (h | rfl) | rfl
        · simp [isNameChar, Text.isWord, h]
        · decide +kernel
        · decide +kernel
      simp [hnameChar, isBlank_of_part hhead hcur.symm (isIdentifierPart_of_start hc)]
    · simp [show c = '*' by simpa [Kind.startsWith] using hstart]
    · simp [show c = '\x7b' by simpa [Kind.startsWith] using hstart]

theorem mem_exportWords (h : Grammar.opensExport (nextToken r).1 = true) :
    (nextToken r).1.kind.isOfWord = true ∧ (nextToken r).1.value ∈ exportWords := by
  simp only [Grammar.opensExport, Bool.or_eq_true, List.contains_iff_mem, Token.isWord,
    Bool.and_eq_true, beq_iff_eq] at h
  rcases h with h | ⟨hk, hvalue⟩
  · have hword : (nextToken r).1.kind.isOfWord = true := by
      simp only [List.mem_cons, List.not_mem_nil, or_false] at h
      rcases h with h | h | h | h | h | h <;> rw [h] <;> rfl
    have hmem := mem_keywords hword (fun he => by simp [he] at h)
    refine ⟨hword, ?_⟩
    simp only [List.mem_cons, List.not_mem_nil, or_false] at h
    rcases h with h | h | h | h | h | h <;> rw [h] at hmem <;> simp [keywords] at hmem <;>
      simp [hmem, exportWords]
  · exact ⟨by rw [hk]; rfl, by rw [hvalue]; decide⟩

theorem exportFollows_of_opens (hk : (nextToken r).1.kind = .star ∨ (nextToken r).1.kind = .lbrace ∨
      Grammar.opensExport (nextToken r).1 = true)
    (hhead : ∀ c, r.cursor.rest.head? = some c → isIdentifierPart c = false)
    (hfree : ∀ c, (r.cursor.rest.dropWhile isBlank).head? = some c → c ≠ '/' ∧ c ≠ '\ufeff')
    (hword : '\\' ∉ spelling (r.cursor.rest.dropWhile isBlank))
    (herror : ∀ t ∈ tokensFrom r, t.kind ≠ .error) : exportFollows r.cursor.rest = true := by
  have heof : (nextToken r).1.kind ≠ .eof := by
    intro he
    simp [he, Grammar.opensExport, Token.isWord] at hk
  obtain ⟨newline, cur, htrivia, hcur⟩ := skipTrivia_isBlank (herror _ (nextToken_mem r)) hfree
  obtain ⟨c, tail, hc⟩ := exists_first htrivia heof
  have hstart := nextToken_startsWith htrivia hc
  rcases hk with hk | hk | hk
  · rw [hk] at hstart
    simp [exportFollows, ← hcur, hc, show c = '*' by simpa [Kind.startsWith] using hstart]
  · rw [hk] at hstart
    simp [exportFollows, ← hcur, hc, show c = '\x7b' by simpa [Kind.startsWith] using hstart]
  · obtain ⟨hkind, hvalue⟩ := mem_exportWords hk
    rw [← hcur] at hword
    obtain ⟨rest, hrest, hafter, hstop⟩ := nextToken_spelled htrivia hkind hword
    -- A word character that is no letter would be an error behind the word.
    have hnext : rest.head?.any Text.isWord = false := by
      cases hr : rest with
      | nil => rfl
      | cons d tail =>
        by_contra hd
        have hmem := mem_tokensFrom_of_next heof (nextToken_mem (nextToken r).2)
        exact herror _ hmem (nextToken_isWord (hafter.trans hr) (by simpa using hd)
          (hstop d (by rw [hr]; rfl)))
    have hwhole : startsWithWord cur.rest (nextToken r).1.value = true := by
      simp [startsWithWord, hrest, hnext]
    have hletter : isIdentifierStart c = true := by
      refine start_of_isOfWord htrivia hkind hc ?_
      rintro rfl
      simp [hc, spelling] at hword
    have hset := isBlank_of_part hhead (hcur.symm.trans hc) (isIdentifierPart_of_start hletter)
    have hany : exportWords.any (startsWithWord cur.rest) = true :=
      List.any_eq_true.2 ⟨_, hvalue, hwhole⟩
    simp [exportFollows, ← hcur, hset, hany]

theorem startsItem_import (h : importFollows rest = true) :
    startsItem ("import".toList ++ rest) = true := by
  have hindent : ("import".toList ++ rest).dropWhile isIndent = "import".toList ++ rest := rfl
  rw [startsItem_eq, hindent, after?_append, Option.any_some, h, Bool.true_or]

theorem startsItem_export (h : exportFollows rest = true) :
    startsItem ("export".toList ++ rest) = true := by
  have hindent : ("export".toList ++ rest).dropWhile isIndent = "export".toList ++ rest := rfl
  rw [startsItem_eq, hindent, after?_append, Option.any_some, h, Bool.or_true]

/-- **A module item is found at its place, or it is disguised.** -/
theorem startsItem_of_moduleItem {s s' : Grammar.Tokens} {st : Statement}
    (hs : s.rest = tokensFrom r) (herror : ∀ t ∈ tokensFrom r, t.kind ≠ .error)
    (hitem : Grammar.moduleItem s = .ok st s') :
    ∃ newline cur, skipTrivia false r.cursor = .clear newline cur ∧
      s.current.span.start = cur.pos ∧ (startsItem cur.rest = true ∨ Disguised cur.rest) := by
  obtain ⟨t, next, tail, hrest, hopen⟩ := Grammar.moduleItem_opening hitem
  obtain ⟨rfl, hmore⟩ := tokensFrom_cons (hs.symm.trans hrest)
  have hword : (nextToken r).1.kind.isOfWord = true := by
    rcases hopen with ⟨hk, -⟩ | ⟨hk, -⟩ <;> rw [hk] <;> rfl
  have heof : (nextToken r).1.kind ≠ .eof := fun he => by rw [he] at hword; cases hword
  obtain ⟨rfl, -⟩ := tokensFrom_cons (hmore heof)
  obtain ⟨newline, cur, c, chars, htrivia, hcur, -, -, hnext⟩ := nextToken_isOfWord hword
  refine ⟨newline, cur, htrivia, ?_, ?_⟩
  · rw [Grammar.Tokens.current_of_rest hrest, hnext]
    rfl
  by_cases hback : '\\' ∈ spelling cur.rest
  · exact .inr (.keyword hback)
  obtain ⟨rest, hspelled, hafter, hstop⟩ := nextToken_spelled htrivia hword hback
  rw [← hafter] at hspelled hstop
  have hvalue := mem_keywords hword (by rcases hopen with ⟨hk, -⟩ | ⟨hk, -⟩ <;> simp [hk])
  have hkey : (nextToken r).1.value = "import" ∨ (nextToken r).1.value = "export" := by
    rcases hopen with ⟨hk, -⟩ | ⟨hk, -⟩ <;> rw [hk] at hvalue <;> simp [keywords] at hvalue <;>
      simp [hvalue]
  by_cases hgap : ((nextToken r).2.cursor.rest.dropWhile isBlank).head?.any
      (fun c => c == '/' || c == '\ufeff') = true
  · exact .inr (.gap (hkey.imp (fun h => by rw [hspelled, h]) fun h => by rw [hspelled, h]) hgap)
  have hfree : ∀ c, ((nextToken r).2.cursor.rest.dropWhile isBlank).head? = some c →
      c ≠ '/' ∧ c ≠ '\ufeff' := by
    intro c hc
    simpa [hc] using hgap
  rcases hopen with ⟨hk, hkind⟩ | ⟨hk, hkind⟩ <;> rw [hk] at hvalue <;>
    simp [keywords] at hvalue <;> rw [hvalue] at hspelled
  · by_cases hname : ((nextToken r).2.cursor.rest.dropWhile isBlank).head? = some '\\'
    · exact .inr (.name hspelled hname)
    · rw [hspelled]
      exact .inl (startsItem_import (importFollows_of_kind hkind hstop hfree hname))
  · by_cases hspell : '\\' ∈ spelling ((nextToken r).2.cursor.rest.dropWhile isBlank)
    · exact .inr (.word hspelled hspell)
    · rw [hspelled]
      exact .inl (startsItem_export (exportFollows_of_opens hkind hstop hfree hspell fun t ht =>
        herror t (mem_tokensFrom_of_next heof ht)))

/-- **What is passed on unread has no module item but hidden ones.** If a source can be read and a
quick look finds nothing in it, then each of its statements is a text of the source or a module item
that is disguised or does not stand at the start of a statement, as far as the text before shows. -/
theorem hidden_of_not_needsTranspile {source : String} {p : Program}
    (hlook : needsTranspile source = false) (hparse : Grammar.parse source = .ok p)
    {st : Statement} (hst : st ∈ p.statements) :
    (∃ span, st = .verbatim (.ofSpan span)) ∨
      ∃ span before text, st.sourceSpan? = some span ∧ source.toList = before ++ text ∧
        span.start = byteLength before ∧ Hidden before text := by
  rcases Grammar.parse_statement hparse hst with hspan | ⟨s, s', hreach, hitem⟩
  · exact .inl hspan
  obtain ⟨r, hr, hcursor⟩ := exists_reader hreach rfl
  have herror : ∀ t ∈ tokensFrom r, t.kind ≠ .error := fun t ht =>
    Grammar.ne_error_of_parse hparse t (hreach.mem (hr ▸ ht))
  obtain ⟨newline, cur, htrivia, hstart, hfound⟩ := startsItem_of_moduleItem hr herror hitem
  obtain ⟨before, hsource, hpos⟩ := ((skipHashbang_reaches ⟨0, source.toList⟩).trans hcursor).trans
    (reaches_of_clear htrivia)
  have hplaced := (Grammar.moduleItem_placed
    ((Grammar.Tokens.Laid.scan source).of_reaches hreach) hitem).1
  refine .inr ⟨_, before, cur.rest, hplaced, hsource, ?_, ?_⟩
  · simp [hstart, hpos]
  · by_contra hhidden
    obtain ⟨hbefore, htext⟩ := not_or.1 hhidden
    have := isModule_of_startsItem hsource (hfound.resolve_right htext) (by simpa using hbefore)
    simp [needsTranspile, this] at hlook

/-- An import behind a comment and an export with a comment behind its keyword. -/
theorem hidden_of_not_needsTranspile_commented :
    let source := "/* c */ import a from \"y\";\n  export/**/\x7b a \x7d;"
    needsTranspile source = false ∧ ∃ p, Grammar.parse source = .ok p ∧
      p.statements.filterMap (·.sourceSpan?) = [⟨8, 26⟩, ⟨29, 45⟩] ∧
      ∀ st ∈ p.statements, (∃ span, st = .verbatim (.ofSpan span)) ∨
        ∃ span before text, st.sourceSpan? = some span ∧ source.toList = before ++ text ∧
          span.start = byteLength before ∧ Hidden before text := by
  have hlook : needsTranspile "/* c */ import a from \"y\";\n  export/**/\x7b a \x7d;" = false := by
    decide +kernel
  obtain ⟨p, hparse, hitems⟩ := exists_ok_of_any
    (x := Grammar.parse "/* c */ import a from \"y\";\n  export/**/\x7b a \x7d;")
    (P := fun p => decide (p.statements.filterMap (·.sourceSpan?) = [⟨8, 26⟩, ⟨29, 45⟩]))
    (by decide +kernel)
  exact ⟨hlook, p, hparse, by simpa using hitems, fun st hst =>
    hidden_of_not_needsTranspile hlook hparse hst⟩

/-- **A quick look can miss an import.** A comment before it is enough. -/
theorem needsTranspile_behindComment :
    needsTranspile "/* c */ import \"y\";" = false ∧
      ∃ p, Grammar.parse "/* c */ import \"y\";" = .ok p ∧
        p.statements.any (·.sourceSpan? == some ⟨8, 19⟩) = true := by
  refine ⟨by decide +kernel, exists_ok_of_any (by decide +kernel)⟩

end Scan

end ModuleForge
