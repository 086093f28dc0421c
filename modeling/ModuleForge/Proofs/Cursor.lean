import ModuleForge.Proofs.Boundary
import ModuleForge.Proofs.Punctuators

/-!
# How far the readers of tokens go

A cursor is the rest of a text and the byte offset at which it starts. Every reader of the lexer
moves it forward over a part of the text and counts the bytes of just that part:

- `Cursor.Reaches a b`: `b` stands at or behind `a` in the same text, and its offset says how far.
- `plainToken_readBy`: the reader of a token other than a template, by its first character.
- `plainToken_covers`: a token other than a template covers the text from the cursor before it to
  the cursor behind it, which is not empty.
- `nextToken_reads`: the next token is the end marker at the end of the text, an error that covers a
  part of what was read, or a token that covers what stands behind blanks and comments.
- `scan_laid`: the tokens of a source cover parts of it one behind another, and the end marker stands
  at its end.
-/

namespace ModuleForge.Token

open Text

variable {c : Char} {a b cur : Cursor} {rest src : List Char} {r : Reader} {t : Token}

/-! ## Cursors in one text -/

namespace Cursor

variable {a b c cur : Cursor} {rest : List Char}

/-- `b` stands at or behind `a` in the same text. -/
def Reaches (a b : Cursor) : Prop :=
  ∃ taken, a.rest = taken ++ b.rest ∧ b.pos = a.pos + byteLength taken

/-- `b` stands behind `a` in the same text. -/
def Passes (a b : Cursor) : Prop :=
  a.Reaches b ∧ a.pos < b.pos

theorem Reaches.refl (a : Cursor) : a.Reaches a :=
  ⟨[], rfl, rfl⟩

theorem Reaches.trans (h1 : a.Reaches b) (h2 : b.Reaches c) : a.Reaches c := by
  obtain ⟨t1, hr1, hp1⟩ := h1
  obtain ⟨t2, hr2, hp2⟩ := h2
  exact ⟨t1 ++ t2, by simp [hr1, hr2], by simp [hp1, hp2, Nat.add_assoc]⟩

theorem Reaches.pos_le (h : a.Reaches b) : a.pos ≤ b.pos := by
  obtain ⟨taken, -, hp⟩ := h
  omega

theorem Passes.trans_reaches (h1 : a.Passes b) (h2 : b.Reaches c) : a.Passes c :=
  ⟨h1.1.trans h2, Nat.lt_of_lt_of_le h1.2 h2.pos_le⟩

theorem Reaches.trans_passes (h1 : a.Reaches b) (h2 : b.Passes c) : a.Passes c :=
  ⟨h1.trans h2.1, Nat.lt_of_le_of_lt h1.pos_le h2.2⟩

theorem Passes.left_lt (h : a.Passes b) : b.rest.length < a.rest.length := by
  obtain ⟨⟨taken, hr, hp⟩, hlt⟩ := h
  cases taken with
  | nil => simp only [byteLength_nil] at hp; omega
  | cons c cs => rw [hr]; simp only [List.length_append, List.length_cons]; omega

theorem passes_cons (pos : Nat) (c : Char) (rest : List Char) :
    Passes ⟨pos, c :: rest⟩ ⟨pos + c.utf8Size, rest⟩ :=
  ⟨⟨[c], rfl, by simp⟩, by have := c.utf8Size_pos; simp only; omega⟩

theorem passes_of_rest {c : Char} (h : cur.rest = c :: rest) :
    cur.Passes ⟨cur.pos + c.utf8Size, rest⟩ := by
  obtain ⟨pos, cs⟩ := cur
  obtain rfl : cs = c :: rest := h
  exact passes_cons pos c rest

theorem reaches_jump {taken : List Char} (h : cur.rest = taken ++ rest) :
    cur.Reaches (cur.jump taken rest) :=
  ⟨taken, h, rfl⟩

theorem passes_jump {taken : List Char} (h : cur.rest = taken ++ rest) (hne : taken ≠ []) :
    cur.Passes (cur.jump taken rest) := by
  refine ⟨reaches_jump h, ?_⟩
  cases taken with
  | nil => exact absurd rfl hne
  | cons c cs => have := c.utf8Size_pos; simp only [jump, byteLength_cons]; omega

theorem reaches_next (cur : Cursor) : cur.Reaches cur.next := by
  cases h : cur.rest with
  | nil => simp only [next, h]; exact .refl cur
  | cons c rest => simp only [next, h]; exact (passes_of_rest h).1

theorem reaches_nextN (n : Nat) (cur : Cursor) : cur.Reaches (nextN n cur) := by
  induction n generalizing cur with
  | zero => exact .refl cur
  | succ n ih => exact (reaches_next cur).trans (ih cur.next)

theorem passes_next {c : Char} (h : cur.rest = c :: rest) : cur.Passes cur.next := by
  simp only [next, h]
  exact passes_of_rest h

theorem reaches_span (p : Char → Bool) (cur : Cursor) : cur.Reaches (cur.span p).2 :=
  reaches_jump List.takeWhile_append_dropWhile.symm

end Cursor

open Cursor

/-! ## Blanks and comments -/

theorem skipHashbang_reaches (cur : Cursor) : cur.Reaches (skipHashbang cur) := by
  unfold skipHashbang
  split
  · exact reaches_span _ cur
  · exact .refl cur

theorem skipHashbang_of_ne {text : List Char} (h : ∀ tail, text ≠ '#' :: '!' :: tail) :
    skipHashbang ⟨0, text⟩ = ⟨0, text⟩ := by
  unfold skipHashbang
  split
  · rename_i tail htext
    exact absurd htext (h tail)
  · rfl

theorem blockComment_reaches (newline : Bool) (pos : Nat) (cs : List Char) :
    Reaches ⟨pos, cs⟩ (blockComment newline pos cs).cursor := by
  fun_induction blockComment newline pos cs with
  | case1 newline pos => exact .refl _
  | case2 newline pos rest => exact ⟨['*', '/'], rfl, rfl⟩
  | case3 newline pos c rest _ ih => exact (passes_cons pos c rest).1.trans ih

/-- What stands before the next token, read from a cursor on; a comment without end is not empty. -/
def Trivia.From (cur : Cursor) : Trivia → Prop
  | .clear _ after => cur.Reaches after
  | .unterminated start after => ∃ a : Cursor, a.pos = start ∧ cur.Reaches a ∧ a.Passes after

theorem Trivia.From.of_reaches {t : Trivia} (h1 : a.Reaches b) (h2 : t.From b) : t.From a := by
  cases t with
  | clear newline after => exact h1.trans h2
  | unterminated start after =>
    obtain ⟨c, hpos, hreaches, hpasses⟩ := h2
    exact ⟨c, hpos, h1.trans hreaches, hpasses⟩

theorem skipTrivia_from (newline : Bool) (cur : Cursor) : (skipTrivia newline cur).From cur := by
  fun_induction skipTrivia newline cur with
  | case1 newline cur tail h ih =>
    have h2 : cur.Reaches ⟨cur.pos + 2, tail⟩ := ⟨['/', '/'], h, rfl⟩
    exact .of_reaches (h2.trans (reaches_span _ _)) ih
  | case2 newline cur tail h _ ih =>
    have h2 : cur.Reaches ⟨cur.pos + 2, tail⟩ := ⟨['/', '*'], h, rfl⟩
    exact .of_reaches (h2.trans (blockComment_reaches newline _ tail)) ih
  | case3 newline cur tail h _ =>
    have h2 : cur.Passes ⟨cur.pos + 2, tail⟩ := ⟨⟨['/', '*'], h, rfl⟩, by simp⟩
    exact ⟨cur, rfl, .refl cur, h2.trans_reaches (blockComment_reaches newline _ tail)⟩
  | case4 newline cur c rest _ _ h _ ih => exact .of_reaches (passes_of_rest h).1 ih
  | case5 newline cur c rest _ _ h _ _ ih => exact .of_reaches (passes_of_rest h).1 ih
  | case6 newline cur => exact Reaches.refl cur
  | case7 newline cur => exact Reaches.refl cur

/-! ## Literals -/

theorem unicodeEscape_reaches (cur : Cursor) : cur.Reaches (unicodeEscape cur).cursor := by
  unfold unicodeEscape
  split
  · rename_i rest h
    have h1 : cur.Reaches ⟨cur.pos + 1, rest⟩ := ⟨['\x7b'], h, rfl⟩
    exact (h1.trans (reaches_jump List.takeWhile_append_dropWhile.symm)).trans (reaches_next _)
  · exact reaches_jump (hexDigits_append 4 _).symm

theorem hexEscape_reaches (cur : Cursor) : cur.Reaches (hexEscape cur).cursor :=
  reaches_jump (hexDigits_append 2 _).symm

theorem stringEscape_reaches (cur : Cursor) : cur.Reaches (stringEscape cur).2 := by
  unfold stringEscape
  split
  · exact .refl cur
  · rename_i rest h
    have h1 : cur.Reaches ⟨cur.pos + 1, rest⟩ := ⟨['u'], h, rfl⟩
    exact h1.trans (unicodeEscape_reaches _)
  · rename_i rest h
    have h1 : cur.Reaches ⟨cur.pos + 1, rest⟩ := ⟨['x'], h, rfl⟩
    exact h1.trans (hexEscape_reaches _)
  · rename_i rest h
    exact ⟨['\r', '\n'], h, rfl⟩
  · rename_i c rest _ _ _ h
    exact (passes_of_rest h).1

theorem stringBody_reaches (quote : Char) (cur : Cursor) :
    cur.Reaches (stringBody quote cur).cursor := by
  fun_induction stringBody quote cur with
  | case1 cur => exact .refl cur
  | case2 cur c rest h _ => exact (passes_of_rest h).1
  | case3 cur c rest h _ hc _ ih =>
    obtain rfl : c = '\\' := by simpa using hc
    have h1 : cur.Reaches ⟨cur.pos + 1, rest⟩ := ⟨['\\'], h, rfl⟩
    exact (h1.trans (stringEscape_reaches _)).trans ih
  | case4 cur => exact .refl cur
  | case5 cur c rest h _ _ _ ih => exact (passes_of_rest h).1.trans ih

theorem regexBody_reaches (inClass : Bool) (pos : Nat) (cs : List Char) :
    Reaches ⟨pos, cs⟩ (regexBody inClass pos cs).2 := by
  fun_induction regexBody inClass pos cs with
  | case1 inClass pos => exact .refl _
  | case2 inClass pos => exact ⟨['\\'], rfl, rfl⟩
  | case3 inClass pos c rest ih =>
    exact ((passes_cons pos '\\' (c :: rest)).1.trans (passes_cons (pos + 1) c rest).1).trans ih
  | case4 inClass pos c rest => exact .refl _
  | case5 inClass pos c rest _ _ _ hc =>
    simp only [Bool.and_eq_true, beq_iff_eq] at hc
    obtain ⟨rfl, -⟩ := hc
    exact ⟨['/'], rfl, rfl⟩
  | case6 inClass pos c rest _ _ _ _ ih => exact (passes_cons pos c rest).1.trans ih

theorem numberChars_append (radix seenDot : Bool) (prev : Char) (cs : List Char) :
    numberChars radix seenDot prev cs ++ cs.drop (numberChars radix seenDot prev cs).length =
      cs := by
  fun_induction numberChars radix seenDot prev cs with
  | case1 => rfl
  | case2 seenDot prev c rest accept h ih => simpa using ih
  | case3 => simp

theorem identifierBody_reaches (cur : Cursor) : cur.Reaches (identifierBody cur).2 := by
  fun_induction identifierBody cur with
  | case1 cur => exact .refl cur
  | case2 cur tail h escape _ name after hbody ih =>
    have h1 : cur.Reaches ⟨cur.pos + 2, tail⟩ := ⟨['\\', 'u'], h, rfl⟩
    rw [hbody] at ih
    exact (h1.trans (unicodeEscape_reaches _)).trans ih
  | case3 cur c rest _ h _ name after hbody ih =>
    rw [hbody] at ih
    exact (passes_of_rest h).1.trans ih
  | case4 cur => exact .refl cur

/-! ## One token -/

/-- A token that covers the text between two cursors, which is not empty. -/
structure Covers (t : Token) (a b : Cursor) : Prop where
  passes : a.Passes b
  span : t.span = ⟨a.pos, b.pos⟩
  kind : t.kind ≠ .eof

theorem stringToken_covers (quote : Char) (h : cur.rest = c :: rest) :
    Covers (stringToken quote cur).1 cur (stringToken quote cur).2 := by
  refine ⟨(passes_next h).trans_reaches (stringBody_reaches quote _), ?_, ?_⟩
  · simp only [stringToken]
    split <;> rfl
  · simp only [stringToken]
    split <;> simp [ofError]

/-- A digit goes into a number, and so does a point if there is no radix mark. -/
theorem numberChars_ne_nil {radix : Bool} {prev : Char}
    (h : c.isDigit = true ∨ (c = '.' ∧ radix = false)) :
    numberChars radix false prev (c :: rest) ≠ [] := by
  rcases h with h | ⟨rfl, rfl⟩
  · have h1 : c ≠ '.' := by rintro rfl; simp at h
    have h2 : c ≠ '+' := by rintro rfl; simp at h
    have h3 : c ≠ '-' := by rintro rfl; simp at h
    simp [numberChars, h1, h2, h3, Char.isAlphanum, h]
  · simp [numberChars]

theorem numberToken_covers (h : cur.rest = c :: rest) (hc : c.isDigit = true ∨ c = '.') :
    Covers (numberToken cur).1 cur (numberToken cur).2 := by
  unfold numberToken
  refine ⟨passes_jump (numberChars_append _ _ _ _).symm ?_, rfl, by simp [between]⟩
  rw [h]
  refine numberChars_ne_nil (hc.imp_right ?_)
  rintro rfl
  exact ⟨rfl, rfl⟩

theorem privateToken_covers (h : cur.rest = c :: rest) :
    Covers (privateToken cur).1 cur (privateToken cur).2 := by
  have hp := (passes_next h).trans_reaches (reaches_span isIdentifierPart cur.next)
  simp only [privateToken]
  split
  · exact ⟨hp, rfl, by simp [ofError]⟩
  · exact ⟨hp, rfl, by simp [between]⟩

theorem regexToken_covers (h : cur.rest = '/' :: rest) :
    Covers (regexToken cur).1 cur (regexToken cur).2 := by
  have hnext : cur.next = ⟨cur.pos + 1, rest⟩ := by simp only [Cursor.next, h]; rfl
  have hbody := regexBody_reaches false (cur.pos + 1) cur.next.rest
  have hp : cur.Passes ⟨cur.pos + 1, cur.next.rest⟩ := by
    rw [hnext]; exact ⟨⟨['/'], h, rfl⟩, by simp⟩
  unfold regexToken
  split
  · rename_i body hb
    rw [hb] at hbody
    exact ⟨(hp.trans_reaches hbody).trans_reaches (reaches_span _ _), rfl, by simp [between]⟩
  · rename_i after hb
    rw [hb] at hbody
    exact ⟨hp.trans_reaches hbody, rfl, by simp [ofError]⟩

theorem keyword?_kind {word : String} {kind : Kind} (h : keyword? word = some kind) :
    kind ≠ .eof ∧ kind ≠ .error := by
  have hall : ∀ p ∈ keywords, p.2 ≠ .eof ∧ p.2 ≠ .error := by decide
  obtain ⟨l1, l2, hl, -⟩ := List.lookup_eq_some_iff.1 h
  exact hall (word, kind) (by simp [hl])

theorem isIdentifierPart_of_start (h : isIdentifierStart c = true) : isIdentifierPart c = true := by
  simp only [isIdentifierStart, isIdentifierPart, isAlnum, Bool.or_eq_true] at h ⊢
  rcases h with (h | h) | h
  · exact .inl (.inl (.inl (.inl h)))
  · exact .inl (.inl (.inr h))
  · exact .inl (.inr h)

/-- Whether an identifier starts with `c` before `rest`, plainly or by an escape. -/
def StartsWord (c : Char) (rest : List Char) : Prop :=
  isIdentifierPart c = true ∨ (c = '\\' ∧ rest.head? = some 'u')

theorem identifierBody_passes (h : cur.rest = c :: rest) (hc : StartsWord c rest) :
    cur.Passes (identifierBody cur).2 := by
  unfold identifierBody
  split
  · rename_i hr
    rw [hr] at h
    cases h
  · rename_i tail hr
    have h1 : cur.Passes ⟨cur.pos + 2, tail⟩ := ⟨⟨['\\', 'u'], hr, rfl⟩, by simp⟩
    exact (h1.trans_reaches (unicodeEscape_reaches _)).trans_reaches (identifierBody_reaches _)
  · rename_i c' rest' hne hr
    obtain ⟨rfl, rfl⟩ := List.cons.inj (h.symm.trans hr)
    rcases hc with hc | ⟨rfl, hu⟩
    · simp only [hc, if_true]
      exact (passes_of_rest h).trans_reaches (identifierBody_reaches _)
    · obtain ⟨tail, rfl⟩ := List.head?_eq_some_iff.1 hu
      exact absurd rfl (hne tail rfl)

theorem wordToken_covers (last : Option Kind) (h : cur.rest = c :: rest) (hc : StartsWord c rest) :
    Covers (wordToken last cur).1 cur (wordToken last cur).2 := by
  refine ⟨identifierBody_passes h hc, rfl, ?_⟩
  simp only [wordToken]
  split
  · simp
  · cases hk : keyword? (String.ofList (identifierBody cur).1) with
    | none => simp
    | some kind => exact (keyword?_kind hk).1

theorem punctuatorToken_covers (h : cur.rest = c :: rest) :
    Covers (punctuatorToken c cur).1 cur (punctuatorToken c cur).2 := by
  unfold punctuatorToken
  split
  · rename_i kind n hk
    obtain ⟨hn, hkind, -⟩ := punctuator?_kind hk
    obtain ⟨n, rfl⟩ : ∃ m, n = m + 1 := ⟨n - 1, by omega⟩
    exact ⟨(passes_next h).trans_reaches (reaches_nextN n _), rfl, hkind⟩
  · exact ⟨passes_next h, rfl, by simp [ofError]⟩

/-- The readers of a token that is no template, with what the first character has to do with it. -/
inductive ReadBy (last : Option Kind) (c : Char) (cur : Cursor) : Token × Cursor → Prop where
  | string : c = '"' ∨ c = '\'' → ReadBy last c cur (stringToken c cur)
  | number : c.isDigit = true ∨ c = '.' → ReadBy last c cur (numberToken cur)
  | privateName : c = '#' → ReadBy last c cur (privateToken cur)
  | regex : c = '/' → ReadBy last c cur (regexToken cur)
  | word : isIdentifierStart c = true ∨ c = '\\' ∧ cur.next.rest.head? = some 'u' →
      ReadBy last c cur (wordToken last cur)
  | punctuator : ReadBy last c cur (punctuatorToken c cur)

theorem plainToken_readBy (last : Option Kind) (c : Char) (cur : Cursor) :
    ReadBy last c cur (plainToken last c cur) := by
  unfold plainToken
  split
  · rename_i hquote
    exact .string (by simpa using hquote)
  split
  · exact .number (.inl ‹_›)
  split
  · rename_i hdot
    simp only [Bool.and_eq_true, beq_iff_eq] at hdot
    exact .number (.inr hdot.1)
  split
  · rename_i hsign
    exact .privateName (beq_iff_eq.1 hsign)
  split
  · rename_i hslash
    simp only [Bool.and_eq_true, beq_iff_eq] at hslash
    exact .regex hslash.1
  split
  · rename_i hescape
    exact .word (.inr (by simpa using hescape))
  split
  · exact .word (.inl ‹_›)
  · exact .punctuator

/-- **A token that is no template covers the text between its cursors.** -/
theorem plainToken_covers (last : Option Kind) (h : cur.rest = c :: rest) :
    Covers (plainToken last c cur).1 cur (plainToken last c cur).2 := by
  have hread := plainToken_readBy last c cur
  generalize plainToken last c cur = out at hread ⊢
  cases hread with
  | string => exact stringToken_covers c h
  | number hc => exact numberToken_covers h hc
  | privateName => exact privateToken_covers h
  | regex hc => exact regexToken_covers (hc ▸ h)
  | word hc =>
    have hnext : cur.next.rest = rest := by simp [Cursor.next, h]
    rw [hnext] at hc
    exact wordToken_covers last h (hc.imp isIdentifierPart_of_start id)
  | punctuator => exact punctuatorToken_covers h

/-! ## Templates and whole sources -/

/-- A token that covers a part of the text between two cursors. -/
def Lies (a : Cursor) (t : Token) (b : Cursor) : Prop :=
  ∃ start stop, a.Reaches start ∧ Covers t start stop ∧ stop.Reaches b

theorem Lies.passes (h : Lies a t b) : a.Passes b := by
  obtain ⟨start, stop, hstart, hcovers, hstop⟩ := h
  exact (hstart.trans_passes hcovers.passes).trans_reaches hstop

theorem Lies.of_reaches {a' : Cursor} (h1 : a'.Reaches a) (h2 : Lies a t b) : Lies a' t b := by
  obtain ⟨start, stop, hstart, hcovers, hstop⟩ := h2
  exact ⟨start, stop, h1.trans hstart, hcovers, hstop⟩

theorem Covers.lies (h : Covers t a b) : Lies a t b :=
  ⟨a, b, .refl a, h, .refl b⟩

theorem Covers.withNewline (h : Covers t a b) (newline : Bool) :
    Covers { t with newlineBefore := newline } a b :=
  ⟨h.passes, h.span, h.kind⟩

theorem Lies.withNewline (h : Lies a t b) (newline : Bool) :
    Lies a { t with newlineBefore := newline } b := by
  obtain ⟨start, stop, hstart, hcovers, hstop⟩ := h
  exact ⟨start, stop, hstart, hcovers.withNewline newline, hstop⟩

theorem lies_ofError (h : a.Passes b) (e : LexError) : Lies a (ofError a.pos b.pos e) b :=
  Covers.lies ⟨h, rfl, by simp [ofError]⟩

/-- What reading the next token gives: the end marker at the end of the text, an error behind which
reading goes on, or a token behind blanks and comments. -/
inductive Reads (r : Reader) (t : Token) (after : Reader) : Prop
  | eof : t.kind = .eof → skipTrivia false r.cursor = .clear t.newlineBefore after.cursor →
      after.cursor.rest = [] → t.span = ⟨after.cursor.pos, after.cursor.pos⟩ → Reads r t after
  | error : t.kind = .error → Lies r.cursor t after.cursor → Reads r t after
  | token (start : Cursor) : t.kind ≠ .error →
      skipTrivia false r.cursor = .clear t.newlineBefore start →
      Covers t start after.cursor → Reads r t after

theorem reaches_of_clear {start : Cursor} {newline : Bool}
    (h : skipTrivia false cur = .clear newline start) : cur.Reaches start := by
  have := skipTrivia_from false cur
  rwa [h] at this

/-- A comment without end starts inside the text that is read. -/
theorem passes_of_unterminated {after : Cursor} {start : Nat}
    (h : skipTrivia false cur = .unterminated start after) :
    ∃ comment : Cursor, comment.pos = start ∧ cur.Reaches comment ∧ comment.Passes after := by
  have := skipTrivia_from false cur
  rwa [h] at this

theorem Reads.reaches {after : Reader} (h : Reads r t after) : r.cursor.Reaches after.cursor := by
  cases h with
  | eof _ hs _ _ => exact reaches_of_clear hs
  | error _ hlies => exact hlies.passes.1
  | token start _ hs hc => exact (reaches_of_clear hs).trans hc.passes.1

theorem Reads.lies {after : Reader} (h : Reads r t after) (ht : t.kind ≠ .eof) :
    Lies r.cursor t after.cursor := by
  cases h with
  | eof hk _ _ _ => exact absurd hk ht
  | error _ hlies => exact hlies
  | token start _ hs hc => exact .of_reaches (reaches_of_clear hs) hc.lies

theorem Reads.passes {after : Reader} (h : Reads r t after) (ht : t.kind ≠ .eof) :
    r.cursor.Passes after.cursor :=
  (h.lies ht).passes

/-- How the inside of a template that starts at `start` was read: forward, and what ends it as an
error is one that covers a part of the template. -/
structure Inside (start : Nat) (r : Reader) (out : Except Token (List Token) × Reader) : Prop where
  reaches : r.cursor.Reaches out.2.cursor
  isError : ∀ t, out.1 = .error t → t.kind = .error
  lies : ∀ t, out.1 = .error t → ∀ origin : Cursor, origin.pos = start → origin.Passes r.cursor →
    Lies origin t out.2.cursor

section
variable {start : Nat} {r r' : Reader} {out : Except Token (List Token) × Reader}

theorem Inside.of_reaches (h1 : r.cursor.Reaches r'.cursor) (h2 : Inside start r' out) :
    Inside start r out :=
  ⟨h1.trans h2.reaches, h2.isError, fun t ht origin hpos hpasses =>
    h2.lies t ht origin hpos (hpasses.trans_reaches h1)⟩

theorem Inside.ok {ts : List Token} (h : r.cursor.Reaches r'.cursor) :
    Inside start r (.ok ts, r') := by
  refine ⟨h, fun t ht => ?_, fun t ht => ?_⟩ <;> cases ht

/-- The text ends before the template does. -/
theorem Inside.unterminated (h : r.cursor.Reaches r'.cursor) :
    Inside start r (.error (ofError start r'.cursor.pos .unterminatedTemplate), r') := by
  refine ⟨h, fun t ht => ?_, fun t ht origin hpos hpasses => ?_⟩
  · cases ht
    rfl
  · cases ht
    rw [← hpos]
    exact lies_ofError (hpasses.trans_reaches h) _

theorem Inside.map (h : Inside start r out) (f : List Token → List Token) :
    Inside start r (out.1.map f, out.2) := by
  cases hout : out.1 with
  | error t => exact ⟨h.reaches, fun t' ht => h.isError t' (hout.trans ht),
      fun t' ht => h.lies t' (hout.trans ht)⟩
  | ok ts => exact .ok h.reaches

end

mutual

/-- **The next token** is read forward from where the reader stands. -/
theorem nextToken_reads (r : Reader) : Reads r (nextToken r).1 (nextToken r).2 := by
  rw [nextToken]
  split
  · rename_i start after h
    obtain ⟨comment, rfl, hreaches, hpasses⟩ := passes_of_unterminated h
    exact .error rfl (.of_reaches hreaches (lies_ofError hpasses _))
  · rename_i newline cur h
    split
    · rename_i hc
      exact .eof rfl h hc rfl
    · rename_i c rest hc
      split
      · rename_i hq
        obtain rfl : c = '`' := by simpa using hq
        have hlt : rest.length < r.left := by
          have := skipTrivia_length false r.cursor
          rw [h] at this
          simp only [Trivia.cursor, hc, List.length_cons] at this
          exact this
        have hp : cur.Passes ⟨cur.pos + 1, rest⟩ := ⟨⟨['`'], hc, rfl⟩, by simp⟩
        have hbody := templateBody_inside cur.pos ⟨r.last, ⟨cur.pos + 1, rest⟩⟩
        split
        rename_i result after hb
        rw [hb] at hbody
        cases result with
        | error token =>
          have hlies := hbody.lies token rfl cur rfl hp
          exact .error (hbody.isError token rfl)
            (.of_reaches (reaches_of_clear h) (hlies.withNewline newline))
        | ok substitutions =>
          exact .token cur (by simp) h ⟨hp.trans_reaches hbody.reaches, rfl, by simp⟩
      · have hcov := (plainToken_covers r.last hc).withNewline newline
        by_cases herr : (plainToken r.last c cur).1.kind = .error
        · exact .error herr (.of_reaches (reaches_of_clear h) hcov.lies)
        · exact .token cur herr h hcov
termination_by 2 * r.left

theorem templateBody_inside (start : Nat) (r : Reader) : Inside start r (templateBody start r) := by
  rw [templateBody]
  split
  · exact .unterminated (.refl _)
  · rename_i rest h
    exact .ok ⟨['`'], h, rfl⟩
  · rename_i h
    exact .unterminated ⟨['\\'], h, rfl⟩
  · rename_i c rest h
    have h2 : r.cursor.Reaches ⟨r.cursor.pos + 1 + c.utf8Size, rest⟩ :=
      ⟨['\\', c], h, Nat.add_assoc ..⟩
    have hlt : rest.length < r.left := by simp only [Reader.left, h, List.length_cons]; omega
    exact .of_reaches h2 (templateBody_inside start _)
  · rename_i rest h
    have h2 : r.cursor.Reaches ⟨r.cursor.pos + 2, rest⟩ := ⟨['$', '\x7b'], h, rfl⟩
    have hlt : rest.length + 1 < r.left := by simp only [Reader.left, h, List.length_cons]; omega
    have hsub := substitution_inside start 0 ⟨some .lbrace, ⟨r.cursor.pos + 2, rest⟩⟩
    split
    · rename_i token after hs
      rw [hs] at hsub
      exact .of_reaches h2 hsub
    · rename_i tokens after hs
      rw [hs] at hsub
      split
      · exact .of_reaches (h2.trans hsub.reaches)
          ((templateBody_inside start after).map (tokens ++ ·))
      · exact .of_reaches h2 hsub
  · rename_i c rest _ _ _ _ h
    have hlt : rest.length < r.left := by simp only [Reader.left, h, List.length_cons]; omega
    exact .of_reaches (passes_of_rest h).1 (templateBody_inside start _)
termination_by 2 * r.left
decreasing_by
  all_goals simp only [Reader.left] at *
  all_goals omega

theorem substitution_inside (start depth : Nat) (r : Reader) :
    Inside start r (substitution start depth r) := by
  have hnext := nextToken_reads r
  rw [substitution]
  split
  rename_i token after hn
  rw [hn] at hnext
  have hr := hnext.reaches
  split
  · exact .unterminated hr
  split
  · rename_i herr
    have hk : token.kind = .error := by simpa using herr
    refine ⟨hr, fun t ht => ?_, fun t ht origin hpos hpasses => ?_⟩
    · cases ht
      exact hk
    · cases ht
      cases hnext with
      | eof heof => rw [hk] at heof; cases heof
      | error _ hlies => exact .of_reaches hpasses.1 hlies
      | token _ hne => exact absurd hk hne
  split
  · exact .ok hr
  · dsimp only
    split
    · exact .of_reaches hr ((substitution_inside start _ after).map (token :: ·))
    · exact .ok hr
termination_by 2 * r.left + 1

end

theorem nextToken_covers (herr : (nextToken r).1.kind ≠ .error) (heof : (nextToken r).1.kind ≠ .eof) :
    ∃ start, skipTrivia false r.cursor = .clear (nextToken r).1.newlineBefore start ∧
      Covers (nextToken r).1 start (nextToken r).2.cursor := by
  cases nextToken_reads r with
  | eof hk => exact absurd hk heof
  | error hk => exact absurd hk herr
  | token start _ hclear hcovers => exact ⟨start, hclear, hcovers⟩

theorem exists_clear (herr : (nextToken r).1.kind ≠ .error) :
    ∃ newline cur, skipTrivia false r.cursor = .clear newline cur := by
  cases nextToken_reads r with
  | eof _ hclear => exact ⟨_, _, hclear⟩
  | error hk => exact absurd hk herr
  | token _ _ hclear => exact ⟨_, _, hclear⟩

/-- Tokens that cover parts of `src` one behind another from the offset `lo` on, each of them not
empty and between two boundaries; the end marker is last and stands at the end. -/
inductive Laid (src : List Char) : Nat → List Token → Prop
  | eof {lo : Nat} {t : Token} : t.kind = .eof →
      t.span = ⟨byteLength src, byteLength src⟩ → lo ≤ byteLength src → Laid src lo [t]
  | cons {lo : Nat} {t : Token} {rest : List Token} : t.kind ≠ .eof → lo ≤ t.span.start →
      t.span.start < t.span.stop → IsBoundary src t.span.start → IsBoundary src t.span.stop →
      Laid src t.span.stop rest → Laid src lo (t :: rest)

theorem Laid.mono {lo lo' : Nat} {ts : List Token} (h : Laid src lo ts) (hle : lo' ≤ lo) :
    Laid src lo' ts := by
  cases h with
  | eof hk hs hlo => exact .eof hk hs (Nat.le_trans hle hlo)
  | cons hk hlo hlt h1 h2 hrest => exact .cons hk (Nat.le_trans hle hlo) hlt h1 h2 hrest

theorem isBoundary_of_reaches (h : Reaches ⟨0, src⟩ cur) : IsBoundary src cur.pos := by
  obtain ⟨taken, hr, hp⟩ := h
  exact ⟨taken, cur.rest, hr, by simpa using hp.symm⟩

theorem pos_of_rest_nil (h : Reaches ⟨0, src⟩ cur) (hn : cur.rest = []) :
    cur.pos = byteLength src := by
  obtain ⟨taken, hr, hp⟩ := h
  simp only [hn, List.append_nil] at hr
  simpa [hr] using hp

theorem tokensFrom_laid {src : List Char} (r : Reader) (hr : Reaches ⟨0, src⟩ r.cursor) :
    Laid src r.cursor.pos (tokensFrom r) := by
  have hreads := nextToken_reads r
  rw [tokensFrom]
  split
  rename_i token after hn
  rw [hn] at hreads
  dsimp only at hreads
  by_cases hk : token.kind = .eof
  · simp only [hk, beq_self_eq_true, if_true]
    cases hreads with
    | eof _ hs hrest hspan =>
      have hafter := hr.trans (reaches_of_clear hs)
      refine .eof hk ?_ ?_
      · rw [hspan, pos_of_rest_nil hafter hrest]
      · rw [← pos_of_rest_nil hafter hrest]
        exact (reaches_of_clear hs).pos_le
    | error herr => rw [hk] at herr; cases herr
    | token start _ _ hc => exact absurd hk hc.kind
  · have hlt : after.left < r.left := (hreads.passes hk).left_lt
    have heof : (token.kind == Kind.eof) = false := by simpa using hk
    simp only [heof, Bool.false_eq_true, if_false, hlt, if_true]
    obtain ⟨start, stop, hstart, hc, hstop⟩ := hreads.lies hk
    have h1 := hr.trans hstart
    have h2 := h1.trans hc.passes.1
    have hlaid := tokensFrom_laid after (h2.trans hstop)
    refine .cons hk ?_ ?_ ?_ ?_ ?_
    · rw [hc.span]; exact hstart.pos_le
    · rw [hc.span]; exact hc.passes.2
    · rw [hc.span]; exact isBoundary_of_reaches h1
    · rw [hc.span]; exact isBoundary_of_reaches h2
    · rw [hc.span]; exact hlaid.mono hstop.pos_le
termination_by r.left

/-- **The tokens of a source** cover parts of it one behind another. -/
theorem scan_laid (source : String) : Laid source.toList 0 (scan source) := by
  have hr := skipHashbang_reaches ⟨0, source.toList⟩
  exact (tokensFrom_laid ⟨none, skipHashbang ⟨0, source.toList⟩⟩ hr).mono (Nat.zero_le _)

theorem Laid.getLast? {lo : Nat} {tokens : List Token} (h : Laid src lo tokens) :
    ∃ t, tokens.getLast? = some t ∧ t.kind = .eof ∧ t.span.stop = byteLength src := by
  induction h with
  | eof hk hs hle => exact ⟨_, rfl, hk, by simp [hs]⟩
  | cons _ _ _ _ _ hrest ih =>
    obtain ⟨t, ht, hk, hs⟩ := ih
    exact ⟨t, by rw [List.getLast?_cons, ht]; rfl, hk, hs⟩

end ModuleForge.Token
