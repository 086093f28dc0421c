import ModuleForge.Text.Blank
import ModuleForge.Text.Word
import ModuleForge.Token

/-!
# Splitting a source into tokens

`Token.scan` reads a source from left to right. A text that is no token becomes an `error` token that
carries the message, and reading goes on after it. Whether a `/` starts a regular expression depends
on the last token that was read, so that the reader carries its kind along.

Every step takes at least one character; the checks on the length of the rest in `nextToken` and
`tokensFrom` hold on every input.
-/

namespace ModuleForge

open Text

namespace Token

/-- What can be wrong with a text. -/
inductive LexError where
  | unterminatedComment
  | unterminatedString
  | unterminatedTemplate
  | unterminatedRegex
  | unexpected (c : Char)
  deriving DecidableEq, Repr

def LexError.message : LexError → String
  | .unterminatedComment => "Unterminated multi-line comment"
  | .unterminatedString => "Unterminated string literal"
  | .unterminatedTemplate => "Unterminated template literal"
  | .unterminatedRegex => "Unterminated regular expression"
  | .unexpected c => "Unexpected character: " ++ String.singleton c

/-- The error token for the text from `start` to `stop`. -/
def ofError (start stop : Nat) (e : LexError) : Token :=
  { kind := .error, span := ⟨start, stop⟩, value := e.message }

/-- The rest of a text and the byte offset at which it starts. -/
structure Cursor where
  pos : Nat
  rest : List Char
  deriving DecidableEq, Repr

namespace Cursor

/-- Steps over a part of the rest, given as that part and what follows it. -/
def jump (cur : Cursor) (taken rest : List Char) : Cursor :=
  ⟨cur.pos + byteLength taken, rest⟩

/-- Steps over one character, if there is one. -/
def next (cur : Cursor) : Cursor :=
  match cur.rest with
  | [] => cur
  | c :: rest => ⟨cur.pos + c.utf8Size, rest⟩

/-- Steps over `n` characters, or to the end. -/
def nextN : Nat → Cursor → Cursor
  | 0, cur => cur
  | n + 1, cur => nextN n cur.next

/-- The longest part whose characters all pass a test, and the cursor behind it. -/
def span (p : Char → Bool) (cur : Cursor) : List Char × Cursor :=
  let taken := cur.rest.takeWhile p
  (taken, cur.jump taken (cur.rest.dropWhile p))

end Cursor

/-! ## Blanks and comments -/

/-- Steps over a first line that starts with `#!`, up to its line feed. -/
def skipHashbang (cur : Cursor) : Cursor :=
  match cur.rest with
  | '#' :: '!' :: _ => (cur.span (· != '\n')).2
  | _ => cur

/-- How a comment of the form `/* */` was read: whether it is closed, whether it holds a line break,
and where it ends. -/
structure BlockComment where
  closed : Bool
  newline : Bool
  cursor : Cursor

/-- Reads up to and including `*/`. -/
def blockComment (newline : Bool) (pos : Nat) : List Char → BlockComment
  | [] => ⟨false, newline, ⟨pos, []⟩⟩
  | '*' :: '/' :: rest => ⟨true, newline, ⟨pos + 2, rest⟩⟩
  | c :: rest => blockComment (newline || isLineBreak c) (pos + c.utf8Size) rest

theorem blockComment_length (newline : Bool) (pos : Nat) (cs : List Char) :
    (blockComment newline pos cs).cursor.rest.length ≤ cs.length := by
  fun_induction blockComment newline pos cs with
  | case1 => simp
  | case2 => simp; omega
  | case3 _ _ _ _ _ ih => simp; omega

/-- What stands before the next token: blanks and complete comments, or a comment without end. -/
inductive Trivia where
  | clear (newline : Bool) (cursor : Cursor)
  | unterminated (start : Nat) (cursor : Cursor)

def Trivia.cursor : Trivia → Cursor
  | .clear _ cur => cur
  | .unterminated _ cur => cur

theorem length_dropWhile_le {α : Type} (p : α → Bool) (xs : List α) :
    (xs.dropWhile p).length ≤ xs.length :=
  (List.dropWhile_sublist p).length_le

/-- Steps over blanks and comments and notes whether a line break is among them. -/
def skipTrivia (newline : Bool) (cur : Cursor) : Trivia :=
  match h : cur.rest with
  | '/' :: '/' :: tail =>
    skipTrivia newline (Cursor.span (!isLineBreak ·) ⟨cur.pos + 2, tail⟩).2
  | '/' :: '*' :: tail =>
    if (blockComment newline (cur.pos + 2) tail).closed then
      skipTrivia (blockComment newline (cur.pos + 2) tail).newline
        (blockComment newline (cur.pos + 2) tail).cursor
    else .unterminated cur.pos (blockComment newline (cur.pos + 2) tail).cursor
  | c :: rest =>
    if isLineBreak c then skipTrivia true ⟨cur.pos + c.utf8Size, rest⟩
    else if isBlank c || c == '\ufeff' then skipTrivia newline ⟨cur.pos + c.utf8Size, rest⟩
    else .clear newline cur
  | [] => .clear newline cur
termination_by cur.rest.length
decreasing_by
  · have := length_dropWhile_le (!isLineBreak ·) tail
    simp only [Cursor.span, Cursor.jump, h, List.length_cons]
    omega
  · have := blockComment_length newline (cur.pos + 2) tail
    simp only [h, List.length_cons]
    omega
  · simp [h]
  · simp [h]

theorem skipTrivia_length (newline : Bool) (cur : Cursor) :
    (skipTrivia newline cur).cursor.rest.length ≤ cur.rest.length := by
  fun_induction skipTrivia newline cur with
  | case1 newline cur tail h ih =>
    have := length_dropWhile_le (!isLineBreak ·) tail
    simp only [Cursor.span, Cursor.jump, h, List.length_cons] at *
    omega
  | case2 newline cur tail h _ ih =>
    have := blockComment_length newline (cur.pos + 2) tail
    simp only [h, List.length_cons] at *
    omega
  | case3 newline cur tail h =>
    have := blockComment_length newline (cur.pos + 2) tail
    simp only [Trivia.cursor, h, List.length_cons]
    omega
  | case4 newline cur c rest _ _ h _ ih => simp only [h, List.length_cons] at *; omega
  | case5 newline cur c rest _ _ h _ _ ih => simp only [h, List.length_cons] at *; omega
  | case6 => exact Nat.le_refl _
  | case7 => exact Nat.le_refl _

/-! ## Literals -/

/-- The value of hexadecimal digits; `none` if another character is among them. -/
def hexValue? (acc : Nat) : List Char → Option Nat
  | [] => some acc
  | c :: rest =>
    if c.isDigit then hexValue? (acc * 16 + (c.toNat - '0'.toNat)) rest
    else if 'a' ≤ c && c ≤ 'f' then hexValue? (acc * 16 + (c.toNat - 'a'.toNat + 10)) rest
    else if 'A' ≤ c && c ≤ 'F' then hexValue? (acc * 16 + (c.toNat - 'A'.toNat + 10)) rest
    else none

/-- The character that an escape names by its number, which may have a plus sign. A number that is
missing, malformed or no character gives the replacement character. -/
def charOfHex (digits : List Char) : Char :=
  let number : Option Nat :=
    match digits with
    | [] => none
    | ['+'] => none
    | '+' :: rest => hexValue? 0 rest
    | _ => hexValue? 0 digits
  match number with
  | some n => if n.isValidChar then Char.ofNat n else '\ufffd'
  | none => '\ufffd'

/-- A hexadecimal digit. -/
def isHexDigit (c : Char) : Bool :=
  c.isDigit || ('a' ≤ c && c ≤ 'f') || ('A' ≤ c && c ≤ 'F')

/-- At most `n` leading hexadecimal digits, and what follows. -/
def hexDigits : Nat → List Char → List Char × List Char
  | n + 1, c :: rest =>
    if isHexDigit c then
      let (digits, rest') := hexDigits n rest
      (c :: digits, rest')
    else ([], c :: rest)
  | _, cs => ([], cs)

theorem hexDigits_append (n : Nat) (cs : List Char) :
    (hexDigits n cs).1 ++ (hexDigits n cs).2 = cs := by
  fun_induction hexDigits n cs <;> simp_all

theorem hexDigits_length (n : Nat) (cs : List Char) : (hexDigits n cs).2.length ≤ cs.length := by
  have := congrArg List.length (hexDigits_append n cs)
  simp only [List.length_append] at this
  omega

/-- A character, and the cursor behind the text that stood for it. -/
structure Escape where
  char : Char
  cursor : Cursor

/-- Reads what follows `\u`: a number in braces, where everything up to the closing brace counts, or
at most four digits. -/
def unicodeEscape (cur : Cursor) : Escape :=
  match cur.rest with
  | '\x7b' :: rest =>
    let digits := rest.takeWhile (· != '\x7d')
    let after := rest.dropWhile (· != '\x7d')
    ⟨charOfHex digits, (Cursor.jump ⟨cur.pos + 1, rest⟩ digits after).next⟩
  | cs =>
    let (digits, rest) := hexDigits 4 cs
    ⟨charOfHex digits, cur.jump digits rest⟩

/-- Reads what follows `\x`: at most two digits. -/
def hexEscape (cur : Cursor) : Escape :=
  let (digits, rest) := hexDigits 2 cur.rest
  ⟨charOfHex digits, cur.jump digits rest⟩

theorem Cursor.next_length (cur : Cursor) : cur.next.rest.length ≤ cur.rest.length := by
  cases h : cur.rest <;> simp [Cursor.next, h]

theorem unicodeEscape_length (cur : Cursor) :
    (unicodeEscape cur).cursor.rest.length ≤ cur.rest.length := by
  unfold unicodeEscape
  split
  · rename_i rest h
    refine Nat.le_trans (Cursor.next_length _) ?_
    have := length_dropWhile_le (· != '\x7d') rest
    simp only [Cursor.jump, h, List.length_cons]
    omega
  · exact hexDigits_length 4 cur.rest

theorem hexEscape_length (cur : Cursor) : (hexEscape cur).cursor.rest.length ≤ cur.rest.length :=
  hexDigits_length 2 cur.rest

/-- The character that a one-letter escape stands for. -/
def unescape : Char → Char
  | 'n' => '\n'
  | 'r' => '\r'
  | 't' => '\t'
  | 'b' => '\x08'
  | 'f' => '\x0c'
  | 'v' => '\x0b'
  | '0' => '\x00'
  | c => c

/-- Reads what follows the backslash in a string: the character it stands for, none for a line
break that is skipped. -/
def stringEscape (cur : Cursor) : Option Char × Cursor :=
  match cur.rest with
  | [] => (none, cur)
  | 'u' :: rest =>
    let escape := unicodeEscape ⟨cur.pos + 1, rest⟩
    (some escape.char, escape.cursor)
  | 'x' :: rest =>
    let escape := hexEscape ⟨cur.pos + 1, rest⟩
    (some escape.char, escape.cursor)
  | '\r' :: '\n' :: rest => (none, ⟨cur.pos + 2, rest⟩)
  | c :: rest =>
    (if isLineBreak c then none else some (unescape c), ⟨cur.pos + c.utf8Size, rest⟩)

theorem stringEscape_length (cur : Cursor) :
    (stringEscape cur).2.rest.length ≤ cur.rest.length := by
  unfold stringEscape
  split
  · simp
  · rename_i rest h
    have := unicodeEscape_length ⟨cur.pos + 1, rest⟩
    simp only [h, List.length_cons] at *
    omega
  · rename_i rest h
    have := hexEscape_length ⟨cur.pos + 1, rest⟩
    simp only [h, List.length_cons] at *
    omega
  · rename_i rest h
    simp only [h, List.length_cons]
    omega
  · rename_i rest _ _ _ h
    simp only [h, List.length_cons]
    omega

/-- How the inside of a string literal was read: its cooked text, if the literal is closed, and where
reading stopped. -/
structure StringBody where
  value? : Option (List Char)
  cursor : Cursor

/-- Puts a character, if there is one, in front of the text that was read. -/
def StringBody.push (c? : Option Char) (body : StringBody) : StringBody :=
  { body with value? := body.value?.map (c?.toList ++ ·) }

/-- Reads a string literal behind its opening quote. A line feed or carriage return ends it as
unterminated, unless a backslash stands before it. -/
def stringBody (quote : Char) (cur : Cursor) : StringBody :=
  match h : cur.rest with
  | [] => ⟨none, cur⟩
  | c :: rest =>
    if c == quote then ⟨some [], ⟨cur.pos + c.utf8Size, rest⟩⟩
    else if c == '\\' then
      have : (stringEscape ⟨cur.pos + 1, rest⟩).2.rest.length < cur.rest.length := by
        have := stringEscape_length ⟨cur.pos + 1, rest⟩
        simp only [h, List.length_cons] at *
        omega
      (stringBody quote (stringEscape ⟨cur.pos + 1, rest⟩).2).push
        (stringEscape ⟨cur.pos + 1, rest⟩).1
    else if c == '\n' || c == '\r' then ⟨none, cur⟩
    else (stringBody quote ⟨cur.pos + c.utf8Size, rest⟩).push (some c)
termination_by cur.rest.length
decreasing_by
  · assumption
  · simp [h]

/-- Reads a regular expression behind its opening slash, up to and including the closing one; `none`
if a line or the text ends first. A slash inside brackets does not close it. -/
def regexBody (inClass : Bool) (pos : Nat) : List Char → Bool × Cursor
  | [] => (false, ⟨pos, []⟩)
  | '\\' :: [] => (false, ⟨pos + 1, []⟩)
  | '\\' :: c :: rest => regexBody inClass (pos + 1 + c.utf8Size) rest
  | c :: rest =>
    if isLineBreak c then (false, ⟨pos, c :: rest⟩)
    else if c == '/' && !inClass then (true, ⟨pos + 1, rest⟩)
    else regexBody (c == '[' || (inClass && c != ']')) (pos + c.utf8Size) rest

/-- The characters of a number literal: digits, separators and letters, one point, and a sign behind
an exponent mark. With a radix mark there is neither point nor sign. -/
def numberChars (radix : Bool) (seenDot : Bool) (prev : Char) : List Char → List Char
  | [] => []
  | c :: rest =>
    let accept :=
      if c == '.' then !seenDot && !radix
      else if c == '+' || c == '-' then !radix && (prev == 'e' || prev == 'E')
      else c.isAlphanum || c == '_'
    if accept then c :: numberChars radix (seenDot || c == '.') c rest else []

/-- A character that can go on an identifier. -/
def isIdentifierPart (c : Char) : Bool :=
  isAlnum c || c == '_' || c == '$' || isJoiner c

/-- A character that can start an identifier. -/
def isIdentifierStart (c : Char) : Bool :=
  isLetter c || c == '_' || c == '$'

/-- Reads an identifier: its text, with the escapes replaced, and where it ends. -/
def identifierBody (cur : Cursor) : List Char × Cursor :=
  match _h : cur.rest with
  | [] => ([], cur)
  | '\\' :: 'u' :: tail =>
    let escape := unicodeEscape ⟨cur.pos + 2, tail⟩
    have := unicodeEscape_length ⟨cur.pos + 2, tail⟩
    let (name, after) := identifierBody escape.cursor
    (escape.char :: name, after)
  | c :: rest =>
    if isIdentifierPart c then
      let (name, after) := identifierBody ⟨cur.pos + c.utf8Size, rest⟩
      (c :: name, after)
    else ([], cur)
termination_by cur.rest.length
decreasing_by
  all_goals simp_all
  all_goals omega

/-- The punctuator that the text starts with: its kind and its length. -/
def punctuator? : List Char → Option (Kind × Nat)
  | '(' :: _ => some (.lparen, 1)
  | ')' :: _ => some (.rparen, 1)
  | '\x7b' :: _ => some (.lbrace, 1)
  | '\x7d' :: _ => some (.rbrace, 1)
  | '[' :: _ => some (.lbracket, 1)
  | ']' :: _ => some (.rbracket, 1)
  | ';' :: _ => some (.semicolon, 1)
  | ',' :: _ => some (.comma, 1)
  | ':' :: _ => some (.colon, 1)
  | '@' :: _ => some (.atSign, 1)
  | '~' :: _ => some (.tilde, 1)
  | '.' :: '.' :: '.' :: _ => some (.ellipsis, 3)
  | '.' :: _ => some (.dot, 1)
  | '?' :: '?' :: '=' :: _ => some (.assignOp, 3)
  | '?' :: '?' :: _ => some (.operator, 2)
  | '?' :: '.' :: d :: _ => if d.isDigit then some (.question, 1) else some (.questionDot, 2)
  | '?' :: '.' :: _ => some (.questionDot, 2)
  | '?' :: _ => some (.question, 1)
  | '=' :: '=' :: '=' :: _ => some (.operator, 3)
  | '=' :: '=' :: _ => some (.operator, 2)
  | '=' :: '>' :: _ => some (.arrow, 2)
  | '=' :: _ => some (.assign, 1)
  | '!' :: '=' :: '=' :: _ => some (.operator, 3)
  | '!' :: '=' :: _ => some (.operator, 2)
  | '!' :: _ => some (.bang, 1)
  | '+' :: '+' :: _ => some (.increment, 2)
  | '+' :: '=' :: _ => some (.assignOp, 2)
  | '+' :: _ => some (.operator, 1)
  | '-' :: '-' :: _ => some (.decrement, 2)
  | '-' :: '=' :: _ => some (.assignOp, 2)
  | '-' :: _ => some (.operator, 1)
  | '*' :: '*' :: '=' :: _ => some (.assignOp, 3)
  | '*' :: '*' :: _ => some (.operator, 2)
  | '*' :: '=' :: _ => some (.assignOp, 2)
  | '*' :: _ => some (.star, 1)
  | '/' :: '=' :: _ => some (.assignOp, 2)
  | '/' :: _ => some (.operator, 1)
  | '%' :: '=' :: _ => some (.assignOp, 2)
  | '%' :: _ => some (.operator, 1)
  | '^' :: '=' :: _ => some (.assignOp, 2)
  | '^' :: _ => some (.operator, 1)
  | '&' :: '&' :: '=' :: _ => some (.assignOp, 3)
  | '&' :: '&' :: _ => some (.operator, 2)
  | '&' :: '=' :: _ => some (.assignOp, 2)
  | '&' :: _ => some (.operator, 1)
  | '|' :: '|' :: '=' :: _ => some (.assignOp, 3)
  | '|' :: '|' :: _ => some (.operator, 2)
  | '|' :: '=' :: _ => some (.assignOp, 2)
  | '|' :: _ => some (.operator, 1)
  | '<' :: '<' :: '=' :: _ => some (.assignOp, 3)
  | '<' :: '<' :: _ => some (.operator, 2)
  | '<' :: '=' :: _ => some (.operator, 2)
  | '<' :: _ => some (.operator, 1)
  | '>' :: '>' :: '>' :: '=' :: _ => some (.assignOp, 4)
  | '>' :: '>' :: '>' :: _ => some (.operator, 3)
  | '>' :: '>' :: '=' :: _ => some (.assignOp, 3)
  | '>' :: '>' :: _ => some (.operator, 2)
  | '>' :: '=' :: _ => some (.operator, 2)
  | '>' :: _ => some (.operator, 1)
  | _ => none

/-! ## One token -/

/-- The token made of the text between two cursors, the second behind the first. -/
def between (kind : Kind) (cur after : Cursor) : Token :=
  { kind
    span := ⟨cur.pos, after.pos⟩
    value := String.ofList (cur.rest.take (cur.rest.length - after.rest.length)) }

/-- Reads a string literal, the opening quote first. -/
def stringToken (quote : Char) (cur : Cursor) : Token × Cursor :=
  let body := stringBody quote cur.next
  let token :=
    match body.value? with
    | some value =>
      { kind := .string, span := ⟨cur.pos, body.cursor.pos⟩, value := String.ofList value }
    | none => ofError cur.pos body.cursor.pos .unterminatedString
  (token, body.cursor)

/-- Reads a number literal. -/
def numberToken (cur : Cursor) : Token × Cursor :=
  let radix :=
    match cur.rest with
    | '0' :: m :: _ => m == 'x' || m == 'X' || m == 'o' || m == 'O' || m == 'b' || m == 'B'
    | _ => false
  let digits := numberChars radix false '\x00' cur.rest
  let after := cur.jump digits (cur.rest.drop digits.length)
  (between .number cur after, after)

/-- Reads a private name, the number sign first. -/
def privateToken (cur : Cursor) : Token × Cursor :=
  let after := (cur.next.span isIdentifierPart).2
  if after.pos == cur.pos + 1 then (ofError cur.pos after.pos (.unexpected '#'), after)
  else (between .privateName cur after, after)

/-- Reads a regular expression with its flags, the opening slash first. -/
def regexToken (cur : Cursor) : Token × Cursor :=
  match regexBody false (cur.pos + 1) cur.next.rest with
  | (true, body) =>
    let after := (body.span isAlnum).2
    (between .regex cur after, after)
  | (false, after) => (ofError cur.pos after.pos .unterminatedRegex, after)

/-- Reads an identifier or a reserved word. Behind a dot every word is an identifier. -/
def wordToken (last : Option Kind) (cur : Cursor) : Token × Cursor :=
  let (name, after) := identifierBody cur
  let value := String.ofList name
  let afterDot := last == some .dot || last == some .questionDot
  let kind := if afterDot then .identifier else (keyword? value).getD .identifier
  ({ kind, span := ⟨cur.pos, after.pos⟩, value }, after)

/-- Reads a punctuator; any other character is an error of its own. -/
def punctuatorToken (c : Char) (cur : Cursor) : Token × Cursor :=
  match punctuator? cur.rest with
  | some (kind, length) =>
    let after := cur.nextN length
    (between kind cur after, after)
  | none =>
    let after := cur.next
    (ofError cur.pos after.pos (.unexpected c), after)

/-- Whether a slash behind this token starts a regular expression. -/
def regexAllowed (last : Option Kind) : Bool :=
  match last with
  | none => true
  | some kind => !kind.endsExpression

/-- Reads a token that starts with the character `c` and is no template literal. -/
def plainToken (last : Option Kind) (c : Char) (cur : Cursor) : Token × Cursor :=
  if c == '"' || c == '\'' then stringToken c cur
  else if c.isDigit then numberToken cur
  else if c == '.' && (cur.next.rest.head?.any (·.isDigit)) then numberToken cur
  else if c == '#' then privateToken cur
  else if c == '/' && regexAllowed last then regexToken cur
  else if c == '\\' && cur.next.rest.head? == some 'u' then wordToken last cur
  else if isIdentifierStart c then wordToken last cur
  else punctuatorToken c cur

/-! ## Templates and whole sources -/

/-- What is left to read, and the kind of the last token. Error tokens do not count as last. -/
structure Reader where
  last : Option Kind
  cursor : Cursor

/-- The number of characters left. -/
def Reader.left (r : Reader) : Nat :=
  r.cursor.rest.length

mutual

/-- Reads the next token. -/
def nextToken (r : Reader) : Token × Reader :=
  match h : skipTrivia false r.cursor with
  | .unterminated start after =>
    (ofError start after.pos .unterminatedComment, { r with cursor := after })
  | .clear newline cur =>
    match hc : cur.rest with
    | [] =>
      ({ kind := .eof, span := ⟨cur.pos, cur.pos⟩, value := "", newlineBefore := newline },
        ⟨some .eof, cur⟩)
    | c :: rest =>
      if c == '`' then
        have : rest.length < r.left := by
          have := skipTrivia_length false r.cursor
          rw [h] at this
          simp only [Trivia.cursor, hc, List.length_cons] at this
          exact this
        let (result, after) := templateBody cur.pos ⟨r.last, ⟨cur.pos + 1, rest⟩⟩
        match result with
        | .error token => ({ token with newlineBefore := newline }, after)
        | .ok substitutions =>
          let raw := rest.take (rest.length - after.left - 1)
          ({ kind := .template
             span := ⟨cur.pos, after.cursor.pos⟩
             value := String.ofList raw
             newlineBefore := newline
             substitutions },
            ⟨some .template, after.cursor⟩)
      else
        let (token, after) := plainToken r.last c cur
        ({ token with newlineBefore := newline },
          ⟨if token.kind == .error then r.last else some token.kind, after⟩)
termination_by 2 * r.left

/-- Reads a template literal that starts at `start`, behind its opening quote, up to and including
the closing one: the tokens of its substitutions, or the error token that ends it. -/
def templateBody (start : Nat) (r : Reader) : Except Token (List Token) × Reader :=
  match _h : r.cursor.rest with
  | [] => (.error (ofError start r.cursor.pos .unterminatedTemplate), r)
  | '`' :: rest => (.ok [], { r with cursor := ⟨r.cursor.pos + 1, rest⟩ })
  | '\\' :: [] =>
    let after : Reader := { r with cursor := ⟨r.cursor.pos + 1, []⟩ }
    (.error (ofError start after.cursor.pos .unterminatedTemplate), after)
  | '\\' :: c :: rest =>
    templateBody start { r with cursor := ⟨r.cursor.pos + 1 + c.utf8Size, rest⟩ }
  | '$' :: '\x7b' :: rest =>
    match substitution start 0 ⟨some .lbrace, ⟨r.cursor.pos + 2, rest⟩⟩ with
    | (.error token, after) => (.error token, after)
    | (.ok tokens, after) =>
      if after.left < r.left then
        let (result, after) := templateBody start after
        (result.map (tokens ++ ·), after)
      else (.ok tokens, after)
  | c :: rest => templateBody start { r with cursor := ⟨r.cursor.pos + c.utf8Size, rest⟩ }
termination_by 2 * r.left
decreasing_by
  all_goals simp_all [Reader.left]
  all_goals omega

/-- Reads the tokens of a substitution up to the brace that closes it, which is not among them.
`depth` counts the braces that are open inside. -/
def substitution (start depth : Nat) (r : Reader) : Except Token (List Token) × Reader :=
  match nextToken r with
  | (token, after) =>
    if token.kind == .eof then
      (.error (ofError start after.cursor.pos .unterminatedTemplate), after)
    else if token.kind == .error then (.error token, after)
    else if token.kind == .rbrace && depth == 0 then (.ok [], after)
    else
      let depth' :=
        if token.kind == .lbrace then depth + 1
        else if token.kind == .rbrace then depth - 1
        else depth
      if after.left < r.left then
        let (result, after) := substitution start depth' after
        (result.map (token :: ·), after)
      else (.ok [token], after)
termination_by 2 * r.left + 1

end

/-- Reads tokens to the end of the text. -/
def tokensFrom (r : Reader) : List Token :=
  match nextToken r with
  | (token, after) =>
    if token.kind == .eof then [token]
    else if after.left < r.left then token :: tokensFrom after
    else [token]
termination_by r.left

/-- **The tokens of a source**, the end marker last. A first line that starts with `#!` is skipped. -/
def scan (source : String) : List Token :=
  tokensFrom ⟨none, skipHashbang ⟨0, source.toList⟩⟩

end Token

end ModuleForge
