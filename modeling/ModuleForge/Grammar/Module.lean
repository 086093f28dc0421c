import ModuleForge.Grammar.Item
import ModuleForge.Program
import ModuleForge.Token.Lexer

/-!
# Whole modules

A module is read at bracket depth zero: its import and export statements become statements of a
program, and every byte between them is kept verbatim. If a statement cannot be read, reading goes on
behind the next semicolon or at the next line, so that one pass reports all faults.

- `Grammar.parseTokens`: a program, or all errors in order.
-/

namespace ModuleForge.Grammar

open Token (Kind)

/-- What was found at the start of a module item: the statement from `start` to `stop`, or an
error. -/
inductive Item where
  | found (start : Nat) (statement : Statement) (stop : Nat)
  | failed (error : ParseError)

def Item.error? : Item → Option ParseError
  | .failed e => some e
  | .found .. => none

/-- Steps on until the token before is a semicolon or the next one starts a line. -/
def resumeFrom (before : Option Token) : List Token → Tokens
  | [] => ⟨before, []⟩
  | t :: rest =>
    if t.kind == .eof || t.newlineBefore || before.any (·.kind == .semicolon) then
      ⟨before, t :: rest⟩
    else resumeFrom (some t) rest

/-- Finds the place to go on behind a fault. At least one token is passed. -/
def resume (s : Tokens) : Tokens :=
  resumeFrom s.advance.before s.advance.rest

/-- The bracket depth behind a token. -/
def depthAfter (depth : Nat) (kind : Kind) : Nat :=
  if kind.isOpen then depth + 1 else if kind.isClose then depth - 1 else depth

/-- The module items from a place on, which is `depth` brackets deep. -/
def itemsFrom (depth : Nat) (s : Tokens) : List Item :=
  if hend : s.atEnd = true then []
  else if depth == 0 && atModuleItem s then
    match moduleItem s with
    | .ok statement s' =>
      let item := .found s.current.span.start statement s'.lastEnd
      if s'.left < s.left then item :: itemsFrom 0 s' else [item]
    | .error e s' =>
      let s'' := resume s'
      if s''.left < s.left then .failed e :: itemsFrom 0 s'' else [.failed e]
  else
    have : s.advance.left < s.left := Tokens.left_advance_lt (by simpa using hend)
    itemsFrom (depthAfter depth s.current.kind) s.advance
termination_by s.left

/-- Adds the source between two offsets to a program, if there is any. -/
def pushGap (start stop : Nat) (p : Program) : Program :=
  if start < stop then (p.push (.verbatim (.ofSpan ⟨start, stop⟩))).2 else p

/-- Adds the statements found and the gaps between them to a program whose statements end at
`offset`; the source ends at `stop`. -/
def assemble (stop : Nat) (offset : Nat) (p : Program) : List Item → Program
  | [] => pushGap offset stop p
  | .found start statement after :: rest =>
    assemble stop after ((pushGap offset start p).push statement).2 rest
  | .failed _ :: rest => assemble stop offset p rest

/-- The list with an end marker behind it, if it has none. -/
def withEnd (tokens : List Token) : List Token :=
  match tokens.getLast? with
  | some t =>
    if t.kind == .eof then tokens
    else tokens ++ [{ kind := .eof, span := ⟨t.span.stop, t.span.stop⟩, value := "" }]
  | none => [{ kind := .eof, span := ⟨0, 0⟩, value := "" }]

/-- The errors of a list of tokens that holds texts which are no tokens. -/
def lexicalErrors (tokens : List Token) : List ParseError :=
  tokens.filterMap fun t => if t.kind == .error then some ⟨.lexical t.value, t.span⟩ else none

/-- **Reads the tokens of a module**: a program, or all errors in the order of their places. Texts
that are no tokens are reported before anything else is read. -/
def parseTokens (tokens : List Token) : Except (List ParseError) Program :=
  let tokens := withEnd tokens
  let lexical := lexicalErrors tokens
  if lexical.isEmpty then
    let items := itemsFrom 0 ⟨none, tokens⟩
    let errors := items.filterMap Item.error?
    if errors.isEmpty then
      let stop := (tokens.getLast?.map (·.span.stop)).getD 0
      .ok (assemble stop 0 (.empty ⟨0, stop⟩) items)
    else .error errors
  else .error lexical

/-- Reads the text of a module. -/
def parse (source : String) : Except (List ParseError) Program :=
  parseTokens (Token.scan source)

end ModuleForge.Grammar
