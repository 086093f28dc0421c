import ModuleForge.Program
import ModuleForge.Token

/-!
# Assignments to a default export

`export default function f() {}` exports the binding `f`, so that a later `f = g` has to change the
export too: it becomes `exports.default = f = g`. The assignments are found in one walk over the
tokens that keeps track of what the open brackets enclose, since `name = ...` is no assignment as a
default value, as a class field or in a declaration.

- `Reassignment.exportAssignments`: the program with the assignments to one name changed.
-/

namespace ModuleForge.CommonJs.Reassignment

open Token (Kind)

/-- What is put in front of the target of an assignment. -/
def exportPrefix : String :=
  "exports.default = "

/-- What a pair of brackets encloses. -/
inductive Frame where
  /-- Statements, arguments or array elements: assignments count. -/
  | code
  /-- An object literal or pattern: `{ name = 1 }` gives a default value. -/
  | object
  /-- A class body: `name = 1` is a field. -/
  | classBody
  /-- Parameters: `(name = 1)` gives a default value. -/
  | params
  deriving DecidableEq, Repr

/-! ## Brackets -/

/-- The kind of the token at an index. -/
def kindAt? (tokens : Array Token) (index : Nat) : Option Kind :=
  tokens[index]?.map (·.kind)

/-- Walks over tokens from `index` on and notes for each opening bracket the index of the bracket
that closes it; `opened` are the indices of the brackets that are open. Shapes are not compared. -/
def partnersFrom (index : Nat) (opened : List Nat) (acc : Array (Option Nat)) :
    List Token → Array (Option Nat)
  | [] => acc
  | t :: rest =>
    if t.kind.isOpen then partnersFrom (index + 1) (index :: opened) acc rest
    else if t.kind.isClose then
      match opened with
      | [] => partnersFrom (index + 1) [] acc rest
      | o :: opened => partnersFrom (index + 1) opened (acc.setIfInBounds o (some index)) rest
    else partnersFrom (index + 1) opened acc rest

/-- For each token, the index of the bracket that closes it, if it is a bracket that is closed. -/
def partners (tokens : Array Token) : Array (Option Nat) :=
  partnersFrom 0 [] (Array.replicate tokens.size none) tokens.toList

/-- The brace that opens the body of a class, looked for from `cursor` on: other brackets are
stepped over, and the end of the statement ends the search. -/
def classBodyFrom (tokens : Array Token) (closers : Array (Option Nat)) (cursor : Nat) :
    Option Nat :=
  if h : cursor < tokens.size then
    let kind := tokens[cursor].kind
    if kind == .lbrace then some cursor
    else if kind.isOpen then
      match (closers[cursor]?).join with
      | some close => if cursor < close + 1 then classBodyFrom tokens closers (close + 1) else none
      | none => none
    else if kind == .eof || kind == .semicolon then none
    else classBodyFrom tokens closers (cursor + 1)
  else none
termination_by tokens.size - cursor

/-- The bracket structure of a list of tokens. -/
structure Brackets where
  closers : Array (Option Nat)
  classBodies : List Nat

def Brackets.ofTokens (tokens : Array Token) : Brackets :=
  let closers := partners tokens
  let classes := (List.range tokens.size).filter fun i => kindAt? tokens i == some .kwClass
  { closers, classBodies := classes.filterMap fun i => classBodyFrom tokens closers (i + 1) }

/-- The kind of the token behind the bracket that closes the one at `index`. -/
def Brackets.kindBehind? (b : Brackets) (tokens : Array Token) (index : Nat) : Option Kind :=
  (b.closers[index]?).join.bind fun close => kindAt? tokens (close + 1)

/-- The token before an index. -/
def before? (tokens : Array Token) (index : Nat) : Option Token :=
  if index = 0 then none else tokens[index - 1]?

/-- The kind of the token before an index. -/
def kindBefore? (tokens : Array Token) (index : Nat) : Option Kind :=
  (before? tokens index).map (·.kind)

/-- Whether a brace behind the token `prev` opens a block of statements. -/
def opensBlock (prev : Option Token) (newlineBefore : Bool) : Bool :=
  match prev with
  | none => true
  | some t =>
    match t.kind with
    | .rparen | .arrow | .kwElse | .kwTry | .kwFinally | .kwDo | .lbrace | .rbrace | .semicolon =>
      true
    | kind => newlineBefore && kind.endsExpression

/-- Whether the parenthesis at `index` opens a list of parameters. -/
def Brackets.opensParams (b : Brackets) (tokens : Array Token) (index : Nat) : Bool :=
  b.kindBehind? tokens index == some .arrow ||
    match kindBefore? tokens index with
    | some .kwFunction | some .star => true
    | some .identifier =>
      let before := kindBefore? tokens (index - 1)
      before == some .kwFunction || before == some .star ||
        b.kindBehind? tokens index == some .lbrace
    | _ => false

/-- What the opening bracket at `index` encloses. -/
def Brackets.frameAt (b : Brackets) (tokens : Array Token) (index : Nat) (t : Token) : Frame :=
  match t.kind with
  | .lbrace =>
    if b.classBodies.contains index then .classBody
    else if opensBlock (before? tokens index) t.newlineBefore then .code
    else .object
  | .lparen => if b.opensParams tokens index then .params else .code
  | _ => .code

/-! ## The walk -/

/-- What is open at a place: the frames of the open brackets, the innermost first, and for each of
them and for the outside whether a declaration is being read. -/
structure Context where
  frames : List Frame := []
  declaring : List Bool := [false]
  deriving DecidableEq, Repr

namespace Context

def enter (f : Frame) (c : Context) : Context :=
  { frames := f :: c.frames, declaring := false :: c.declaring }

def leave (c : Context) : Context :=
  { frames := c.frames.tail
    declaring := if 1 < c.declaring.length then c.declaring.tail else c.declaring }

def setDeclaring (b : Bool) (c : Context) : Context :=
  { c with declaring := match c.declaring with
    | [] => []
    | _ :: outer => b :: outer }

def isDeclaring (c : Context) : Bool :=
  c.declaring.head?.getD false

end Context

/-- Whether the identifier `t` at `index`, which has the name that is looked for, is the target of an
assignment. -/
def isTarget (tokens : Array Token) (index : Nat) (t : Token) (c : Context) : Bool :=
  let next := kindAt? tokens (index + 1)
  let prev := before? tokens index
  let prevKind := kindBefore? tokens index
  if next != some .assign && next != some .assignOp then false
  else if prevKind == some .dot || prevKind == some .questionDot then false
  else if prevKind == some .kwVar || prevKind == some .kwLet || prevKind == some .kwConst then false
  else if c.isDeclaring && prevKind == some .comma then false
  else
    match c.frames.head? with
    | some .object | some .params =>
      !(prevKind == none || prevKind == some .lbrace || prevKind == some .lparen ||
        prevKind == some .comma || prevKind == some .ellipsis)
    | some .classBody =>
      !(prevKind == some .lbrace || prevKind == some .semicolon || prevKind == some .rbrace ||
        prev.any (·.isWord "static") || t.newlineBefore)
    | some .code | none => true

/-- Whether a semicolon is inserted before the token `t` at `index`. -/
def breaksBefore (tokens : Array Token) (index : Nat) (t : Token) : Bool :=
  t.newlineBefore && (before? tokens index).any (·.kind.endsExpression) &&
    !t.kind.continuesExpression

/-- The index of the first token behind an assignment, looked for from `index` on, which is `depth`
brackets deep. `start` is the index of the assignment operator. -/
def assignmentEnd (tokens : Array Token) (start depth index : Nat) : Nat :=
  if h : index < tokens.size then
    let t := tokens[index]
    if t.kind == .eof then index
    else if depth == 0 &&
        ((start + 1 < index && breaksBefore tokens index t) || t.kind == .semicolon ||
          t.kind == .comma || t.kind.isClose) then index
    else
      let depth' :=
        if t.kind.isOpen then depth + 1 else if t.kind.isClose then depth - 1 else depth
      assignmentEnd tokens start depth' (index + 1)
  else index
termination_by tokens.size - index

theorem le_assignmentEnd (tokens : Array Token) (start depth index : Nat) :
    index ≤ assignmentEnd tokens start depth index := by
  fun_induction assignmentEnd tokens start depth index with
  | case1 => exact Nat.le_refl _
  | case2 => exact Nat.le_refl _
  | case3 => rename_i ih; exact Nat.le_of_succ_le ih
  | case4 => exact Nat.le_refl _

/-- What is open behind the token `t` at `index`. -/
def Context.step (b : Brackets) (tokens : Array Token) (index : Nat) (t : Token) (c : Context) :
    Context :=
  if t.kind.isOpen then c.enter (b.frameAt tokens index t)
  else if t.kind.isClose then c.leave
  else
    match t.kind with
    | .kwVar | .kwLet | .kwConst => c.setDeclaring true
    | .semicolon => c.setDeclaring false
    | _ => c

/-- The indices of the identifiers `name` that are targets of assignments, from `index` on. An
assignment inside another one is part of it. -/
def targetsFrom (b : Brackets) (tokens : Array Token) (name : String) (index : Nat) (c : Context) :
    List Nat :=
  if h : index < tokens.size then
    let t := tokens[index]
    if t.isWord name && isTarget tokens index t c then
      have := le_assignmentEnd tokens (index + 1) 0 (index + 1)
      index :: targetsFrom b tokens name (assignmentEnd tokens (index + 1) 0 (index + 1)) c
    else targetsFrom b tokens name (index + 1) (c.step b tokens index t)
  else []
termination_by tokens.size - index

/-- The indices of the identifiers `name` that are targets of assignments. -/
def targets (tokens : Array Token) (name : String) : List Nat :=
  targetsFrom (.ofTokens tokens) tokens name 0 {}

/-- Puts the export in front of the source byte at `offset`, if a statement still carries it. -/
def exportAt (offset : Nat) (p : Program) : Program :=
  (p.insertTextAt? offset exportPrefix).getD p

/-- **The program with all assignments to a default export changed.** -/
def exportAssignments (tokens : Array Token) (name : String) (p : Program) : Program :=
  (targets tokens name).foldl (fun p index =>
    match tokens[index]? with
    | some t => exportAt t.span.start p
    | none => p) p

end ModuleForge.CommonJs.Reassignment
