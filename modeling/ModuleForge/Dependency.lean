import ModuleForge.Token

/-!
# Dependencies

The modules that a piece of code loads by `require(...)` or `import(...)`. A call with a computed
template loads any file of a directory: such a dependency is a glob.

- `Dependency.ofTokens`: the dependencies of a list of tokens, each once, in order of appearance.
-/

namespace ModuleForge

/-- A module specifier, or for a glob the directory whose files may be loaded. -/
structure Dependency where
  path : String
  isGlob : Bool := false
  deriving DecidableEq, Repr, Inhabited

namespace Dependency

/-- The part of a text before the first `${`; `none` if there is no such mark. -/
def beforeSubstitution? : List Char → Option (List Char)
  | [] => none
  | '$' :: '\x7b' :: _ => some []
  | c :: rest => (beforeSubstitution? rest).map (c :: ·)

/-- The part of a text before its last slash; `none` if there is no slash. -/
def beforeLastSlash? (cs : List Char) : Option (List Char) :=
  match cs.reverse.dropWhile (· != '/') with
  | [] => none
  | _ :: before => some before.reverse

/-- The directory of a path that is cut off: what stands before the last slash, the root if nothing
does, and the current directory without slash. -/
def directory (start : List Char) : String :=
  match beforeLastSlash? start with
  | none => "."
  | some [] => "/"
  | some before => String.ofList before

/-- The dependency of a template literal, given its text between the quotes. With a substitution it
is a glob over the directory before the first one. -/
def ofTemplate (raw : String) : Dependency :=
  match beforeSubstitution? raw.toList with
  | none => { path := raw }
  | some start => { path := directory start, isGlob := true }

/-- The dependency of a call, given the callee and the three tokens behind it. An `import` takes only
strings, but may have a second argument. -/
def ofCall? (callee opening argument closing : Token) : Option Dependency :=
  let isImport := callee.kind == .kwImport
  if opening.kind != .lparen then none
  else
    match argument.kind, closing.kind with
    | .string, .rparen => some { path := argument.value }
    | .string, .comma => if isImport then some { path := argument.value } else none
    | .template, .rparen => if isImport then none else some (ofTemplate argument.value)
    | _, _ => none

/-- A token that can load a module when it is called. -/
def isCallee (t : Token) : Bool :=
  t.isWord "require" || t.kind == .kwImport

/-- The dependency of the call that starts with `t`, if it is one; a member of an object loads
nothing. -/
def ofToken? (prev : Option Token.Kind) (t : Token) (rest : List Token) : Option Dependency :=
  if !isCallee t || prev == some .dot || prev == some .questionDot then none
  else
    match rest with
    | opening :: argument :: closing :: _ => ofCall? t opening argument closing
    | _ => none

/-- All calls in a list of tokens that load a module, those in the substitutions of a template before
the template itself. `prev` is the kind of the token before the list. -/
def callsFrom (prev : Option Token.Kind) : List Token → List Dependency
  | [] => []
  | ⟨kind, span, value, newline, substitutions⟩ :: rest =>
    callsFrom none substitutions ++
      (ofToken? prev ⟨kind, span, value, newline, substitutions⟩ rest).toList ++
      callsFrom (some kind) rest

/-- **The dependencies of a list of tokens**, each once, in order of first appearance. -/
def ofTokens (tokens : List Token) : List Dependency :=
  (callsFrom none tokens).eraseDups

end Dependency

end ModuleForge
