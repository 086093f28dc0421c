import ModuleForge.Text.Word
import ModuleForge.Token

/-!
# Names for new bindings

A new binding gets a name that stands nowhere in the source and was not given out before: its base
name, with as many underscores behind it as it takes.

- `Names.fresh`: a name that is not taken.
-/

namespace ModuleForge.CommonJs

/-- What the names of all new bindings start with. -/
def bindingPrefix : String :=
  "$kiln__"

/-- The names that are taken. -/
structure Names where
  used : List String := []
  deriving Repr, Inhabited

namespace Names

def isUsed (name : String) (n : Names) : Bool :=
  n.used.contains name

/-- Marks a name as taken. -/
def reserve (name : String) (n : Names) : Names :=
  ⟨name :: n.used⟩

/-- Appends underscores to a name while it is taken, at most `tries` of them. -/
def freshFrom (n : Names) : Nat → String → String
  | 0, name => name
  | tries + 1, name => if n.isUsed name then freshFrom n tries (name.push '_') else name

/-- The base name, with underscores behind it if it is taken. There are more names to try than names
that are taken. -/
def fresh (base : String) (n : Names) : String :=
  freshFrom n n.used.length base

/-- Gives out a name and marks it as taken. -/
def allocate (base : String) (n : Names) : String × Names :=
  let name := n.fresh base
  (name, n.reserve name)

end Names

/-- The last segment of a module specifier, without the extension `.js`. Slashes at the end do not
count. -/
def baseName (specifier : String) : List Char :=
  let trimmed := specifier.toList.reverse.dropWhile (· == '/')
  let segment := trimmed.takeWhile (· != '/')
  match segment with
  | 's' :: 'j' :: '.' :: rest => rest.reverse
  | _ => segment.reverse

/-- A character that the name of a binding keeps from a module specifier. -/
def keptInName (c : Char) : Bool :=
  Text.isAlnum c || c == '_' || c == '$'

/-- The base name of the binding for a required module. -/
def bindingBase (specifier : String) : String :=
  bindingPrefix ++ String.ofList ((baseName specifier).filter keptInName)

/-- Gives out the name of the binding for a required module. -/
def Names.forSpecifier (specifier : String) (n : Names) : String × Names :=
  n.allocate (bindingBase specifier)

/-- The names of all identifiers in a list of tokens, also inside template literals. -/
def identifierNames : List Token → List String
  | [] => []
  | ⟨kind, _, value, _, substitutions⟩ :: rest =>
    (if kind == .identifier then [value] else []) ++ identifierNames substitutions ++
      identifierNames rest

/-- The names that are taken by the identifiers of a source. -/
def Names.ofTokens (tokens : List Token) : Names :=
  ⟨identifierNames tokens⟩

end ModuleForge.CommonJs
