import ModuleForge.Decimal.Shortest
import ModuleForge.Text.Quoted

/-!
# JSON values

A JSON value as it is read. Members of an object keep their order, repeated keys included: what a
repetition means is for the one who decodes the object to say.

A text can be valid JSON and still hold values that nobody can use: a number beyond every double, or a
string or key with half of a surrogate pair. Such a value is `unusable`. It does no harm where it is
ignored.
-/

namespace ModuleForge

/-- A number is an integer of 64 bits, with or without sign, or a double. -/
inductive Json.Number where
  | integer (n : Int)
  | double (d : Decimal.Double)
  deriving DecidableEq, Repr, Inhabited

inductive Json where
  | null
  | bool (b : Bool)
  | number (n : Json.Number)
  | string (s : String)
  | array (items : List Json)
  | object (members : List (String × Json))
  /-- A number out of range, or a string or an object key that is no text. -/
  | unusable
  deriving Inhabited

namespace Json

/-- The number of a natural number. -/
def ofNat (n : Nat) : Json := .number (.integer n)

def ofStrings (items : List String) : Json := .array (items.map .string)

def ofOption {α : Type} (f : α → Json) : Option α → Json
  | some a => f a
  | none => .null

/-- The object of a map from names to values. -/
def ofMap {α : Type} (f : α → Json) (entries : List (String × α)) : Json :=
  .object (entries.map fun (k, v) => (k, f v))

/-- The text of a number. -/
def Number.text : Number → String
  | .integer n => toString n
  | .double d => d.text

end Json

end ModuleForge
