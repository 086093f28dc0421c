/-!
# TOML values

A TOML value as it is read. Floats and dates are kept as they are written.
-/

namespace ModuleForge

inductive Toml where
  | bool (b : Bool)
  | integer (n : Int)
  | float (literal : String)
  | datetime (literal : String)
  | string (s : String)
  | array (items : List Toml)
  | table (entries : List (String × Toml))
  deriving Inhabited

namespace Toml

/-- A line of a document that says something. -/
inductive Line where
  /-- A table in brackets. -/
  | header (path : List String)
  /-- One of an array of tables, in double brackets. -/
  | arrayHeader (path : List String)
  | entry (path : List String) (value : Toml)
  deriving Inhabited

end Toml

end ModuleForge
