import ModuleForge.Program
import ModuleForge.Text.Shown

/-!
# Outlines of programs

A program as an indented outline of its parts, one part a line: the arena, the places of the body in
it, and the span.
-/

namespace ModuleForge

/-- A tree of named parts. -/
inductive Outline where
  | atom (text : String)
  /-- A name with one part. -/
  | wrap (name : String) (part : Outline)
  /-- A name with named parts. -/
  | record (name : String) (fields : List (String × Outline))
  | list (items : List Outline)
  deriving Inhabited

namespace Outline

/-- The start of a line inside `level` parts. -/
def indent (level : Nat) : String := String.ofList (List.replicate (4 * level) ' ')

mutual

/-- The text of an outline that starts inside `level` parts. -/
def renderAt (level : Nat) : Outline → String
  | .atom text => text
  | .wrap name part =>
    name ++ "(\n" ++ indent (level + 1) ++ renderAt (level + 1) part ++ ",\n" ++ indent level ++ ")"
  | .record name fields => name ++ " \x7b\n" ++ renderFields (level + 1) fields ++ indent level ++ "\x7d"
  | .list [] => "[]"
  | .list items => "[\n" ++ renderItems (level + 1) items ++ indent level ++ "]"

def renderFields (level : Nat) : List (String × Outline) → String
  | [] => ""
  | (name, value) :: rest =>
    indent level ++ name ++ ": " ++ renderAt level value ++ ",\n" ++ renderFields level rest

def renderItems (level : Nat) : List Outline → String
  | [] => ""
  | item :: rest => indent level ++ renderAt level item ++ ",\n" ++ renderItems level rest

end

/-- The text of an outline. -/
def render (o : Outline) : String := renderAt 0 o

def ofNat (n : Nat) : Outline := .atom (toString n)

def ofText (s : String) : Outline := .atom (Text.shown s)

def ofOption {α : Type} (f : α → Outline) : Option α → Outline
  | some a => .wrap "Some" (f a)
  | none => .atom "None"

end Outline

open Outline

def Span.outline (s : Span) : Outline :=
  .record "Span" [("start", ofNat s.start), ("end", ofNat s.stop)]

def Name.outline (n : Name) : Outline :=
  .record "Node" [("span", n.span.outline), ("value", .record "Ident" [("name", ofText n.name)])]

def Piece.outline : Piece → Outline
  | .source span => .wrap "Source" span.outline
  | .text t => .wrap "Text" (ofText t)

def Fragment.outline (f : Fragment) : Outline :=
  .record "Fragment" [("pieces", .list (f.pieces.map Piece.outline))]

def ModuleSource.outline : ModuleSource → Outline
  | .literal text => .wrap "Literal" (ofText text)
  | .dynamic => .atom "Dynamic"

def ExportName.outline : ExportName → Outline
  | .ident name => .wrap "Ident" (ofText name)
  | .str name => .wrap "Str" (ofText name)

def ImportSpecifier.outline : ImportSpecifier → Outline
  | .default binding => .wrap "Default" binding.outline
  | .namespace binding => .wrap "Namespace" binding.outline
  | .named imported binding =>
    .record "Named" [("imported", imported.outline), ("local", binding.outline)]

def ExportSpecifier.outline (s : ExportSpecifier) : Outline :=
  .record "ExportSpecifier" [("local", s.inner.outline), ("exported", s.exported.outline)]

def DeclKind.outline (k : DeclKind) : Outline := .atom k.name

def ExportDefault.outline : ExportDefault → Outline
  | .decl kind name place keywordEnd span =>
    .record "Decl" [("kind", kind.outline), ("name", ofOption Name.outline name),
      ("decl", place.outline), ("keyword_end", ofNat keywordEnd), ("span", span.outline)]
  | .expr place span => .record "Expr" [("expr", place.outline), ("span", span.outline)]

def Expr.outline : Expr → Outline
  | .ident name => .wrap "Ident" (ofText name)
  | .member object property =>
    .record "Member" [("object", ofText object), ("property", ofText property)]
  | .require specifier => .wrap "Require" (ofText specifier)
  | .interopDefault helper binding =>
    .record "InteropDefault" [("helper", ofText helper), ("binding", ofText binding)]
  | .source text => .wrap "Source" text.outline

def Statement.outline : Statement → Outline
  | .verbatim text => .wrap "Verbatim" text.outline
  | .importFrom d =>
    .wrap "Import" (.record "ImportDecl"
      [("specifiers", .list (d.specifiers.map ImportSpecifier.outline)),
        ("source", d.source.outline), ("span", d.span.outline)])
  | .exportAll d =>
    .wrap "ExportAll" (.record "ExportAll"
      [("source", d.source.outline), ("alias", ofOption ExportName.outline d.asName),
        ("span", d.span.outline)])
  | .exportNamed d =>
    .wrap "ExportNamed" (.record "ExportNamed"
      [("specifiers", .list (d.specifiers.map ExportSpecifier.outline)),
        ("source", ofOption ModuleSource.outline d.source), ("span", d.span.outline)])
  | .exportDecl d =>
    .wrap "ExportDecl" (.record "ExportDecl"
      [("kind", d.kind.outline), ("decl", d.decl.outline),
        ("names", .list (d.names.map Name.outline)), ("span", d.span.outline)])
  | .exportDefault d => .wrap "ExportDefault" d.outline
  | .require binding specifier =>
    .record "Require" [("binding", ofOption ofText binding), ("source", ofText specifier)]
  | .varBinding name init => .record "VarBinding" [("name", ofText name), ("init", init.outline)]
  | .exportAssign exported value =>
    .record "ExportAssign" [("exported", ofText exported), ("value", value.outline)]
  | .exportAllKeys binding => .record "ExportAllKeys" [("binding", ofText binding)]
  | .declaration kind text =>
    .record "Declaration" [("kind", kind.outline), ("text", text.outline)]
  | .moduleMarker => .atom "ModuleMarker"
  | .interopHelper name => .record "InteropHelper" [("name", ofText name)]

/-- **The outline of a program.** -/
def Program.outline (p : Program) : Outline :=
  .record "Program"
    [("nodes", .list (p.nodes.toList.map Statement.outline)),
      ("body", .list (p.body.map fun id => .wrap "NodeId" (ofNat id))),
      ("span", p.span.outline)]

end ModuleForge
