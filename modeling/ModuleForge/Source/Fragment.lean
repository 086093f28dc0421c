import ModuleForge.Source.Span
import ModuleForge.Text.Blank

/-!
# Fragments

A fragment is a run of output text made of slices of a source and of inserted text. Inserting splits
a slice and never changes the source bytes it stands for.

- `Fragment.insertAt?`: puts text in front of a source byte.
- `Fragment.render?`: the text of the fragment, `none` if a slice does not exist in the source.
-/

namespace ModuleForge

/-- One piece of a fragment: a slice of the source, or text of its own. -/
inductive Piece where
  | source (span : Span)
  | text (text : String)
  deriving DecidableEq, Repr, Inhabited

namespace Piece

/-- Whether the piece is a slice that holds the source byte at `offset`. -/
def holds (offset : Nat) : Piece → Bool
  | source span => span.contains offset
  | text _ => false

/-- The text of the piece. -/
def render? (src : List Char) : Piece → Option (List Char)
  | source span => span.text? src
  | text t => some t.toList

/-- The pieces that stand for this one with `t` in front of the source byte at `offset`. -/
def splitAt (offset : Nat) (t : String) : Piece → List Piece
  | source span =>
    (if span.start < offset then [source ⟨span.start, offset⟩] else []) ++
      [text t, source ⟨offset, span.stop⟩]
  | text u => [text u]

end Piece

/-- A run of pieces. -/
structure Fragment where
  pieces : List Piece := []
  deriving DecidableEq, Repr, Inhabited

namespace Fragment

/-- The fragment that is one slice of the source. -/
def ofSpan (span : Span) : Fragment :=
  ⟨[.source span]⟩

/-- Adds a slice at the end; an empty one adds nothing. -/
def pushSource (span : Span) (f : Fragment) : Fragment :=
  if span.isEmpty then f else ⟨f.pieces ++ [.source span]⟩

/-- Adds text at the end. -/
def pushText (t : String) (f : Fragment) : Fragment :=
  ⟨f.pieces ++ [.text t]⟩

/-- Splits the first piece of a list that holds the byte at `offset`; `none` if no piece does. -/
def insertIn? (offset : Nat) (t : String) : List Piece → Option (List Piece)
  | [] => none
  | p :: rest =>
    if p.holds offset then some (p.splitAt offset t ++ rest)
    else (insertIn? offset t rest).map (p :: ·)

/-- Inserts text in front of the source byte at `offset`; `none` if no slice holds that byte. -/
def insertAt? (offset : Nat) (t : String) (f : Fragment) : Option Fragment :=
  (insertIn? offset t f.pieces).map fun pieces => ⟨pieces⟩

/-- The texts of the pieces, one after another. -/
def renderPieces? (src : List Char) : List Piece → Option (List Char)
  | [] => some []
  | p :: rest => do
    let head ← p.render? src
    let tail ← renderPieces? src rest
    pure (head ++ tail)

/-- The text of the fragment; `none` if one of its slices does not exist in the source. -/
def render? (src : List Char) (f : Fragment) : Option (List Char) :=
  renderPieces? src f.pieces

/-- The last character that is not blank in pieces given from the back. -/
def lastInReversed? (src : List Char) : List Piece → Option (Option Char)
  | [] => some none
  | p :: rest => do
    let t ← p.render? src
    match t.reverse.find? (!Text.isBlank ·) with
    | some c => pure (some c)
    | none => lastInReversed? src rest

/-- The last character of the fragment that is not blank, if there is one. Slices are looked at from
the back, and the answer is `none` if one that is looked at does not exist. -/
def lastSignificant? (src : List Char) (f : Fragment) : Option (Option Char) :=
  lastInReversed? src f.pieces.reverse

end Fragment

end ModuleForge
