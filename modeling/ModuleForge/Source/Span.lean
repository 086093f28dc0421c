import ModuleForge.Text.Measure

/-!
# Spans

A span is a pair of byte offsets into a source text. Nothing forces the two into order or into the
text: `text?` answers only for a span that stands between two character boundaries.
-/

namespace ModuleForge

/-- A range of byte offsets, the end excluded. -/
structure Span where
  start : Nat
  stop : Nat
  deriving DecidableEq, Repr, Inhabited

namespace Span

/-- The least span that covers both. -/
def merge (a b : Span) : Span :=
  ⟨min a.start b.start, max a.stop b.stop⟩

/-- The number of bytes, zero if the ends are out of order. -/
def length (s : Span) : Nat :=
  s.stop - s.start

def isEmpty (s : Span) : Bool :=
  s.length == 0

/-- Whether an offset lies inside the span. -/
def contains (s : Span) (offset : Nat) : Bool :=
  s.start ≤ offset && offset < s.stop

/-- The text that the span covers, `none` if it is no slice of the source. -/
def text? (s : Span) (source : List Char) : Option (List Char) :=
  Text.slice? s.start s.stop source

end Span

/-- A name together with the place where it is written. -/
structure Name where
  name : String
  span : Span
  deriving DecidableEq, Repr, Inhabited

end ModuleForge
