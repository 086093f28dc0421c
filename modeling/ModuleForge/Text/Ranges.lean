/-!
# Ranges of code points

A character property is kept as run lengths: how many code points from 0 on lack it, how many then
have it, and so on in turns. Every list of lengths stands for ranges in ascending order.
-/

namespace ModuleForge.Text

/-- Lengths of runs of code points that are outside and inside of the ranges, in turns. -/
abbrev Ranges := List Nat

namespace Ranges

/-- Whether a code point lies in one of the ranges. The search stops at the first range that starts
above it. -/
def covers (n : Nat) : Ranges → Bool
  | outside :: inside :: rest =>
    if n < outside then false
    else n - outside < inside || covers (n - outside - inside) rest
  | _ => false

/-- Whether a character lies in one of the ranges. -/
def contains (ranges : Ranges) (c : Char) : Bool :=
  covers c.toNat ranges

end Ranges

end ModuleForge.Text
