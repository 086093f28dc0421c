import ModuleForge.Proofs.Cursor
import ModuleForge.Proofs.Forward

/-!
# The places of module items

A module item is read from its first token to its last. Its span starts where the first of them
starts and ends where the last of them ends, whichever way the item was read.

- `Tokens.Laid`: the tokens that follow cover parts of a source, behind the token that was read
  last.
- `hoistable_keyword`: the keyword of a function or class ends at a boundary inside of it, so that a
  name can be put behind it.
- `moduleItem_placed`: the span of a module item.
-/

namespace ModuleForge

/-- The keyword of a default function or class without name ends inside of the declaration. -/
def Statement.KeywordInside : Statement → Prop
  | exportDefault (.decl _ none decl keywordEnd _) =>
    decl.start < keywordEnd ∧ keywordEnd < decl.stop
  | _ => True

namespace Grammar

open Token (Kind)
open Tokens

variable {s s' : Tokens}

/-! ## Places in the source -/

namespace Tokens

/-- What was read ends at a boundary of `src`, and the tokens that follow cover parts of `src` one
behind another from there on. -/
structure Laid (src : List Char) (s : Tokens) : Prop where
  boundary : Text.IsBoundary src s.lastEnd
  rest : Token.Laid src s.lastEnd s.rest

variable {src : List Char} {s s' : Tokens}

theorem Laid.head {t : Token} {rest : List Token} (h : s.Laid src) (hr : s.rest = t :: rest)
    (ht : t.kind ≠ .eof) :
    s.lastEnd ≤ t.span.start ∧ t.span.start < t.span.stop ∧ Laid src ⟨some t, rest⟩ := by
  have hrest := h.rest
  rw [hr] at hrest
  cases hrest with
  | eof hk => exact absurd hk ht
  | cons _ hle hlt _ hstop hrest => exact ⟨hle, hlt, hstop, hrest⟩

theorem Laid.of_reaches (h : s.Laid src) (hr : s.Reaches s') : s'.Laid src := by
  induction hr with
  | refl s => exact h
  | step hrest ht _ ih => exact ih (h.head hrest ht).2.2

theorem Laid.lastEnd_le (h : s.Laid src) (hr : s.Reaches s') : s.lastEnd ≤ s'.lastEnd := by
  induction hr with
  | refl s => exact Nat.le_refl _
  | step hrest ht _ ih =>
    obtain ⟨h1, h2, h3⟩ := h.head hrest ht
    exact Nat.le_trans h1 (Nat.le_trans (Nat.le_of_lt h2) (ih h3))

theorem Laid.current (h : s.Laid src) :
    s.lastEnd ≤ s.current.span.start ∧ Text.IsBoundary src s.current.span.start := by
  have hrest := h.rest
  unfold Tokens.current
  cases hr : s.rest with
  | nil => exact ⟨Nat.le_refl _, h.boundary⟩
  | cons t rest =>
    rw [hr] at hrest
    cases hrest with
    | eof _ hs hle =>
      simp only [hs]
      exact ⟨hle, Text.isBoundary_byteLength src⟩
    | cons _ hle _ hstart _ _ => exact ⟨hle, hstart⟩

/-- A step over at least one token ends behind the start of the first. -/
theorem Laid.current_lt (h : s.Laid src) (hr : s.Reaches s') (hlt : s'.left < s.left) :
    s.current.span.start < s'.lastEnd := by
  cases hr with
  | refl s => exact absurd hlt (Nat.lt_irrefl _)
  | step hrest ht hr' =>
    obtain ⟨-, h2, h3⟩ := h.head hrest ht
    rw [current_of_rest hrest]
    exact Nat.lt_of_lt_of_le h2 (h3.lastEnd_le hr')

theorem Laid.lastEnd_lt (h : s.Laid src) (hr : s.Reaches s') (hlt : s'.left < s.left) :
    s.lastEnd < s'.lastEnd :=
  Nat.lt_of_le_of_lt h.current.1 (h.current_lt hr hlt)

theorem Laid.current_le (h : s.Laid src) (hr : s.Reaches s') :
    s.current.span.start ≤ s'.current.span.start := by
  cases hr with
  | refl s => exact Nat.le_refl _
  | step hrest ht hr' =>
    obtain ⟨-, h2, h3⟩ := h.head hrest ht
    rw [current_of_rest hrest]
    exact Nat.le_of_lt (Nat.lt_of_lt_of_le h2
      (Nat.le_trans (h3.lastEnd_le hr') (h3.of_reaches hr').current.1))

end Tokens

theorem check_eq_true {kind : Kind} (h : s.check kind = true) :
    ∃ t rest, s.rest = t :: rest ∧ t.kind = kind ∧ t.kind ≠ .eof := by
  simp only [check, atEnd, Bool.and_eq_true, Bool.not_eq_true', beq_iff_eq,
    beq_eq_false_iff_ne] at h
  cases hr : s.rest with
  | nil => simp [current, hr] at h
  | cons t rest =>
    rw [current_of_rest hr] at h
    exact ⟨t, rest, rfl, h.2, h.1⟩

theorem advance_of_rest {t : Token} {rest : List Token} (h : s.rest = t :: rest)
    (ht : t.kind ≠ .eof) : s.advance = ⟨some t, rest⟩ := by
  simp [advance, h, ht]

theorem consume_eq_ok {kind : Kind} {t : Token} (h : consume kind s = .ok t s') :
    ∃ rest, s.rest = t :: rest ∧ t.kind = kind ∧ t.kind ≠ .eof ∧ s' = ⟨some t, rest⟩ := by
  unfold consume at h
  split at h
  · rename_i hc
    obtain ⟨t', rest, hr, hk, heof⟩ := check_eq_true hc
    cases h
    rw [current_of_rest hr, advance_of_rest hr heof]
    exact ⟨rest, hr, hk, heof, rfl⟩
  · cases h

theorem optional_eq_ok {kind : Kind} {b : Bool} (h : optional kind s = .ok b s') :
    (b = true ∧ s.check kind = true ∧ s' = s.advance) ∨ (b = false ∧ s' = s) := by
  unfold optional at h
  split at h
  · cases h
    exact .inl ⟨rfl, ‹_›, rfl⟩
  · cases h
    exact .inr ⟨rfl, rfl⟩

theorem word_eq_ok {w : String} {u : Unit} (h : word w s = .ok u s') :
    s.current.isWord w = true ∧ s' = s.advance := by
  unfold word at h
  split at h
  · cases h
    exact ⟨‹_›, rfl⟩
  · cases h

theorem optionalWord_eq_ok {w : String} {b : Bool} (h : optionalWord w s = .ok b s') :
    (b = true ∧ s.current.isWord w = true ∧ s' = s.advance) ∨ (b = false ∧ s' = s) := by
  unfold optionalWord at h
  split at h
  · cases h
    exact .inl ⟨rfl, ‹_›, rfl⟩
  · cases h
    exact .inr ⟨rfl, rfl⟩

theorem optionalIdentifier_eq_ok {binding : Option Name} (h : optionalIdentifier s = .ok binding s') :
    (binding = none ∧ s' = s) ∨ ∃ t rest, s.rest = t :: rest ∧ t.kind = .identifier ∧
      binding = some ⟨t.value, t.span⟩ ∧ s' = ⟨some t, rest⟩ := by
  unfold optionalIdentifier at h
  split at h
  · rename_i hc
    obtain ⟨t, rest, hr, hk, heof⟩ := check_eq_true hc
    cases h
    rw [current_of_rest hr, advance_of_rest hr heof]
    exact .inr ⟨t, rest, hr, hk, rfl, rfl⟩
  · cases h
    exact .inl ⟨rfl, rfl⟩

theorem separator_eq_ok {closing : Kind} {u : Unit} (h : separator closing s = .ok u s') :
    (s.check closing = true ∧ s' = s) ∨ ∃ comma, consume .comma s = .ok comma s' := by
  unfold separator at h
  split at h
  · cases h
    exact .inl ⟨‹_›, rfl⟩
  · obtain ⟨comma, s1, h1, h⟩ := seqRight_eq_ok.1 h
    cases h
    exact .inr ⟨comma, h1⟩

/-! ## What a step gives -/

/-- What a step reads, and the place where it ends. -/
def Gives {α : Type} (P : α → Tokens → Prop) (p : Parse α) : Prop :=
  ∀ ⦃s a s'⦄, p s = .ok a s' → P a s'

/-- What a step reads in a source, and the place where it ends. -/
def GivesIn {α : Type} (src : List Char) (P : α → Tokens → Prop) (p : Parse α) : Prop :=
  ∀ ⦃s a s'⦄, s.Laid src → p s = .ok a s' → P a s'

section
variable {α β : Type} {P : β → Tokens → Prop}

theorem Gives.inSource {p : Parse β} (hp : Gives P p) (src : List Char) : GivesIn src P p :=
  fun _ _ _ _ h => hp h

theorem Gives.bind {p : Parse α} {k : α → Parse β} (hk : ∀ a, Gives P (k a)) :
    Gives P (p >>= k) := by
  intro s b s' h
  obtain ⟨a, s1, -, h1⟩ := bind_eq_ok.1 h
  exact hk a h1

theorem Gives.ite {c : Prop} [Decidable c] {p q : Parse β} (hp : Gives P p) (hq : Gives P q) :
    Gives P (if c then p else q) := by
  split
  · exact hp
  · exact hq

theorem gives_lastEnd {f : Nat → β} (hf : ∀ s : Tokens, P (f s.lastEnd) s) :
    Gives P (do
      let stop ← lastEnd
      pure (f stop)) := by
  intro s b s' h
  cases h
  exact hf _

theorem gives_fail (fault : Kind → Fault) : Gives P (fail fault : Parse β) := by
  intro s b s' h
  cases h

end

/-! ## Imports and exports -/

/-- A statement that spans what was read from `start` on, with its keyword inside. -/
def Placed (start : Nat) (st : Statement) (s' : Tokens) : Prop :=
  st.sourceSpan? = some ⟨start, s'.lastEnd⟩ ∧ st.KeywordInside

theorem importDecl_span {decl : ImportDecl} (h : importDecl s = .ok decl s') :
    decl.span = ⟨s.current.span.start, s'.lastEnd⟩ := by
  obtain ⟨keyword, s1, hk, h⟩ := bind_eq_ok.1 h
  obtain ⟨rest, hr, -⟩ := consume_eq_ok hk
  rw [current_of_rest hr]
  refine (Gives.bind (fun t => ?_) :
    Gives (fun (decl : ImportDecl) s' => decl.span = ⟨keyword.span.start, s'.lastEnd⟩) _) h
  exact .ite
    (.bind fun _ => .ite (.bind fun _ => .bind fun _ => gives_lastEnd fun _ => rfl)
      (.bind fun _ => .bind fun _ => gives_lastEnd fun _ => rfl))
    (.bind fun _ => .ite (.bind fun _ => .bind fun _ => gives_lastEnd fun _ => rfl)
      (.bind fun _ => .bind fun _ => gives_lastEnd fun _ => rfl))

theorem exportAll_placed (start : Nat) : Gives (Placed start) (exportAll start) :=
  .bind fun _ => .bind fun _ => .ite
    (.bind fun _ => .bind fun _ => .bind fun _ => gives_lastEnd fun _ => ⟨rfl, trivial⟩)
    (.bind fun _ => .bind fun _ => .bind fun _ => gives_lastEnd fun _ => ⟨rfl, trivial⟩)

theorem exportNamed_placed (start : Nat) : Gives (Placed start) (exportNamed start) :=
  .bind fun _ => .bind fun _ => .bind fun _ => gives_lastEnd fun _ => ⟨rfl, trivial⟩

theorem exportVariables_placed (start : Nat) : Gives (Placed start) (exportVariables start) :=
  .bind fun _ => .bind fun _ => .bind fun _ => .bind fun _ =>
    gives_lastEnd fun _ => ⟨rfl, trivial⟩

theorem exportHoistable_placed (start : Nat) : Gives (Placed start) (exportHoistable start) := by
  refine .bind fun first => .bind fun found => ?_
  obtain ⟨kind, name, keywordEnd⟩ := found
  cases name with
  | some name => exact gives_lastEnd fun _ => ⟨rfl, trivial⟩
  | none =>
    refine .bind fun stop => ?_
    intro s st s' h
    cases h

theorem exportDefaultExpr_placed (start : Nat) : Gives (Placed start) (exportDefaultExpr start) :=
  .bind fun _ => .bind fun _ => .bind fun _ => .bind fun _ =>
    gives_lastEnd fun _ => ⟨rfl, trivial⟩

/-! ## The keyword of a default function or class -/

section
variable {src : List Char} {s s' : Tokens} {skipped : Skipped}

theorem optionalStar_eq_ok {n k : Nat} (h : optionalStar n s = .ok k s') (hn : n = s.lastEnd) :
    k = s'.lastEnd := by
  obtain ⟨b, s1, ho, hend⟩ := bind_eq_ok.1 h
  rcases optional_eq_ok ho with ⟨rfl, -⟩ | ⟨rfl, rfl⟩
  · cases hend
    rfl
  · cases hend
    exact hn

theorem skipFunction_keyword (h : s.Laid src) (hs : skipFunction s = .ok skipped s') :
    s.current.span.start < skipped.keywordEnd ∧ skipped.keywordEnd < s'.lastEnd ∧
      Text.IsBoundary src skipped.keywordEnd := by
  obtain ⟨keyword, s1, h1, hs⟩ := bind_eq_ok.1 hs
  obtain ⟨keywordEnd, s2, h2, hs⟩ := bind_eq_ok.1 hs
  obtain ⟨rest, hr, -, hk, rfl⟩ := consume_eq_ok h1
  obtain ⟨-, hlt, hL1⟩ := h.head hr hk
  have hr2 := (forward_optionalStar _).ok h2
  obtain rfl := optionalStar_eq_ok h2 rfl
  -- at least the parameters stand behind the keyword
  obtain ⟨name, s3, h3, hs⟩ := bind_eq_ok.1 hs
  obtain ⟨⟨⟩, s4, h4, hs⟩ := bind_eq_ok.1 hs
  obtain ⟨⟨⟩, s5, h5, hs⟩ := bind_eq_ok.1 hs
  cases hs
  have hr4 := (forward_optionalIdentifier.ok h3).trans ((forward_bracketed _).ok h4)
  have hlt4 : s4.left < s2.left :=
    Nat.lt_of_lt_of_le (shortens_bracketed _ h4) (keeps_optionalIdentifier h3)
  have hlt5 : s'.left < s2.left := Nat.lt_trans (shortens_bracketed _ h5) hlt4
  rw [current_of_rest hr]
  exact ⟨Nat.lt_of_lt_of_le hlt (hL1.lastEnd_le hr2),
    (hL1.of_reaches hr2).lastEnd_lt (hr4.trans ((forward_bracketed _).ok h5)) hlt5,
    (hL1.of_reaches hr2).boundary⟩

theorem skipClass_keyword (h : s.Laid src) (hs : skipClass s = .ok skipped s') :
    s.current.span.start < skipped.keywordEnd ∧ skipped.keywordEnd < s'.lastEnd ∧
      Text.IsBoundary src skipped.keywordEnd := by
  obtain ⟨keyword, s1, h1, hs⟩ := bind_eq_ok.1 hs
  obtain ⟨name, s2, h2, hs⟩ := bind_eq_ok.1 hs
  obtain ⟨⟨⟩, s3, h3, hs⟩ := bind_eq_ok.1 hs
  obtain ⟨⟨⟩, s4, h4, hs⟩ := bind_eq_ok.1 hs
  cases hs
  obtain ⟨rest, hr, -, hk, rfl⟩ := consume_eq_ok h1
  obtain ⟨-, hlt, hL1⟩ := h.head hr hk
  -- at least the body stands behind the keyword
  have hr3 := (forward_optionalIdentifier.ok h2).trans (forward_optionalHeritage.ok h3)
  have hlt4 : s'.left < left ⟨some keyword, rest⟩ :=
    Nat.lt_of_lt_of_le (shortens_bracketed _ h4) hr3.left_le
  rw [current_of_rest hr]
  exact ⟨hlt, hL1.lastEnd_lt (hr3.trans ((forward_bracketed _).ok h4)) hlt4, hL1.boundary⟩

theorem hoistable_keyword {kind : DeclKind} (h : s.Laid src)
    (hs : hoistable s = .ok (kind, skipped) s') :
    s.current.span.start < skipped.keywordEnd ∧ skipped.keywordEnd < s'.lastEnd ∧
      Text.IsBoundary src skipped.keywordEnd := by
  obtain ⟨⟨⟩, s1, h1, hs⟩ := bind_eq_ok.1 hs
  obtain ⟨t, s2, h2, hs⟩ := bind_eq_ok.1 hs
  cases h2
  have hr1 := forward_optionalAsync.ok h1
  have hkey : s1.current.span.start < skipped.keywordEnd ∧ skipped.keywordEnd < s'.lastEnd ∧
      Text.IsBoundary src skipped.keywordEnd := by
    cases hkind : s1.current.kind <;> simp only [hkind] at hs
    case kwFunction =>
      obtain ⟨sk, s3, h3, hs⟩ := bind_eq_ok.1 hs
      cases hs
      exact skipFunction_keyword (h.of_reaches hr1) h3
    case kwClass =>
      obtain ⟨sk, s3, h3, hs⟩ := bind_eq_ok.1 hs
      cases hs
      exact skipClass_keyword (h.of_reaches hr1) h3
    all_goals cases hs
  exact ⟨Nat.lt_of_le_of_lt (h.current_le hr1) hkey.1, hkey.2⟩

theorem exportDefaultDecl_placed (start : Nat) :
    GivesIn src (Placed start) (exportDefaultDecl start) := by
  intro s st s' h hs
  obtain ⟨first, s1, h1, hs⟩ := bind_eq_ok.1 hs
  obtain ⟨⟨kind, skipped⟩, s2, h2, hs⟩ := bind_eq_ok.1 hs
  obtain ⟨stop, s3, h3, hs⟩ := bind_eq_ok.1 hs
  cases h1
  cases h3
  cases hs
  have hkey := hoistable_keyword h h2
  refine ⟨rfl, ?_⟩
  cases skipped.name with
  | some name => trivial
  | none => exact ⟨hkey.1, hkey.2.1⟩

theorem exportDefault_placed (start : Nat) :
    GivesIn src (Placed start) (exportDefault start) := by
  intro s st s' h hs
  obtain ⟨keyword, s1, h1, hs⟩ := bind_eq_ok.1 hs
  obtain ⟨s2, s3, h2, hs⟩ := bind_eq_ok.1 hs
  cases h2
  split at hs
  · exact exportDefaultDecl_placed start (h.of_reaches ((forward_consume _).ok h1)) hs
  · exact exportDefaultExpr_placed start hs

theorem exportItem_placed {st : Statement} (h : s.Laid src) (hs : exportItem s = .ok st s') :
    Placed s.current.span.start st s' := by
  obtain ⟨keyword, s1, h1, hs⟩ := bind_eq_ok.1 hs
  obtain ⟨rest, hr, -, hk, rfl⟩ := consume_eq_ok h1
  obtain ⟨-, -, hL⟩ := h.head hr hk
  rw [current_of_rest hr]
  obtain ⟨t, s2, h2, hs⟩ := bind_eq_ok.1 hs
  cases h2
  refine (?_ : GivesIn src (Placed keyword.span.start) _) hL hs
  split
  · exact (exportAll_placed _).inSource src
  · exact (exportNamed_placed _).inSource src
  · exact exportDefault_placed _
  · exact (exportVariables_placed _).inSource src
  · exact (exportVariables_placed _).inSource src
  · exact (exportVariables_placed _).inSource src
  · exact (exportHoistable_placed _).inSource src
  · exact (exportHoistable_placed _).inSource src
  · exact (exportHoistable_placed _).inSource src
  · exact (gives_fail _).inSource src

/-- **A module item spans the tokens that were read for it.** -/
theorem moduleItem_placed {st : Statement} (h : s.Laid src) (hs : moduleItem s = .ok st s') :
    Placed s.current.span.start st s' := by
  obtain ⟨t, s1, ht, hs⟩ := bind_eq_ok.1 hs
  cases ht
  split at hs
  · obtain ⟨decl, hd, rfl⟩ := map_eq_ok.1 hs
    exact ⟨congrArg some (importDecl_span hd), trivial⟩
  · exact exportItem_placed h hs

end

end Grammar

end ModuleForge
