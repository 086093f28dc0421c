import ModuleForge.Proofs.Gaps
import ModuleForge.Proofs.Nesting

/-!
# Nothing of a source is lost

Where a source has no error, its tokens and what may stand between them make up the whole of it.

- `Gap last lo text`: what may stand before a token: blanks and complete comments, and at the start
  of the source a line that starts with `#!`.
- `Lossless src lo tokens`: from the offset `lo` on, tokens and gaps take turns up to the end marker
  at the end of `src`.
- `scan_lossless`: the tokens of a source without errors are such a sequence, and each of them is
  formed.
-/

namespace ModuleForge.Token

open Text Cursor

/-- What may stand before a token from the offset `lo` on; `last` if nothing follows but the end
marker. Only at the offset 0 there may be a line that starts with `#!`, up to its line feed. -/
inductive Gap (last : Bool) : Nat → List Char → Prop
  | blanks {lo : Nat} {text : List Char} : Blanks last text → Gap last lo text
  | hashbang {line text : List Char} : (∀ c ∈ line, c ≠ '\n') →
      text.head? = some '\n' ∨ (last = true ∧ text = []) → Blanks last text →
      Gap last 0 ('#' :: '!' :: (line ++ text))

/-- **Tokens and gaps in turns** from the offset `lo` to the end of the source. A token covers a part
between two boundaries that is not empty, and there is one end marker, the last token. -/
inductive Lossless (src : List Char) : Nat → List Token → Prop
  | eof {lo : Nat} {t : Token} {gap : List Char} : t.kind = .eof →
      t.span = ⟨byteLength src, byteLength src⟩ → slice? lo (byteLength src) src = some gap →
      Gap true lo gap → Lossless src lo [t]
  | cons {lo : Nat} {t : Token} {rest : List Token} {gap : List Char} : t.kind ≠ .eof →
      t.span.start < t.span.stop → IsBoundary src t.span.start → IsBoundary src t.span.stop →
      slice? lo t.span.start src = some gap → Gap false lo gap →
      Lossless src t.span.stop rest → Lossless src lo (t :: rest)

/-- Reading from a cursor on covers the source from the offset `lo` on: the cursor stands there, or
at the start of the source behind its first line. -/
def FromOffset (src : List Char) (lo : Nat) (cur : Cursor) : Prop :=
  lo = cur.pos ∨ (lo = 0 ∧ cur = skipHashbang ⟨0, src⟩)

/-- A first line that starts with `#!` goes up to a line feed or to the end. -/
theorem skipHashbang_spec (src : List Char) :
    skipHashbang ⟨0, src⟩ = ⟨0, src⟩ ∨
      ∃ line, src = '#' :: '!' :: (line ++ (skipHashbang ⟨0, src⟩).rest) ∧ (∀ c ∈ line, c ≠ '\n') ∧
        ∀ c, (skipHashbang ⟨0, src⟩).rest.head? = some c → c = '\n' := by
  unfold skipHashbang
  split
  · rename_i tail hsrc
    obtain rfl : src = '#' :: '!' :: tail := hsrc
    obtain ⟨hsplit, hline, hstop⟩ := span_spec (· != '\n') ⟨2, tail⟩
    refine .inr ⟨(Cursor.span (· != '\n') ⟨2, tail⟩).1, congrArg ('#' :: '!' :: ·) hsplit,
      fun c hc => ?_, fun c hc => ?_⟩
    · simpa using hline c hc
    · simpa using hstop c hc
  · exact .inl rfl

/-- **Before a token there is a gap.** -/
theorem gap_of_clear {src : List Char} {lo : Nat} {cur start : Cursor} {newline : Bool}
    (hcur : Reaches ⟨0, src⟩ cur) (hlo : FromOffset src lo cur)
    (h : skipTrivia false cur = .clear newline start) :
    ∃ gap, slice? lo start.pos src = some gap ∧ Gap start.rest.isEmpty lo gap := by
  obtain ⟨text, htext, hblanks, hno⟩ := skipTrivia_blanks h
  obtain ⟨taken, htaken, hpos⟩ := reaches_of_clear h
  obtain rfl : taken = text := List.append_cancel_right (htaken.symm.trans htext)
  rcases hlo with rfl | ⟨rfl, rfl⟩
  · exact ⟨taken, slice?_of_reaches hcur htaken hpos, .blanks hblanks⟩
  rcases skipHashbang_spec src with hskip | ⟨line, hsrc, hline, hstop⟩
  · rw [hskip] at htaken hpos
    exact ⟨taken, slice?_of_reaches (.refl _) htaken hpos, .blanks hblanks⟩
  · -- The blanks behind the first line start with its line feed, unless nothing follows.
    have hhead : taken.head? = some '\n' ∨ (start.rest.isEmpty = true ∧ taken = []) := by
      cases hrest : (skipHashbang ⟨0, src⟩).rest with
      | nil =>
        obtain ⟨rfl, hnil⟩ := List.append_eq_nil_iff.1 (htaken.symm.trans hrest)
        exact .inr ⟨by rw [hnil]; rfl, rfl⟩
      | cons c cs =>
        obtain rfl : c = '\n' := hstop c (by rw [hrest]; rfl)
        obtain ⟨tail, rfl⟩ := head_of_noBlank rfl (by rw [← htaken, hrest]; rfl) hno
        exact .inl rfl
    refine ⟨'#' :: '!' :: (line ++ taken), ?_, .hashbang hline hhead hblanks⟩
    obtain ⟨first, hfirst, hfirstPos⟩ := hcur.trans (reaches_of_clear h)
    have hall : first = '#' :: '!' :: (line ++ taken) := by
      have hrest : first ++ start.rest = '#' :: '!' :: (line ++ taken) ++ start.rest := by
        rw [← hfirst, hsrc, htaken]
        simp
      exact List.append_cancel_right hrest
    rw [← hall]
    exact slice?_of_reaches (.refl _) hfirst hfirstPos

theorem tokensFrom_lossless {src : List Char} {lo : Nat} (r : Reader)
    (hr : Reaches ⟨0, src⟩ r.cursor) (hlo : FromOffset src lo r.cursor)
    (herr : ∀ t ∈ tokensFrom r, t.kind ≠ .error) : Lossless src lo (tokensFrom r) := by
  have hreads := nextToken_reads r
  rw [tokensFrom_eq] at herr ⊢
  cases hn : nextToken r with | mk token after
  have hlt := nextToken_left_lt hn
  rw [hn] at hreads herr
  dsimp only at hreads herr ⊢
  cases hreads with
  | eof hk hs hrest hspan =>
    obtain ⟨gap, hgap, htext⟩ := gap_of_clear hr hlo hs
    have hend := pos_of_rest_nil (hr.trans (reaches_of_clear hs)) hrest
    rw [hend] at hspan hgap
    rw [hrest] at htext
    rw [if_pos hk]
    exact .eof hk hspan hgap htext
  | error hk hp =>
    refine absurd hk (herr token ?_)
    split <;> simp
  | token start hk hs hc =>
    obtain ⟨gap, hgap, htext⟩ := gap_of_clear hr hlo hs
    have hstart := hr.trans (reaches_of_clear hs)
    have hafter := hstart.trans hc.passes.1
    have hspan : token.span = ⟨start.pos, after.cursor.pos⟩ := hc.span
    have hrest : start.rest.isEmpty = false := by
      have := hc.passes.left_lt
      cases hrest : start.rest with
      | nil => rw [hrest] at this; simp at this
      | cons c cs => rfl
    have := hlt hc.kind
    simp only [if_neg hc.kind] at herr ⊢
    have hlossless := tokensFrom_lossless after hafter (.inl rfl) fun t ht => herr t (by simp [ht])
    refine .cons hc.kind ?_ ?_ ?_ (?_ : _ = some gap) (hrest ▸ htext) ?_
    · rw [hspan]; exact hc.passes.2
    · rw [hspan]; exact isBoundary_of_reaches hstart
    · rw [hspan]; exact isBoundary_of_reaches hafter
    · rw [hspan]; exact hgap
    · rw [hspan]; exact hlossless
termination_by r.left

/-- **Nothing is lost.** The tokens of a source without errors and the gaps between them make up the
source, with one end marker at its end; each token is cut out of the source, and inside a template
literal the tokens of the substitutions stand in a row and have their braces in pairs. -/
theorem scan_lossless {source : String} (h : ∀ t ∈ scan source, t.kind ≠ .error) :
    Lossless source.toList 0 (scan source) ∧ ∀ t ∈ scan source, Formed source.toList t :=
  ⟨tokensFrom_lossless _ (skipHashbang_reaches ⟨0, source.toList⟩) (.inr ⟨rfl, rfl⟩) h,
    scan_formed source⟩

/-- A template literal inside a template literal, behind a first line and comments. -/
theorem scan_lossless_nestedTemplate :
    let source := "#!/bin/node\n/* a */ f(`$\x7b\x7b a: `$\x7bb\x7d` \x7d\x7dé`) // c"
    (∀ t ∈ scan source, t.kind ≠ .error) ∧ Lossless source.toList 0 (scan source) ∧
      ∀ t ∈ scan source, Formed source.toList t :=
  ⟨by decide +kernel, scan_lossless (by decide +kernel)⟩

end ModuleForge.Token
