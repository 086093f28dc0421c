import ModuleForge.Proofs.Gaps
import ModuleForge.Proofs.Nesting

/-!
# Line breaks before tokens

A token says whether a line break stands before it. That is a statement about the text between the
token and the one before it, whatever the two tokens hold themselves.

- `skipTrivia_newline`: the flag that is carried over blanks and comments is set by the line breaks
  among them, and by nothing else.
- `nextToken_newline`: so is the flag of the next token.
- `scan_newlineBefore_iff`: the flags of all tokens of a source.
-/

namespace ModuleForge.Token

open Text Cursor

/-! ## Blanks and comments -/

theorem blockComment_newline_eq {newline : Bool} {pos : Nat} {cs : List Char}
    (h : (blockComment newline pos cs).closed = true) :
    ∃ body, cs = body ++ (blockComment newline pos cs).cursor.rest ∧
      (blockComment newline pos cs).newline = (newline || body.any isLineBreak) := by
  fun_induction blockComment newline pos cs with
  | case1 => cases h
  | case2 newline pos rest => exact ⟨['*', '/'], rfl, by simp [isLineBreak]⟩
  | case3 newline pos c rest _ ih =>
    obtain ⟨body, hrest, hflag⟩ := ih h
    exact ⟨c :: body, congrArg (c :: ·) hrest, by rw [hflag, List.any_cons, Bool.or_assoc]⟩

/-- **The flag that is carried over blanks and comments** is set by the line breaks among them. -/
theorem skipTrivia_newline {newline newline' : Bool} {cur start : Cursor}
    (h : skipTrivia newline cur = .clear newline' start) :
    ∃ gap, cur.rest = gap ++ start.rest ∧ newline' = (newline || gap.any isLineBreak) := by
  fun_induction skipTrivia newline cur with
  | case1 newline cur tail htail ih =>
    obtain ⟨gap, hrest, hflag⟩ := ih h
    obtain ⟨hsplit, hline, -⟩ := span_spec (!isLineBreak ·) ⟨cur.pos + 2, tail⟩
    generalize Cursor.span (!isLineBreak ·) ⟨cur.pos + 2, tail⟩ = line at *
    -- a comment of this form ends before its line break, which is counted with what follows
    have hnone : line.1.any isLineBreak = false := by simpa using hline
    refine ⟨'/' :: '/' :: (line.1 ++ gap), ?_, ?_⟩
    · rw [htail, show tail = _ from hsplit, hrest]
      simp
    · rw [hflag, List.any_cons, List.any_cons, List.any_append, hnone]
      rfl
  | case2 newline cur tail htail hclosed ih =>
    obtain ⟨gap, hrest, hflag⟩ := ih h
    obtain ⟨body, hbody, hcomment⟩ := blockComment_newline_eq hclosed
    refine ⟨'/' :: '*' :: (body ++ gap), ?_, ?_⟩
    · rw [htail, hbody, hrest]
      simp
    · rw [hflag, hcomment, List.any_cons, List.any_cons, List.any_append, Bool.or_assoc]
      rfl
  | case3 => cases h
  | case4 newline cur c rest _ _ hrest hc ih =>
    obtain ⟨gap, hgap, hflag⟩ := ih h
    exact ⟨c :: gap, hrest.trans (congrArg (c :: ·) hgap), by simp [hflag, hc]⟩
  | case5 newline cur c rest _ _ hrest hc _ ih =>
    obtain ⟨gap, hgap, hflag⟩ := ih h
    exact ⟨c :: gap, hrest.trans (congrArg (c :: ·) hgap), by simp [hflag, hc]⟩
  | case6 => cases h; exact ⟨[], rfl, by simp⟩
  | case7 => cases h; exact ⟨[], rfl, by simp⟩

/-! ## Tokens -/

/-- The text from the offset `lo` up to the token holds a line break exactly if the token says
so. -/
def BreaksFrom (src : List Char) (lo : Nat) (t : Token) : Prop :=
  ∃ gap, slice? lo t.span.start src = some gap ∧
    (t.newlineBefore = true ↔ ∃ c ∈ gap, c = '\n' ∨ c = '\r' ∨ c = '\u2028' ∨ c = '\u2029')

theorem breaksFrom_of_clear {src : List Char} {cur start : Cursor} {t : Token}
    (hcur : Reaches ⟨0, src⟩ cur) (h : skipTrivia false cur = .clear t.newlineBefore start)
    (ht : t.span.start = start.pos) : BreaksFrom src cur.pos t := by
  obtain ⟨taken, htaken, hpos⟩ := reaches_of_clear h
  obtain ⟨gap, hgap, hflag⟩ := skipTrivia_newline h
  obtain rfl : taken = gap := List.append_cancel_right (htaken.symm.trans hgap)
  refine ⟨taken, ?_, ?_⟩
  · rw [ht]
    exact slice?_of_reaches hcur htaken hpos
  · rw [hflag, Bool.false_or, List.any_eq_true]
    simp only [isLineBreak, Bool.or_eq_true, beq_iff_eq, or_assoc]

/-- **The next token** tells the line breaks from where the reader stands, and the reader goes on
where the token ends. -/
theorem nextToken_newline {src : List Char} {r after : Reader} {t : Token}
    (hr : Reaches ⟨0, src⟩ r.cursor) (h : nextToken r = (t, after)) (ht : t.kind ≠ .error) :
    BreaksFrom src r.cursor.pos t ∧ after.cursor.pos = t.span.stop := by
  have hreads := nextToken_reads r
  rw [h] at hreads
  cases hreads with
  | eof _ hs _ hspan => exact ⟨breaksFrom_of_clear hr hs (by rw [hspan]), by rw [hspan]⟩
  | error hk _ => exact absurd hk ht
  | token start _ hs hc =>
    exact ⟨breaksFrom_of_clear hr hs (by rw [hc.span]), by rw [hc.span]⟩

/-- The offset behind a row of tokens that starts at the offset `lo`. -/
def endOf : Nat → List Token → Nat
  | lo, [] => lo
  | _, t :: ts => endOf t.span.stop ts

theorem tokensFrom_newline {src : List Char} (r : Reader) (hr : Reaches ⟨0, src⟩ r.cursor)
    (herror : ∀ t ∈ tokensFrom r, t.kind ≠ .error) {before after : List Token} {t : Token}
    (h : tokensFrom r = before ++ t :: after) :
    BreaksFrom src (endOf r.cursor.pos before) t := by
  cases hn : nextToken r with | mk next r'
  have hlt := nextToken_left_lt hn
  have hreaches : r.cursor.Reaches r'.cursor := by
    have := (nextToken_reads r).reaches
    rwa [hn] at this
  rw [tokensFrom_eq, hn] at h herror
  have hne : next.kind ≠ .error := herror next (by split <;> simp)
  obtain ⟨hbreaks, hstop⟩ := nextToken_newline hr hn hne
  dsimp only at h herror
  cases before with
  | nil =>
    obtain rfl : next = t := by split at h <;> exact (List.cons.inj h).1
    exact hbreaks
  | cons first before =>
    split at h
    · have hnil := (List.cons.inj h).2
      simp at hnil
    · rename_i heof
      obtain ⟨rfl, hrest⟩ := List.cons.inj h
      rw [if_neg heof] at herror
      have := hlt heof
      have hlater := tokensFrom_newline r' (hr.trans hreaches)
        (fun t ht => herror t (List.mem_cons_of_mem _ ht)) hrest
      rwa [hstop] at hlater
termination_by r.left

/-! ## Sources -/

/-- **Line breaks before the tokens of a source.** In a source without errors that does not start
with `#!`, every token, the end marker included, has the flag exactly if a line terminator stands
between the end of the token before it, or the start of the source, and its own start. -/
theorem scan_newlineBefore_iff {source : String} (hbang : ¬ ['#', '!'] <+: source.toList)
    (herror : ∀ t ∈ scan source, t.kind ≠ .error) (before : List Token) (t : Token)
    (after : List Token) (h : scan source = before ++ t :: after) :
    ∃ gap, slice? (endOf 0 before) t.span.start source.toList = some gap ∧
      (t.newlineBefore = true ↔ ∃ c ∈ gap, c = '\n' ∨ c = '\r' ∨ c = '\u2028' ∨ c = '\u2029') := by
  have hskip : skipHashbang ⟨0, source.toList⟩ = ⟨0, source.toList⟩ :=
    skipHashbang_of_ne fun tail htail => hbang ⟨tail, htail.symm⟩
  unfold scan at h herror
  rw [hskip] at h herror
  exact tokensFrom_newline ⟨none, ⟨0, source.toList⟩⟩ (.refl _) herror h

/-- Lines break inside of a template, inside of its substitution and inside of a string, none of
which counts for the token behind it, and inside of a comment, which counts. -/
theorem scan_newlineBefore_iff_brokenTokens :
    let source := "`a\n$\x7b\nb\n\x7d\n` + \"c\\\nd\" ; /*\u2028*/ e // f\r"
    ¬ ['#', '!'] <+: source.toList ∧ (∀ t ∈ scan source, t.kind ≠ .error) ∧
      (scan source).map (·.newlineBefore) = [false, false, false, false, true, true] ∧
      ∀ before t after, scan source = before ++ t :: after →
        ∃ gap, slice? (endOf 0 before) t.span.start source.toList = some gap ∧
          (t.newlineBefore = true ↔
            ∃ c ∈ gap, c = '\n' ∨ c = '\r' ∨ c = '\u2028' ∨ c = '\u2029') :=
  ⟨by decide, by decide +kernel, by decide +kernel, fun before t after h =>
    scan_newlineBefore_iff (by decide) (by decide +kernel) before t after h⟩

end ModuleForge.Token
