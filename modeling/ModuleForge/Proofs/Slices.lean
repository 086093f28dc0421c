import ModuleForge.Proofs.KeptSource
import ModuleForge.Proofs.Rounds

/-!
# Every slice of a program exists

A program is printed from slices of its source. Where it was read from that source, all of them
exist: each stands between two boundaries in order.

- `moduleItem_kept`: what is kept of a module item is a slice, and the keyword of a default
  declaration ends at a boundary.
- `translate_isCut`, `Statement.IsCut.insertText`: what stands for a statement is made of slices,
  and stays so when a text is put in front of a token.
- `generate?_lower`: hence the CommonJS form of a program has a text.
-/

namespace ModuleForge

open Text

variable {src : List Char}

/-! ## Slices and fragments -/

/-- The span stands between two boundaries of the source, in order. -/
def Span.IsSlice (src : List Char) (span : Span) : Prop :=
  span.start ≤ span.stop ∧ IsBoundary src span.start ∧ IsBoundary src span.stop

theorem Span.IsSlice.text? {span : Span} (h : span.IsSlice src) :
    ∃ text, span.text? src = some text := by
  obtain ⟨hle, ⟨before, after, rfl, hstart⟩, hstop⟩ := h
  obtain ⟨text, -, -, -, htext⟩ := Grammar.text?_of_boundary hstop (hstart ▸ hle)
  rw [hstart] at htext
  exact ⟨text, htext⟩

theorem Span.IsSlice.cut {src : List Char} {span : Span} {offset : Nat} (h : span.IsSlice src)
    (hoffset : IsBoundary src offset) (hlo : span.start ≤ offset) (hhi : offset ≤ span.stop) :
    IsSlice src ⟨span.start, offset⟩ ∧ IsSlice src ⟨offset, span.stop⟩ :=
  ⟨⟨hlo, h.2.1, hoffset⟩, hhi, hoffset, h.2.2⟩

namespace Fragment

variable {src : List Char} {f : Fragment}

/-- All pieces that are taken from the source exist in it. -/
def IsCut (src : List Char) (f : Fragment) : Prop :=
  ∀ span, .source span ∈ f.pieces → span.IsSlice src

theorem isCut_ofSpan {span : Span} (h : span.IsSlice src) : (ofSpan span).IsCut src := by
  intro s hs
  obtain rfl : s = span := by simpa [ofSpan] using hs
  exact h

theorem render?_piece {p : Piece} (h : ∀ span, p = .source span → span.IsSlice src) :
    ∃ text, p.render? src = some text := by
  cases p with
  | source span => exact (h span rfl).text?
  | text t => exact ⟨t.toList, rfl⟩

theorem IsCut.render? (h : f.IsCut src) : ∃ text, f.render? src = some text := by
  obtain ⟨pieces⟩ := f
  induction pieces with
  | nil => exact ⟨[], rfl⟩
  | cons p rest ih =>
    obtain ⟨head, hhead⟩ := render?_piece (p := p) fun span hp => h span (by simp [hp])
    obtain ⟨tail, htail⟩ := ih fun span hspan => h span (List.mem_cons_of_mem _ hspan)
    rw [Fragment.render?] at htail
    exact ⟨head ++ tail, by simp [Fragment.render?, renderPieces?, hhead, htail]⟩

theorem IsCut.lastSignificant? (h : f.IsCut src) : ∃ last, f.lastSignificant? src = some last := by
  have hpieces : ∀ span, .source span ∈ f.pieces.reverse → span.IsSlice src :=
    fun span hspan => h span (List.mem_reverse.1 hspan)
  unfold Fragment.lastSignificant?
  generalize f.pieces.reverse = pieces at hpieces
  induction pieces with
  | nil => exact ⟨none, rfl⟩
  | cons p rest ih =>
    obtain ⟨text, htext⟩ := render?_piece (p := p) fun span hp => hpieces span (by simp [hp])
    obtain ⟨last, hlast⟩ := ih fun span hspan => hpieces span (List.mem_cons_of_mem _ hspan)
    simp only [lastInReversed?, htext, Option.bind_eq_bind, Option.bind_some]
    split
    · exact ⟨_, rfl⟩
    · exact ⟨last, hlast⟩

/-- **Text in front of a token leaves a fragment made of slices.** -/
theorem IsCut.insertAt {f' : Fragment} {offset : Nat} {t : String} (h : f.IsCut src)
    (hoffset : IsBoundary src offset) (hf : f.insertAt? offset t = some f') : f'.IsCut src := by
  obtain ⟨ps, hps, rfl⟩ := Option.map_eq_some_iff.1 hf
  obtain ⟨as, span, bs, hpieces, hle, hlt, rfl⟩ := insertIn?_eq_some hps
  have hspan : span.IsSlice src := h span (by simp [hpieces])
  obtain ⟨hfront, hback⟩ := hspan.cut hoffset hle (Nat.le_of_lt hlt)
  intro s hs
  simp only [List.mem_append] at hs
  rcases hs with hs | hs | hs
  · exact h s (by simp [hpieces, hs])
  · simp only [Piece.splitAt] at hs
    split at hs
    · rcases (by simpa using hs : s = ⟨span.start, offset⟩ ∨ s = ⟨offset, span.stop⟩) with rfl | rfl
      · exact hfront
      · exact hback
    · obtain rfl : s = ⟨offset, span.stop⟩ := by simpa using hs
      exact hback
  · exact h s (by simp [hpieces, hs])

end Fragment

/-! ## Statements -/

namespace Statement

variable {src : List Char}

/-- The statement is printed from slices that exist. -/
structure IsCut (src : List Char) (st : Statement) : Prop where
  fragment : ∀ f, st.fragment? = some f → f.IsCut src
  span : ∀ span, st.sourceSpan? = some span → span.IsSlice src

theorem IsCut.of_none {st : Statement} (hf : st.fragment? = none) (hs : st.sourceSpan? = none) :
    st.IsCut src :=
  ⟨fun f h => by simp [hf] at h, fun span h => by simp [hs] at h⟩

theorem IsCut.of_fragment {st : Statement} {f : Fragment} (hf : st.fragment? = some f)
    (hs : st.sourceSpan? = none) (h : f.IsCut src) : st.IsCut src := by
  refine ⟨fun g hg => ?_, fun span h => by simp [hs] at h⟩
  obtain rfl : f = g := Option.some.inj (hf.symm.trans hg)
  exact h

theorem IsCut.print? {st : Statement} (h : st.IsCut src) : ∃ text, st.print? src = some text := by
  cases st with
  | verbatim f => exact (h.fragment f rfl).render?
  | importFrom | exportAll | exportNamed | exportDecl =>
    obtain ⟨text, htext⟩ := (h.span _ rfl).text?
    exact ⟨text, by simpa [Statement.print?, sourceSpan?] using htext⟩
  | exportDefault decl =>
    cases decl with
    | decl | expr =>
      obtain ⟨text, htext⟩ := (h.span _ rfl).text?
      exact ⟨text, by simpa [Statement.print?, sourceSpan?] using htext⟩
  | require binding source => cases binding <;> exact ⟨_, rfl⟩
  | varBinding name init =>
    cases init with
    | source f =>
      obtain ⟨text, htext⟩ := (h.fragment f rfl).render?
      exact ⟨_, by simp [Statement.print?, Expr.print?, htext]; rfl⟩
    | _ => exact ⟨_, rfl⟩
  | exportAssign exported value =>
    cases value with
    | source f =>
      obtain ⟨text, htext⟩ := (h.fragment f rfl).render?
      exact ⟨_, by simp [Statement.print?, Expr.print?, htext]; rfl⟩
    | _ => exact ⟨_, rfl⟩
  | declaration kind f =>
    obtain ⟨text, htext⟩ := (h.fragment f rfl).render?
    obtain ⟨last, hlast⟩ := (h.fragment f rfl).lastSignificant?
    cases kind with
    | var => exact ⟨_, by simp [Statement.print?, htext, hlast]; rfl⟩
    | function | «class» => exact ⟨text, htext⟩
  | exportAllKeys | moduleMarker | interopHelper => exact ⟨_, rfl⟩

theorem fragment?_of_sourceSpan {st : Statement} {span : Span} (h : st.sourceSpan? = some span) :
    st.fragment? = none := by
  unfold sourceSpan? at h
  split at h
  · rfl
  · rfl
  · rfl
  · rfl
  · rfl
  · rfl
  · cases h

theorem sourceSpan?_withFragment {st : Statement} {f : Fragment} (h : st.fragment? = some f)
    (f' : Fragment) : (st.withFragment f').sourceSpan? = none := by
  unfold fragment? at h
  split at h
  · rfl
  · rfl
  · rfl
  · rfl
  · cases h

theorem IsCut.insertText {st st' : Statement} {offset : Nat} {t : String} (h : st.IsCut src)
    (hoffset : IsBoundary src offset) (hst : st.insertText? offset t = some st') :
    st'.IsCut src := by
  obtain ⟨f, f', hf, hins, rfl⟩ := insertText?_eq_some hst
  exact .of_fragment (fragment?_withFragment hf f') (sourceSpan?_withFragment hf f')
    ((h.fragment f hf).insertAt hoffset hins)

end Statement

theorem printFrom?_of_isCut {ss : List Statement} (h : ∀ st ∈ ss, st.IsCut src) (last : Option Char) :
    ∃ text, printFrom? src last ss = some text := by
  induction ss generalizing last with
  | nil => exact ⟨[], rfl⟩
  | cons st rest ih =>
    obtain ⟨hst, hrest⟩ := List.forall_mem_cons.1 h
    obtain ⟨text, htext⟩ := hst.print?
    simp only [printFrom?, htext, Option.bind_eq_bind, Option.bind_some]
    obtain ⟨tail, htail⟩ := ih hrest
      ((if st.isSynthesized && last.any (· != '\n') then '\n' :: text else text).getLast?.or last)
    exact ⟨_, by rw [htail]; rfl⟩

/-! ## What is kept of a module item -/

/-- What is kept of a parsed statement is a slice, and the keyword of a default declaration without
name ends at a boundary. -/
structure Statement.IsKept (src : List Char) (st : Statement) : Prop where
  kept : ∀ span, st.keptSpan? = some span → span.IsSlice src
  keyword : ∀ kind decl keywordEnd span,
    st = .exportDefault (.decl kind none decl keywordEnd span) → IsBoundary src keywordEnd

namespace Grammar

open Tokens

variable {src : List Char} {s s' : Tokens} {st : Statement}

theorem isKept_of_none (h : st.keptSpan? = none) : st.IsKept src := by
  refine ⟨fun span hs => by simp [h] at hs, ?_⟩
  rintro kind decl keywordEnd span rfl
  cases h

/-- The source from the next token to the last one that was read. -/
theorem isSlice_of_reaches (h : s.Laid src) (hr : s.Reaches s') (hlt : s'.left < s.left) :
    Span.IsSlice src ⟨s.current.span.start, s'.lastEnd⟩ :=
  ⟨Nat.le_of_lt (h.current_lt hr hlt), h.current.2, (h.of_reaches hr).boundary⟩

theorem exportAll_kept (start : Nat) :
    Gives (fun st _ => st.IsKept src) (exportAll start) :=
  .bind fun _ => .bind fun _ => .ite
    (.bind fun _ => .bind fun _ => .bind fun _ => gives_lastEnd fun _ => isKept_of_none rfl)
    (.bind fun _ => .bind fun _ => .bind fun _ => gives_lastEnd fun _ => isKept_of_none rfl)

theorem exportNamed_kept (start : Nat) :
    Gives (fun st _ => st.IsKept src) (exportNamed start) :=
  .bind fun _ => .bind fun _ => .bind fun _ => gives_lastEnd fun _ => isKept_of_none rfl

theorem exportVariables_kept (start : Nat) :
    GivesIn src (fun st _ => st.IsKept src) (exportVariables start) := by
  intro s st s' h hs
  obtain ⟨keyword, s1, h1, hs⟩ := bind_eq_ok.1 hs
  cases h1
  obtain ⟨⟨⟩, s2, h2, hs⟩ := bind_eq_ok.1 hs
  obtain ⟨names, s3, h3, hs⟩ := bind_eq_ok.1 hs
  obtain ⟨⟨⟩, s4, h4, hs⟩ := bind_eq_ok.1 hs
  cases hs
  have hr := ((forward_skip.ok h2).trans (forward_declarators.ok h3)).trans
    (forward_optionalSemicolon.ok h4)
  have hlt : s'.left < s.left :=
    Nat.lt_of_le_of_lt (keeps_optionalSemicolon h4)
      (Nat.lt_of_lt_of_le (shortens_declarators h3) (keeps_skip h2))
  refine ⟨fun span hspan => ?_, fun _ _ _ _ h => by cases h⟩
  obtain rfl := Option.some.inj hspan
  exact isSlice_of_reaches h hr hlt

theorem hoistable_kept {kind : DeclKind} {skipped : Skipped} (h : s.Laid src)
    (hs : hoistable s = .ok (kind, skipped) s') :
    Span.IsSlice src ⟨s.current.span.start, s'.lastEnd⟩ ∧ IsBoundary src skipped.keywordEnd := by
  obtain ⟨hlo, hhi, hkey⟩ := hoistable_keyword h hs
  have hr := forward_hoistable.ok hs
  exact ⟨⟨Nat.le_of_lt (Nat.lt_trans hlo hhi), h.current.2, (h.of_reaches hr).boundary⟩, hkey⟩

theorem exportHoistable_kept (start : Nat) :
    GivesIn src (fun st _ => st.IsKept src) (exportHoistable start) := by
  intro s st s' h hs
  obtain ⟨first, s1, h1, hs⟩ := bind_eq_ok.1 hs
  cases h1
  obtain ⟨⟨kind, name, keywordEnd⟩, s2, h2, hs⟩ := bind_eq_ok.1 hs
  obtain ⟨stop, s3, h3, hs⟩ := bind_eq_ok.1 hs
  cases h3
  cases name with
  | none => cases hs
  | some name =>
    cases hs
    refine ⟨fun span hspan => ?_, fun _ _ _ _ h => by cases h⟩
    obtain rfl := Option.some.inj hspan
    exact (hoistable_kept h h2).1

theorem exportDefaultDecl_kept (start : Nat) :
    GivesIn src (fun st _ => st.IsKept src) (exportDefaultDecl start) := by
  intro s st s' h hs
  obtain ⟨first, s1, h1, hs⟩ := bind_eq_ok.1 hs
  cases h1
  obtain ⟨⟨kind, name, keywordEnd⟩, s2, h2, hs⟩ := bind_eq_ok.1 hs
  obtain ⟨stop, s3, h3, hs⟩ := bind_eq_ok.1 hs
  cases h3
  cases hs
  obtain ⟨hslice, hkey⟩ := hoistable_kept h h2
  refine ⟨fun span hspan => ?_, fun kind decl keywordEnd span hst => ?_⟩
  · obtain rfl := Option.some.inj hspan
    exact hslice
  · cases hst
    exact hkey

theorem exportDefaultExpr_kept (start : Nat) :
    GivesIn src (fun st _ => st.IsKept src) (exportDefaultExpr start) := by
  intro s st s' h hs
  obtain ⟨first, s1, h1, hs⟩ := bind_eq_ok.1 hs
  cases h1
  obtain ⟨⟨⟩, s2, h2, hs⟩ := bind_eq_ok.1 hs
  obtain ⟨stop, s3, h3, hs⟩ := bind_eq_ok.1 hs
  cases h3
  obtain ⟨⟨⟩, s4, h4, hs⟩ := bind_eq_ok.1 hs
  cases hs
  refine ⟨fun span hspan => ?_, fun _ _ _ _ h => by cases h⟩
  obtain rfl := Option.some.inj hspan
  exact isSlice_of_reaches h ((forward_skipExpression _).ok h2) (shortens_skipExpression _ h2)

theorem exportDefault_kept (start : Nat) :
    GivesIn src (fun st _ => st.IsKept src) (exportDefault start) := by
  intro s st s' h hs
  obtain ⟨keyword, s1, h1, hs⟩ := bind_eq_ok.1 hs
  obtain ⟨s2, s3, h2, hs⟩ := bind_eq_ok.1 hs
  cases h2
  have h' := h.of_reaches ((forward_consume _).ok h1)
  split at hs
  · exact exportDefaultDecl_kept start h' hs
  · exact exportDefaultExpr_kept start h' hs

/-- **What is kept of a module item is a slice of the source.** -/
theorem moduleItem_kept (h : s.Laid src) (hs : moduleItem s = .ok st s') : st.IsKept src := by
  obtain ⟨t, s1, ht, hs⟩ := bind_eq_ok.1 hs
  cases ht
  split at hs
  · obtain ⟨decl, -, rfl⟩ := map_eq_ok.1 hs
    exact isKept_of_none rfl
  obtain ⟨keyword, s1, h1, hs⟩ := bind_eq_ok.1 hs
  obtain ⟨t, s2, h2, hs⟩ := bind_eq_ok.1 hs
  cases h2
  refine (?_ : GivesIn src (fun st _ => st.IsKept src) _)
    (h.of_reaches ((forward_consume _).ok h1)) hs
  split
  · exact (exportAll_kept _).inSource src
  · exact (exportNamed_kept _).inSource src
  · exact exportDefault_kept _
  · exact exportVariables_kept _
  · exact exportVariables_kept _
  · exact exportVariables_kept _
  · exact exportHoistable_kept _
  · exact exportHoistable_kept _
  · exact exportHoistable_kept _
  · exact (gives_fail _).inSource src

/-! ## Parsed programs -/

theorem mem_gap {start stop : Nat} (h : st ∈ gap start stop) :
    st = .verbatim (.ofSpan ⟨start, stop⟩) := by
  unfold gap at h
  split at h
  · exact List.mem_singleton.1 h
  · cases h

theorem mem_withGaps {stop offset : Nat} {items : List Item} (h : st ∈ withGaps stop offset items) :
    (∃ span, st = .verbatim (.ofSpan span)) ∨ ∃ start after, .found start st after ∈ items := by
  fun_induction withGaps stop offset items with
  | case1 offset => exact .inl ⟨_, mem_gap h⟩
  | case2 offset start st' after rest ih =>
    rcases List.mem_append.1 h with h | h
    · exact .inl ⟨_, mem_gap h⟩
    rcases List.mem_cons.1 h with rfl | h
    · exact .inr ⟨start, after, by simp⟩
    · refine (ih h).imp id ?_
      rintro ⟨start, after, h⟩
      exact ⟨start, after, by simp [h]⟩
  | case3 offset e rest ih =>
    refine (ih h).imp id ?_
    rintro ⟨start, after, h⟩
    exact ⟨start, after, by simp [h]⟩

/-- **A statement of a program is a text of its source or was read as a module item**, at a place
that is reached from the start. -/
theorem parse_statement {source : String} {p : Program} (h : parse source = .ok p)
    (hst : st ∈ p.statements) :
    (∃ span, st = .verbatim (.ofSpan span)) ∨
      ∃ s s', Tokens.Reaches ⟨none, Token.scan source⟩ s ∧ moduleItem s = .ok st s' := by
  rw [(parse_items h).2.statements] at hst
  rcases mem_withGaps hst with hst | ⟨start, after, hst⟩
  · exact .inl hst
  · exact .inr (itemsFrom_found hst)

theorem Covering.isSlice {lo hi : Nat} {ss : List Statement} (h : Covering src lo ss hi)
    (hlo : IsBoundary src lo) {span : Span} (hst : st ∈ ss)
    (hspan : st.sourceSpan? = some span ∨ st = .verbatim (.ofSpan span)) : span.IsSlice src := by
  induction h with
  | nil => cases hst
  | @text lo stop hi rest hlt hstop _ ih =>
    rcases List.mem_cons.1 hst with rfl | hst
    · rcases hspan with hspan | hspan
      · cases hspan
      · cases hspan
        exact ⟨Nat.le_of_lt hlt, hlo, hstop⟩
    · exact ih hstop hst
  | @item lo stop hi st' rest hlt hstop hspan' _ _ ih =>
    rcases List.mem_cons.1 hst with rfl | hst
    · rcases hspan with hspan | rfl
      · obtain rfl := Option.some.inj (hspan'.symm.trans hspan)
        exact ⟨Nat.le_of_lt hlt, hlo, hstop⟩
      · cases hspan'
    · exact ih hstop hst

/-- **What is kept of the statements of a program are slices of its source**, and so are the
statements themselves. -/
theorem parse_isCut {source : String} {p : Program} (h : parse source = .ok p)
    (hst : st ∈ p.statements) : st.IsKept source.toList ∧ st.IsCut source.toList := by
  obtain ⟨ss, hss, hc⟩ := parse_covers h
  have hslice {span : Span}
      (hspan : st.sourceSpan? = some span ∨ st = .verbatim (.ofSpan span)) :
      span.IsSlice source.toList :=
    hc.isSlice (isBoundary_zero _) (hss.statements ▸ hst) hspan
  rcases parse_statement h hst with ⟨span, rfl⟩ | ⟨s, s', hr, hs⟩
  · have hspan : span.IsSlice source.toList := hslice (.inr rfl)
    refine ⟨⟨fun span' h => ?_, fun _ _ _ _ h => by cases h⟩, ?_⟩
    · obtain rfl := Option.some.inj h
      exact hspan
    · exact Statement.IsCut.of_fragment rfl rfl (Fragment.isCut_ofSpan hspan)
  · have hs' := (Tokens.Laid.scan source).of_reaches hr
    refine ⟨moduleItem_kept hs' hs, fun f hf => ?_, fun span hspan => hslice (.inl hspan)⟩
    rw [Statement.fragment?_of_sourceSpan (moduleItem_placed hs' hs).1] at hf
    cases hf

end Grammar

theorem Token.Laid.boundary {lo : Nat} {ts : List Token} {t : Token} (h : Laid src lo ts)
    (ht : t ∈ ts) : IsBoundary src t.span.start := by
  induction h with
  | eof _ hspan _ =>
    obtain rfl := List.mem_singleton.1 ht
    rw [hspan]
    exact isBoundary_byteLength src
  | cons _ _ _ hstart _ _ ih =>
    rcases List.mem_cons.1 ht with rfl | ht
    · exact hstart
    · exact ih ht

/-! ## The CommonJS form -/

namespace CommonJs

variable {src : List Char}

theorem isCut_mark (c : Carry) : ∀ st ∈ c.mark, st.IsCut src := by
  intro st h
  obtain rfl := Carry.eq_of_mem_mark h
  exact .of_none rfl rfl

theorem isCut_marked {c : Carry} {image : List Statement} (h : ∀ st ∈ image, st.IsCut src) :
    ∀ st ∈ c.mark ++ image, st.IsCut src :=
  List.forall_mem_append.2 ⟨isCut_mark c, h⟩

theorem isCut_declaration {f : Fragment} (kind : DeclKind) (h : f.IsCut src) :
    Statement.IsCut src (.declaration kind f) :=
  .of_fragment rfl rfl h

theorem isCut_namedText {decl : Span} {keywordEnd : Nat} (h : decl.IsSlice src)
    (hkey : IsBoundary src keywordEnd) (hlo : decl.start < keywordEnd)
    (hhi : keywordEnd < decl.stop) (name : String) : (namedText decl keywordEnd name).IsCut src := by
  obtain ⟨hfront, hback⟩ := h.cut hkey (Nat.le_of_lt hlo) (Nat.le_of_lt hhi)
  intro span hspan
  rcases (by simpa [namedText] using hspan :
      span = ⟨decl.start, keywordEnd⟩ ∨ span = ⟨keywordEnd, decl.stop⟩) with rfl | rfl
  · exact hfront
  · exact hback

theorem isCut_pair {st st' : Statement} (h : st.IsCut src) (h' : st'.IsCut src) :
    ∀ x ∈ [st, st'], x.IsCut src := by
  simpa using ⟨h, h'⟩

/-- **What stands for a statement is made of slices.** -/
theorem translate_isCut {st : Statement} (c : Carry) (hst : st.IsCut src) (hk : st.IsKept src)
    (hinside : st.KeywordInside) : ∀ st' ∈ (translate c st).1, st'.IsCut src := by
  unfold translate
  split
  · simpa using Statement.IsCut.of_none rfl rfl
  · refine List.forall_mem_cons.2 ⟨.of_none rfl rfl, ?_⟩
    refine List.forall_mem_map.2 fun spec _ => ?_
    cases spec <;> exact .of_none rfl rfl
  · exact isCut_marked (by simpa using Statement.IsCut.of_none rfl rfl)
  · exact isCut_marked (isCut_pair (.of_none rfl rfl) (.of_none rfl rfl))
  · refine isCut_marked (List.forall_mem_cons.2 ⟨.of_none rfl rfl, ?_⟩)
    exact List.forall_mem_map.2 fun spec _ => .of_none rfl rfl
  · exact isCut_mark c
  · refine isCut_marked (List.forall_mem_cons.2 ⟨?_, ?_⟩)
    · exact isCut_declaration _ (Fragment.isCut_ofSpan (hk.kept _ rfl))
    · exact List.forall_mem_map.2 fun n _ => .of_none rfl rfl
  · refine isCut_marked (isCut_pair ?_ (.of_none rfl rfl))
    exact isCut_declaration _ (Fragment.isCut_ofSpan (hk.kept _ rfl))
  · refine isCut_marked (isCut_pair (.of_none rfl rfl) ?_)
    exact isCut_declaration _ (Fragment.isCut_ofSpan (hk.kept _ rfl))
  · refine isCut_marked (isCut_pair ?_ (.of_none rfl rfl))
    exact isCut_declaration _
      (isCut_namedText (hk.kept _ rfl) (hk.keyword _ _ _ _ rfl) hinside.1 hinside.2 _)
  · refine isCut_marked (isCut_pair (.of_none rfl rfl) ?_)
    exact isCut_declaration _
      (isCut_namedText (hk.kept _ rfl) (hk.keyword _ _ _ _ rfl) hinside.1 hinside.2 _)
  · refine isCut_marked (isCut_pair ?_ (.of_none rfl rfl))
    exact .of_fragment rfl rfl (Fragment.isCut_ofSpan (hk.kept _ rfl))
  · exact List.forall_mem_singleton.2 hst

theorem translateAll_isCut {ss : List Statement} (c : Carry)
    (h : ∀ st ∈ ss, st.IsCut src ∧ st.IsKept src ∧ st.KeywordInside) :
    ∀ st ∈ (translateAll c ss).1, st.IsCut src := by
  induction ss generalizing c with
  | nil => simp [translateAll]
  | cons st rest ih =>
    obtain ⟨⟨hst, hk, hinside⟩, hrest⟩ := List.forall_mem_cons.1 h
    exact List.forall_mem_append.2 ⟨translate_isCut c hst hk hinside, ih _ hrest⟩

theorem moduleImage_isCut {ss : List Statement} (names : Names)
    (h : ∀ st ∈ ss, st.IsCut src ∧ st.IsKept src ∧ st.KeywordInside) :
    ∀ st ∈ moduleImage names ss, st.IsCut src := by
  refine List.forall_mem_append.2 ⟨List.forall_mem_append.2 ⟨translateAll_isCut _ h, ?_⟩, ?_⟩
  · intro st hst
    obtain ⟨parsed, -, hst⟩ := List.mem_flatMap.1 hst
    obtain ⟨spec, rfl⟩ := exists_of_mem_localExports hst
    exact .of_none rfl rfl
  · exact List.forall_mem_map.2 fun name _ => .of_none rfl rfl

/-- **The CommonJS form of a program has a text**: all its slices exist. -/
theorem generate?_lower {source : String} {p : Program} (h : Grammar.parse source = .ok p) :
    ∃ text, (lower (Token.scan source) p).generate? source.toList = some text := by
  obtain ⟨ss, hp, hc⟩ := Grammar.parse_covers h
  have hss : ∀ st ∈ ss, st.IsCut source.toList ∧ st.IsKept source.toList ∧ st.KeywordInside := by
    intro st hst
    obtain ⟨hk, hcut⟩ := Grammar.parse_isCut h (hp.statements ▸ hst)
    exact ⟨hcut, hk, hc.keywordInside st hst⟩
  obtain ⟨lowered, hl, hcut⟩ := lower_lists (P := fun ss => ∀ st ∈ ss, st.IsCut source.toList)
    hp hc.keywordInside (Token.scan source) (moduleImage_isCut _ hss)
    fun {xs ys s s' t} ht _ _ hins hP => by
      obtain ⟨hxs, hP⟩ := List.forall_mem_append.1 hP
      obtain ⟨hs, hys⟩ := List.forall_mem_cons.1 hP
      have hs' := hs.insertText ((Token.scan_laid source).boundary ht) hins
      exact List.forall_mem_append.2 ⟨hxs, List.forall_mem_cons.2 ⟨hs', hys⟩⟩
  rw [Program.generate?, hl.statements]
  exact printFrom?_of_isCut hcut none

end CommonJs

end ModuleForge
