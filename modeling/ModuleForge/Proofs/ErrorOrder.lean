import ModuleForge.CommonJs.Lowering
import ModuleForge.Proofs.Coverage
import ModuleForge.Proofs.Rounds

/-!
# Errors in the order of the source

Errors are reported at different things: the next token, a bracket that was opened before, a name, or
a whole declaration. Each of them lies on the way from the start of its statement to the place where
reading stopped, and reading goes on behind that place.

- `Marks.place`: where the error of a step lies.
- `itemsFrom_failures`: the errors of the statements of a module, each before the next statement.
- `parse_errors_inOrder`: the errors of a source.
-/

namespace ModuleForge

open Text

/-! ## Spans in a source -/

/-- A span from one boundary of a source to another, which is not before the first. -/
structure Span.IsIn (src : List Char) (span : Span) : Prop where
  start : IsBoundary src span.start
  stop : IsBoundary src span.stop
  start_le_stop : span.start ≤ span.stop

theorem Text.IsBoundary.le_byteLength {src : List Char} {n : Nat} (h : IsBoundary src n) :
    n ≤ byteLength src := by
  obtain ⟨before, after, rfl, rfl⟩ := h
  simp

namespace Token.Laid

variable {src : List Char} {lo : Nat} {ts : List Token}

theorem isIn (h : Laid src lo ts) : ∀ t ∈ ts, t.span.IsIn src := by
  induction h with
  | eof _ hspan _ =>
    rw [List.forall_mem_singleton, hspan]
    exact ⟨isBoundary_byteLength src, isBoundary_byteLength src, Nat.le_refl _⟩
  | cons _ _ hlt hstart hstop _ ih =>
    exact List.forall_mem_cons.2 ⟨⟨hstart, hstop, Nat.le_of_lt hlt⟩, ih⟩

theorem le_start (h : Laid src lo ts) : ∀ t ∈ ts, lo ≤ t.span.start := by
  induction h with
  | eof _ hspan hle => rwa [List.forall_mem_singleton, hspan]
  | cons _ hle hlt _ _ _ ih =>
    refine List.forall_mem_cons.2 ⟨hle, fun t ht => ?_⟩
    exact Nat.le_trans hle (Nat.le_trans (Nat.le_of_lt hlt) (ih t ht))

theorem pairwise_start (h : Laid src lo ts) :
    ts.Pairwise fun t t' => t.span.start < t'.span.start := by
  induction h with
  | eof => exact List.pairwise_singleton _ _
  | cons _ _ hlt _ _ hrest ih =>
    exact List.pairwise_cons.2 ⟨fun t' ht' => Nat.lt_of_lt_of_le hlt (hrest.le_start t' ht'), ih⟩

end Token.Laid

namespace Grammar

open Tokens

variable {src : List Char} {s s' : Tokens} {e : ParseError}

theorem Tokens.Laid.isIn_current (h : s.Laid src) : s.current.span.IsIn src := by
  have hrest := h.rest
  cases hs : s.rest with
  | nil => rw [hs] at hrest; cases hrest
  | cons t rest =>
    rw [hs] at hrest
    rw [current_of_rest hs]
    exact hrest.isIn t List.mem_cons_self

/-- **An error lies on the way**, not before its first token and not behind the place that was
reached. -/
theorem Marks.place (h : s.Laid src) (hmarks : Marks s e s') :
    e.span.IsIn src ∧ s.current.span.start ≤ e.span.start ∧
      e.span.start ≤ s'.current.span.start := by
  cases hmarks with
  | token o h1 h2 hspan =>
    have ho := h.of_reaches h1
    rw [hspan]
    exact ⟨ho.isIn_current, h.current_le h1, ho.current_le h2⟩
  | tokens o h1 h2 hlt hspan =>
    have ho := h.of_reaches h1
    rw [hspan]
    exact ⟨⟨ho.isIn_current.start, (ho.of_reaches h2).boundary, Nat.le_of_lt (ho.current_lt h2 hlt)⟩,
      h.current_le h1, ho.current_le h2⟩

/-! ## Behind an error -/

/-- No statement is found behind an error at the end. -/
theorem itemsFrom_resume_of_atEnd (h : s.atEnd = true) (depth : Nat) :
    itemsFrom depth (resume s) = [] := by
  have hend : (resume s).atEnd = true := by
    obtain ⟨before, rest⟩ := s
    cases rest with
    | nil => exact h
    | cons t rest =>
      have hk : (t.kind == Token.Kind.eof) = true := h
      simp only [resume, advance, hk, if_true, resumeFrom, Bool.true_or]
      exact h
  rw [itemsFrom_eq, if_pos hend]

/-- Reading goes on behind the token where it stopped. -/
theorem Tokens.Laid.current_lt_resume (h : s.Laid src) (hend : s.atEnd = false) :
    s.current.span.start < (resume s).current.span.start := by
  have hr := reaches_resume s
  exact Nat.lt_of_lt_of_le (h.current_lt hr (resume_left_lt hend (.refl s)))
    (h.of_reaches hr).current.1

/-- A module statement starts here that cannot be read. -/
def FailsWith (s : Tokens) (e : ParseError) : Prop :=
  atModuleItem s = true ∧ ∃ s', moduleItem s = .error e s'

/-- **Each statement that cannot be read has one error**, which lies between its first token and the
next such statement. -/
theorem itemsFrom_failures (depth : Nat) (s : Tokens) (h : s.Laid src) :
    ∃ failures : List (Tokens × ParseError),
      failures.map Prod.snd = (itemsFrom depth s).filterMap Item.error? ∧
      (∀ x ∈ failures, s.Reaches x.1 ∧ FailsWith x.1 x.2) ∧
      failures.Pairwise fun x y => x.2.span.start < y.1.current.span.start := by
  fun_induction itemsFrom depth s with
  | case1 => exact ⟨[], rfl, List.forall_mem_nil _, .nil⟩
  | case2 depth s hend hitem st s' hs item hlt ih =>
    have hr := consumes_moduleItem.1.ok hs
    obtain ⟨failures, herrors, hfails, horder⟩ := ih (h.of_reaches hr)
    exact ⟨failures, herrors, fun x hx => ⟨hr.trans (hfails x hx).1, (hfails x hx).2⟩, horder⟩
  | case3 depth s hend hitem st s' hs item hlt => exact absurd (consumes_moduleItem.2 hs) hlt
  | case4 depth s hend hitem e s' hs s'' hlt ih =>
    have hmarks := consumes_moduleItem.1.error hs
    have hs' := h.of_reaches hmarks.reaches
    have hr := hmarks.reaches.trans (reaches_resume s')
    obtain ⟨failures, herrors, hfails, horder⟩ := ih (h.of_reaches hr)
    have hitem : FailsWith s e := ⟨(Bool.and_eq_true_iff.1 hitem).2, s', hs⟩
    refine ⟨(s, e) :: failures, congrArg (e :: ·) herrors, List.forall_mem_cons.2
      ⟨⟨.refl s, hitem⟩, fun x hx => ⟨hr.trans (hfails x hx).1, (hfails x hx).2⟩⟩,
      List.pairwise_cons.2 ⟨fun x hx => ?_, horder⟩⟩
    cases hstop : s'.atEnd with
    | true =>
      rw [itemsFrom_resume_of_atEnd hstop, List.filterMap_nil, List.map_eq_nil_iff] at herrors
      rw [herrors] at hx
      cases hx
    | false =>
      calc e.span.start ≤ s'.current.span.start := (hmarks.place h).2.2
        _ < (resume s').current.span.start := hs'.current_lt_resume hstop
        _ ≤ x.1.current.span.start := (h.of_reaches hr).current_le (hfails x hx).1
  | case5 depth s hend hitem e s' hs s'' hlt =>
    have hreaches := (consumes_moduleItem.1.error hs).reaches
    exact absurd (resume_left_lt (by simpa using hend) hreaches) hlt
  | case6 depth s hend hitem hlt ih =>
    have hr := reaches_advance s
    obtain ⟨failures, herrors, hfails, horder⟩ := ih (h.of_reaches hr)
    exact ⟨failures, herrors, fun x hx => ⟨hr.trans (hfails x hx).1, (hfails x hx).2⟩, horder⟩

/-! ## The errors of a source -/

theorem lexicalErrors_isIn {tokens : List Token} (h : ∀ t ∈ tokens, t.span.IsIn src) :
    ∀ e ∈ lexicalErrors tokens, e.span.IsIn src := by
  intro e he
  obtain ⟨t, ht, heq⟩ := List.mem_filterMap.1 he
  split at heq
  · obtain rfl := Option.some.inj heq
    exact h t ht
  · cases heq

theorem lexicalErrors_pairwise {tokens : List Token}
    (h : tokens.Pairwise fun t t' => t.span.start < t'.span.start) :
    (lexicalErrors tokens).Pairwise fun e e' => e.span.start < e'.span.start := by
  refine h.filterMap _ fun t t' hlt e he e' he' => ?_
  split at he
  · split at he'
    · obtain rfl := Option.some.inj he
      obtain rfl := Option.some.inj he'
      exact hlt
    · cases he'
  · cases he

theorem FailsWith.place (h : s.Laid src) (hfails : FailsWith s e) :
    e.span.IsIn src ∧ s.current.span.start ≤ e.span.start := by
  obtain ⟨-, s', hs⟩ := hfails
  obtain ⟨hin, hle, -⟩ := (consumes_moduleItem.1.error hs).place h
  exact ⟨hin, hle⟩

theorem parse_eq_error {source : String} {errors : List ParseError}
    (h : parse source = .error errors) : errors ≠ [] ∧
      (errors = lexicalErrors (Token.scan source) ∨
        errors = (itemsFrom 0 ⟨none, Token.scan source⟩).filterMap Item.error?) := by
  simp only [parse, parseTokens, withEnd_of_laid (Token.scan_laid source)] at h
  split at h
  · split at h
    · cases h
    · rename_i hne
      obtain rfl := Except.error.inj h
      exact ⟨fun hnil => hne (List.isEmpty_iff.2 hnil), .inr rfl⟩
  · rename_i hne
    obtain rfl := Except.error.inj h
    exact ⟨fun hnil => hne (List.isEmpty_iff.2 hnil), .inl rfl⟩

/-- **Errors come in the order of the source.** The spans of all errors lie in the source, and each of
them starts behind the one before; the one that is reported where only one can be is the leftmost.
They are the texts that are no tokens, or else each belongs to a module statement of its own: it lies
between the first token of that statement and the next statement with an error. -/
theorem parse_errors_inOrder {source : String} {errors : List ParseError}
    (h : parse source = .error errors) :
    (∀ e ∈ errors, e.span.IsIn source.toList ∧ e.span.stop ≤ byteLength source.toList) ∧
      errors.Pairwise (fun e e' => e.span.start < e'.span.start) ∧
      (∃ first rest, errors = first :: rest ∧ CommonJs.ofSource source = .error (.parse first) ∧
        ∀ e ∈ rest, first.span.start < e.span.start) ∧
      (errors = lexicalErrors (Token.scan source) ∨
        ∃ failures : List (Tokens × ParseError), failures.map Prod.snd = errors ∧
          (∀ x ∈ failures, Reaches ⟨none, Token.scan source⟩ x.1 ∧ FailsWith x.1 x.2 ∧
            x.1.current.span.start ≤ x.2.span.start) ∧
          failures.Pairwise fun x y => x.2.span.start < y.1.current.span.start) := by
  have hlaid := Token.scan_laid source
  have hstart := Tokens.Laid.scan source
  obtain ⟨hne, hcases⟩ := parse_eq_error h
  obtain ⟨failures, hfailures, hfails, hbetween⟩ := itemsFrom_failures 0 _ hstart
  have hplace : ∀ x ∈ failures, x.2.span.IsIn source.toList ∧
      x.1.current.span.start ≤ x.2.span.start := fun x hx =>
    (hfails x hx).2.place (hstart.of_reaches (hfails x hx).1)
  have hin : ∀ e ∈ errors, e.span.IsIn source.toList := by
    rcases hcases with rfl | rfl
    · exact lexicalErrors_isIn hlaid.isIn
    · rw [← hfailures]
      exact List.forall_mem_map.2 fun x hx => (hplace x hx).1
  have horder : errors.Pairwise fun e e' => e.span.start < e'.span.start := by
    rcases hcases with rfl | rfl
    · exact lexicalErrors_pairwise hlaid.pairwise_start
    · rw [← hfailures]
      refine List.pairwise_map.2 (hbetween.imp_of_mem fun {x y} _ hy hlt => ?_)
      exact Nat.lt_of_lt_of_le hlt (hplace y hy).2
  obtain ⟨first, rest, rfl⟩ := List.exists_cons_of_ne_nil hne
  refine ⟨fun e he => ⟨hin e he, (hin e he).stop.le_byteLength⟩, horder,
    ⟨first, rest, rfl, ?_, (List.pairwise_cons.1 horder).1⟩, hcases.imp id fun hitems => ?_⟩
  · have hparse : parseTokens (Token.scan source) = .error (first :: rest) := h
    simp only [CommonJs.ofSource, hparse]
  · exact ⟨failures, hfailures.trans hitems.symm,
      fun x hx => ⟨(hfails x hx).1, (hfails x hx).2, (hplace x hx).2⟩, hbetween⟩

/-- Two statements that cannot be read: the first lacks a `from`, and the second exports a number. -/
theorem parse_errors_inOrder_twoStatements :
    let source := "import a b;\nexport 1;\n"
    ∃ first second, parse source = .error [first, second] ∧
      CommonJs.ofSource source = .error (.parse first) ∧
      first.span.start < second.span.start := by
  intro source
  have hlexical : lexicalErrors (Token.scan source) = [] := by decide +kernel
  have hitems : (itemsFrom 0 ⟨none, Token.scan source⟩).filterMap Item.error? =
      [⟨.expectedWord "from" .identifier, ⟨9, 10⟩⟩,
        ⟨.unexpectedAfterExport .number, ⟨19, 20⟩⟩] := by decide +kernel
  have hparse : parse source = .error [⟨.expectedWord "from" .identifier, ⟨9, 10⟩⟩,
      ⟨.unexpectedAfterExport .number, ⟨19, 20⟩⟩] := by
    simp only [parse, parseTokens, withEnd_of_laid (Token.scan_laid source), hlexical, hitems]
    rfl
  obtain ⟨-, horder, ⟨first, rest, heq, hreport, -⟩, -⟩ := parse_errors_inOrder hparse
  obtain ⟨rfl, rfl⟩ := List.cons.inj heq
  exact ⟨_, _, hparse, hreport, (List.pairwise_cons.1 horder).1 _ List.mem_cons_self⟩

end Grammar

end ModuleForge
