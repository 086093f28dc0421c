import ModuleForge.CommonJs.Printer
import ModuleForge.Proofs.Arena
import ModuleForge.Proofs.Items

/-!
# A parsed program covers its source

The statements of a program that was read from a source are the module items of the source and the
texts between them. Together they are the source, from its first byte to its last.

- `itemsFrom_laid`: the items that were found stand one behind another.
- `parse_covers`: with the gaps between them, they cover the source.
- `Covers.generate`: hence the text of the program is the source.
-/

namespace ModuleForge

/-- A statement as it is read: a slice of the source, or a module item. -/
def Statement.IsParsed (s : Statement) : Prop :=
  (∃ span, s = verbatim (.ofSpan span)) ∨ ∃ span, s.sourceSpan? = some span

theorem exists_ok_of_any {ε α : Type} {x : Except ε α} {P : α → Bool}
    (h : x.toOption.any P = true) : ∃ a, x = .ok a ∧ P a = true := by
  cases x with
  | ok a => exact ⟨a, rfl, by simpa [Except.toOption] using h⟩
  | error e => simp [Except.toOption] at h

namespace Grammar

open Token (Kind)
open Text

variable {src : List Char} {tokens : List Token} {p : Program}

/-! ## The items -/

/-- Items that were found one behind another from `lo` on, each between two boundaries. -/
inductive ItemsLaid (src : List Char) : Nat → List Item → Prop
  | nil {lo : Nat} : lo ≤ byteLength src → ItemsLaid src lo []
  | cons {lo start stop : Nat} {st : Statement} {rest : List Item} : lo ≤ start → start < stop →
      IsBoundary src start → IsBoundary src stop → st.sourceSpan? = some ⟨start, stop⟩ →
      st.KeywordInside → ItemsLaid src stop rest → ItemsLaid src lo (.found start st stop :: rest)

theorem ItemsLaid.mono {lo lo' : Nat} {items : List Item} (h : ItemsLaid src lo items)
    (hle : lo' ≤ lo) : ItemsLaid src lo' items := by
  cases h with
  | nil hlo => exact .nil (Nat.le_trans hle hlo)
  | cons hlo h1 h2 h3 h4 h5 h6 => exact .cons (Nat.le_trans hle hlo) h1 h2 h3 h4 h5 h6

theorem Tokens.Laid.lastEnd_le_length {s : Tokens} (h : s.Laid src) :
    s.lastEnd ≤ byteLength src := by
  obtain ⟨before, after, rfl, hn⟩ := h.boundary
  simp only [byteLength_append]
  omega

/-- **The items of a list of tokens without faults** stand one behind another. -/
theorem itemsFrom_laid (depth : Nat) (s : Tokens) (h : s.Laid src)
    (hok : (itemsFrom depth s).filterMap Item.error? = []) :
    ItemsLaid src s.lastEnd (itemsFrom depth s) := by
  fun_induction itemsFrom depth s with
  | case1 depth s hend => exact .nil h.lastEnd_le_length
  | case2 depth s hend hitem st s' hs item hlt ih =>
    obtain ⟨hspan, hkey⟩ := moduleItem_placed h hs
    have hr := consumes_moduleItem.1.ok hs
    have h' := h.of_reaches hr
    refine .cons h.current.1 (h.current_lt hr hlt) h.current.2 h'.boundary hspan hkey (ih h' ?_)
    simpa [item, Item.error?] using hok
  | case3 depth s hend hitem st s' hs item hlt => exact absurd (consumes_moduleItem.2 hs) hlt
  | case4 depth s hend hitem e s' hs s'' hlt ih => simp [Item.error?] at hok
  | case5 depth s hend hitem e s' hs s'' hlt => simp [Item.error?] at hok
  | case6 depth s hend hitem hlt ih =>
    have hr := Tokens.reaches_advance s
    exact (ih (h.of_reaches hr) hok).mono (h.lastEnd_le hr)

/-! ## The program -/

/-- The source between two offsets as a statement, if there is any. -/
def gap (start stop : Nat) : List Statement :=
  if start < stop then [.verbatim (.ofSpan ⟨start, stop⟩)] else []

/-- The statements found and the gaps between them, from `offset` to `stop`. -/
def withGaps (stop offset : Nat) : List Item → List Statement
  | [] => gap offset stop
  | .found start st after :: rest => gap offset start ++ st :: withGaps stop after rest
  | .failed _ :: rest => withGaps stop offset rest

theorem pushGap_lists {ss : List Statement} (h : p.Lists ss) (start stop : Nat) :
    (pushGap start stop p).Lists (ss ++ gap start stop) := by
  unfold pushGap gap
  split
  · exact h.push _
  · simpa using h

theorem assemble_lists {ss : List Statement} (h : p.Lists ss) (stop offset : Nat)
    (items : List Item) :
    (assemble stop offset p items).Lists (ss ++ withGaps stop offset items) := by
  induction items generalizing p ss offset with
  | nil => exact pushGap_lists h offset stop
  | cons item rest ih =>
    cases item with
    | found start st after =>
      have := ih ((pushGap_lists h offset start).push st) after
      simpa [assemble, withGaps] using this
    | failed e => exact ih h offset

/-- Statements that cover a source from `lo` to `hi`: texts of the source and module items, none of
them empty, each starting where the one before it ends. -/
inductive Covering (src : List Char) : Nat → List Statement → Nat → Prop
  | nil (n : Nat) : Covering src n [] n
  | text {lo stop hi : Nat} {rest : List Statement} : lo < stop → IsBoundary src stop →
      Covering src stop rest hi → Covering src lo (.verbatim (.ofSpan ⟨lo, stop⟩) :: rest) hi
  | item {lo stop hi : Nat} {st : Statement} {rest : List Statement} : lo < stop →
      IsBoundary src stop → st.sourceSpan? = some ⟨lo, stop⟩ → st.KeywordInside →
      Covering src stop rest hi → Covering src lo (st :: rest) hi

variable {src : List Char} {lo hi : Nat} {ss : List Statement}

theorem Covering.gap_append {stop : Nat} (h : Covering src stop ss hi) (hle : lo ≤ stop)
    (hstop : IsBoundary src stop) : Covering src lo (gap lo stop ++ ss) hi := by
  unfold gap
  split
  · exact .text ‹_› hstop h
  · obtain rfl : lo = stop := by omega
    exact h

theorem ItemsLaid.covering {items : List Item} (h : ItemsLaid src lo items) :
    Covering src lo (withGaps (byteLength src) lo items) (byteLength src) := by
  induction h with
  | nil hle =>
    have := (Covering.nil (byteLength src)).gap_append hle (isBoundary_byteLength src)
    simpa [withGaps] using this
  | cons hle hlt hstart hstop hspan hkey _ ih =>
    exact (Covering.item hlt hstop hspan hkey ih).gap_append hle hstart

theorem Covering.isParsed (h : Covering src lo ss hi) : ∀ st ∈ ss, st.IsParsed := by
  induction h with
  | nil => simp
  | text _ _ _ ih => exact List.forall_mem_cons.2 ⟨.inl ⟨_, rfl⟩, ih⟩
  | item _ _ hspan _ _ ih => exact List.forall_mem_cons.2 ⟨.inr ⟨_, hspan⟩, ih⟩

theorem Covering.keywordInside (h : Covering src lo ss hi) : ∀ st ∈ ss, st.KeywordInside := by
  induction h with
  | nil => simp
  | text _ _ _ ih => exact List.forall_mem_cons.2 ⟨trivial, ih⟩
  | item _ _ _ hkey _ ih => exact List.forall_mem_cons.2 ⟨hkey, ih⟩

/-! ## Reading a source -/

theorem withEnd_of_laid (h : Token.Laid src lo tokens) : withEnd tokens = tokens := by
  obtain ⟨t, ht, hk, -⟩ := h.getLast?
  simp [withEnd, ht, hk]

theorem lexicalErrors_eq_nil (h : lexicalErrors tokens = []) : ∀ t ∈ tokens, t.kind ≠ .error := by
  intro t ht hk
  have := List.filterMap_eq_nil_iff.1 h t ht
  simp [hk] at this

theorem mem_withEnd {t : Token} (h : t ∈ tokens) : t ∈ withEnd tokens := by
  unfold withEnd
  split
  · split
    · exact h
    · exact List.mem_append_left _ h
  · rename_i hnone
    rw [List.getLast?_eq_none_iff.1 hnone] at h
    cases h

theorem ne_error_of_parse {source : String} (h : parse source = .ok p) :
    ∀ t ∈ Token.scan source, t.kind ≠ .error := by
  intro t ht
  simp only [parse, parseTokens] at h
  split at h
  · exact lexicalErrors_eq_nil (List.isEmpty_iff.1 ‹_›) t (mem_withEnd ht)
  · cases h

theorem Tokens.Laid.scan (source : String) : Tokens.Laid source.toList ⟨none, Token.scan source⟩ :=
  ⟨isBoundary_zero _, Token.scan_laid source⟩

/-- A program lists the items of its source, which are read without errors, and what stands between
them. -/
theorem parse_items {source : String} (h : parse source = .ok p) :
    (itemsFrom 0 ⟨none, Token.scan source⟩).filterMap Item.error? = [] ∧
      p.Lists (withGaps (byteLength source.toList) 0 (itemsFrom 0 ⟨none, Token.scan source⟩)) := by
  have hl := Token.scan_laid source
  obtain ⟨t, ht, -, hstop⟩ := hl.getLast?
  simp only [parse, parseTokens, withEnd_of_laid hl, ht, Option.map_some, Option.getD_some, hstop] at h
  split at h
  · split at h
    · rename_i hok
      obtain rfl := Except.ok.inj h
      exact ⟨List.isEmpty_iff.1 hok, assemble_lists (Program.lists_empty _) _ 0 _⟩
    · cases h
  · cases h

/-- **The statements of a program cover the source it was read from.** -/
theorem parse_covers {source : String} (h : parse source = .ok p) :
    ∃ ss, p.Lists ss ∧ Covering source.toList 0 ss (byteLength source.toList) := by
  obtain ⟨hok, hlists⟩ := parse_items h
  exact ⟨_, hlists, (itemsFrom_laid 0 _ (.scan source) hok).covering⟩

/-! ## The text of the program -/

theorem print?_of_sourceSpan {st : Statement} {span : Span} (src : List Char)
    (h : st.sourceSpan? = some span) :
    st.isSynthesized = false ∧ st.print? src = span.text? src := by
  cases st with
  | importFrom | exportAll | exportNamed | exportDecl | exportDefault =>
    exact ⟨rfl, by simp [Statement.print?, h]⟩
  | _ => cases h

/-- The slice between two boundaries of which the first is known to split the source. -/
theorem text?_of_boundary {xs ys : List Char} {stop : Nat} (h : IsBoundary (xs ++ ys) stop)
    (hle : byteLength xs ≤ stop) :
    ∃ mid rest, ys = mid ++ rest ∧ byteLength (xs ++ mid) = stop ∧
      Span.text? ⟨byteLength xs, stop⟩ (xs ++ ys) = some mid := by
  obtain ⟨mid, rest, rfl, rfl⟩ := h.cut hle
  exact ⟨mid, rest, rfl, byteLength_append xs mid, slice?_append xs mid rest⟩

/-- **Statements that cover a text from an offset on print as that text.** -/
theorem Covering.printFrom (xs : List Char) {ys : List Char} (last : Option Char)
    (h : Covering (xs ++ ys) (byteLength xs) ss (byteLength (xs ++ ys))) :
    printFrom? (xs ++ ys) last ss = some ys := by
  generalize hlo : byteLength xs = lo at h
  generalize hsrc : xs ++ ys = src at h
  generalize hhi : byteLength src = hi at h
  induction h generalizing xs ys last with
  | nil n =>
    subst hsrc
    have : ys = [] := byteLength_eq_zero (by simp only [byteLength_append] at hhi; omega)
    simp [printFrom?, this]
  | @text lo stop hi rest hlt hstop _ ih =>
    subst hsrc hlo
    obtain ⟨mid, tail, rfl, hmid, htext⟩ := text?_of_boundary hstop (Nat.le_of_lt hlt)
    have := ih _ (mid.getLast?.or last) hmid (List.append_assoc xs mid tail) hhi
    simp [printFrom?, Statement.print?, Fragment.render?, Fragment.ofSpan, Fragment.renderPieces?,
      Piece.render?, htext, Statement.isSynthesized, this]
  | @item lo stop hi st rest hlt hstop hspan _ _ ih =>
    subst hsrc hlo
    obtain ⟨mid, tail, rfl, hmid, htext⟩ := text?_of_boundary hstop (Nat.le_of_lt hlt)
    obtain ⟨hsynth, hprint⟩ := print?_of_sourceSpan (xs ++ (mid ++ tail)) hspan
    have := ih _ (mid.getLast?.or last) hmid (List.append_assoc xs mid tail) hhi
    simp [printFrom?, hprint, htext, hsynth, this]

theorem Covering.generate (h : Covering src 0 ss (byteLength src)) (hp : p.Lists ss) :
    p.generate? src = some src := by
  rw [Program.generate?, hp.statements]
  exact Covering.printFrom [] none h

end Grammar

end ModuleForge
