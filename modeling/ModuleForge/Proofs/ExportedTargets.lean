import ModuleForge.Proofs.OpenBrackets
import ModuleForge.Proofs.Slices

/-!
# Where exports of assignments stand

An export is put in front of a byte of the source exactly if a target of an assignment to a default
export starts there, in a part of the source that is kept.

- `Fragment.exists_insertAt?_iff`: an insertion succeeds where a range of the fragment holds the
  byte.
- `Traced.insertText`: one insertion leaves no export without a target.
- `exportedAt_lower_iff`: the exports behind both passes.
-/

namespace ModuleForge

/-! ## Insertions that succeed -/

namespace Fragment

variable {offset : Nat} {ps : List Piece} {spans : List Span} {a : Span} {t : String}

/-- One of the spans holds the byte. -/
def Holds (spans : List Span) (offset : Nat) : Prop :=
  ∃ span ∈ spans, span.start ≤ offset ∧ offset < span.stop

theorem holds_cons :
    Holds (a :: spans) offset ↔ (a.start ≤ offset ∧ offset < a.stop) ∨ Holds spans offset := by
  simp [Holds]

theorem holds_joinFront (ha : a.start ≤ a.stop) (h : ∀ b ∈ spans, b.start ≤ b.stop) :
    Holds (joinFront a spans) offset ↔ Holds (a :: spans) offset := by
  cases spans with
  | nil => rfl
  | cons b rest =>
    have hb := h b (by simp)
    rw [joinFront]
    split
    · rename_i hmeet
      simp only [holds_cons, ← or_assoc]
      refine or_congr_left ?_
      omega
    · rfl

theorem rangesOf_ordered (h : ∀ span, .source span ∈ ps → span.start ≤ span.stop) :
    ∀ r ∈ rangesOf ps, r.start ≤ r.stop := by
  induction ps with
  | nil => simp [rangesOf]
  | cons p rest ih =>
    have ih := ih fun span hspan => h span (List.mem_cons_of_mem _ hspan)
    cases p with
    | text u => exact ih
    | source a =>
      have ha := h a (by simp)
      rw [rangesOf]
      cases hr : rangesOf rest with
      | nil => simpa [joinFront] using ha
      | cons b spans =>
        rw [hr] at ih
        obtain ⟨hb, hspans⟩ := List.forall_mem_cons.1 ih
        rw [joinFront]
        split
        · exact List.forall_mem_cons.2 ⟨by dsimp only; omega, hspans⟩
        · exact List.forall_mem_cons.2 ⟨ha, ih⟩

theorem exists_insertIn?_iff (h : ∀ span, .source span ∈ ps → span.start ≤ span.stop) :
    (∃ ps', insertIn? offset t ps = some ps') ↔ Holds (rangesOf ps) offset := by
  induction ps with
  | nil => simp [insertIn?, rangesOf, Holds]
  | cons p rest ih =>
    have hrest := fun span hspan => h span (List.mem_cons_of_mem _ hspan)
    have hmore : (∃ ps', (insertIn? offset t rest).map (p :: ·) = some ps') ↔
        Holds (rangesOf rest) offset := by
      rw [← ih hrest]
      cases insertIn? offset t rest <;> simp
    rw [insertIn?]
    cases p with
    | text u => simpa [Piece.holds, rangesOf] using hmore
    | source a =>
      rw [rangesOf, holds_joinFront (h a (by simp)) (rangesOf_ordered hrest), holds_cons, ← hmore]
      by_cases ha : a.start ≤ offset ∧ offset < a.stop <;>
        simp [Piece.holds, Span.contains, ha]

/-- **An insertion succeeds where a range of the fragment holds the byte.** -/
theorem exists_insertAt?_iff {src : List Char} {f : Fragment} (h : f.IsCut src) :
    (∃ f', f.insertAt? offset t = some f') ↔ Holds f.ranges offset := by
  rw [ranges, ← exists_insertIn?_iff fun span hspan => (h span hspan).1, insertAt?]
  cases insertIn? offset t f.pieces <;> simp

end Fragment

open Fragment (Holds)

theorem Program.Lists.exists_insertTextAt? {p : Program} {ss : List Statement} {s s' : Statement}
    {offset : Nat} {t : String} (h : p.Lists ss) (hs : s ∈ ss)
    (hins : s.insertText? offset t = some s') : ∃ q, p.insertTextAt? offset t = some q := by
  have hmem : some s ∈ p.body.map (p.nodes[·]?) := by
    rw [h.nodes]
    exact List.mem_map_of_mem hs
  obtain ⟨id, hid, hnode⟩ := List.mem_map.1 hmem
  rw [insertTextAt?]
  generalize p.body = ids at hid
  induction ids with
  | nil => cases hid
  | cons id' rest ih =>
    rw [insertTextIn?]
    split
    · exact ⟨_, rfl⟩
    · rename_i hnone
      rcases List.mem_cons.1 hid with rfl | hid
      · simp [node?, hnode, hins] at hnone
      · exact ih hid

namespace CommonJs

open Reassignment Text

variable {src : List Char} {tokens : List Token} {parsed qs : List Statement} {offset : Nat}
    {p : Program}

/-- An export of an assignment stands in front of the source byte at `offset`. -/
def ExportedAt (qs : List Statement) (offset : Nat) : Prop :=
  ∃ f ∈ qs.filterMap Statement.fragment?, (some offset, exportPrefix) ∈ f.texts

/-- The source byte at `offset` is kept of the statements. -/
def KeptAt (parsed : List Statement) (offset : Nat) : Prop :=
  Holds (parsed.filterMap Statement.keptSpan?) offset

/-- A target of an assignment to a default export starts at the source byte. -/
def TargetAt (tokens : List Token) (parsed : List Statement) (offset : Nat) : Prop :=
  ∃ name ∈ parsed.flatMap defaultNames, ∃ i ∈ targets tokens.toArray name,
    ∃ t, tokens.toArray[i]? = some t ∧ t.span.start = offset

/-- The statements carry what is kept of the source, and no export without a target. -/
structure Traced (src : List Char) (tokens : List Token) (parsed qs : List Statement) : Prop where
  keeps : KeepsSource tokens parsed qs
  cut : ∀ st ∈ qs, st.IsCut src
  traced : ∀ offset, ExportedAt qs offset → KeptAt parsed offset ∧ TargetAt tokens parsed offset

/-- The bytes that the statements carry are those that are kept. -/
theorem KeepsSource.exists_holds_iff (h : KeepsSource tokens parsed qs) :
    (∃ f ∈ qs.filterMap Statement.fragment?, Holds f.ranges offset) ↔ KeptAt parsed offset := by
  have hmem (r : List Span) : r ∈ (qs.filterMap Statement.fragment?).map Fragment.ranges ↔
      r ∈ (parsed.filterMap Statement.keptSpan?).map ([·]) := by rw [h.ranges]
  simp only [List.mem_map] at hmem
  constructor
  · rintro ⟨f, hf, hold⟩
    obtain ⟨span, hspan, heq⟩ := (hmem f.ranges).1 ⟨f, hf, rfl⟩
    obtain ⟨r, hr, hin⟩ := heq ▸ hold
    rw [List.mem_singleton.1 hr] at hin
    exact ⟨span, hspan, hin⟩
  · rintro ⟨span, hspan, hin⟩
    obtain ⟨f, hf, heq⟩ := (hmem [span]).2 ⟨span, hspan, rfl⟩
    exact ⟨f, hf, heq ▸ ⟨span, by simp, hin⟩⟩

/-- The walk itself puts no export in front of an assignment. -/
theorem not_exportedAt_moduleImage (h : ∀ st ∈ parsed, st.IsParsed) (names : Names) :
    ¬ ExportedAt (moduleImage names parsed) offset := by
  rintro ⟨f, hf, hx⟩
  have hkeeps : KeepsSource [] parsed (moduleImage names parsed) := moduleImage_keepsSource h names
  rcases hkeeps.texts f hf _ hx with ⟨-, t, ht, -⟩ | ⟨_, _, _, _, -, -, names, heq, -⟩
  · cases ht
  · have htext := congrArg (fun x => x.2.toList) heq
    simp [exportPrefix] at htext

section

variable {xs ys : List Statement} {s s' : Statement}

/-- An insertion leaves the exports that stand, and adds one in front of its byte. -/
theorem exportedAt_insertText {place : Nat} (hs : s.insertText? place exportPrefix = some s') :
    ExportedAt (xs ++ s' :: ys) offset ↔ offset = place ∨ ExportedAt (xs ++ s :: ys) offset := by
  obtain ⟨f, f', hf, hins, rfl⟩ := Statement.insertText?_eq_some hs
  have hf' := Statement.fragment?_withFragment hf f'
  obtain ⟨-, as, bs, has, hbs⟩ := Fragment.insertAt?_spec hins
  simp only [ExportedAt, List.filterMap_append, List.filterMap_cons, hf, hf', List.mem_append,
    List.mem_cons, or_and_right, exists_or, exists_eq_left, has, hbs, Prod.mk.injEq,
    Option.some.injEq, and_true]
  grind

/-- **One insertion in front of a target** leaves no export without one. -/
theorem Traced.insertText {name : String} {t : Token} {i : Nat}
    (h : Traced src tokens parsed (xs ++ s :: ys)) (hname : name ∈ parsed.flatMap defaultNames)
    (hi : i ∈ targets tokens.toArray name) (ht : tokens.toArray[i]? = some t)
    (hstart : IsBoundary src t.span.start)
    (hs : s.insertText? t.span.start exportPrefix = some s') :
    Traced src tokens parsed (xs ++ s' :: ys) := by
  obtain ⟨hkind, hvalue⟩ := identifier_of_mem_targets hi ht
  have hmem : t ∈ tokens := List.mem_of_getElem? (List.getElem?_toArray ▸ ht)
  obtain ⟨hxs, hcut⟩ := List.forall_mem_append.1 h.cut
  obtain ⟨hcuts, hys⟩ := List.forall_mem_cons.1 hcut
  refine ⟨h.keeps.insertText hs ⟨rfl, t, hmem, hkind, hvalue ▸ hname, rfl⟩, ?_, ?_⟩
  · exact List.forall_mem_append.2
      ⟨hxs, List.forall_mem_cons.2 ⟨hcuts.insertText hstart hs, hys⟩⟩
  · intro offset hexported
    rcases (exportedAt_insertText hs).1 hexported with rfl | hold
    · obtain ⟨f, f', hf, hins, -⟩ := Statement.insertText?_eq_some hs
      refine ⟨h.keeps.exists_holds_iff.1 ⟨f, by simp [hf], ?_⟩, name, hname, i, hi, t, ht, rfl⟩
      exact (Fragment.exists_insertAt?_iff (hcuts.fragment f hf)).1 ⟨f', hins⟩
    · exact h.traced offset hold

end

/-! ## Both passes -/

/-- A loop in which one round brings about what all rounds keep. -/
theorem foldl_of_mem {α β : Type} {f : β → α → β} {P Q : β → Prop} {xs : List α} {x : α} {b : β}
    (hx : x ∈ xs) (hb : P b) (hP : ∀ b, P b → ∀ y ∈ xs, P (f b y)) (hPQ : ∀ b, P b → Q (f b x))
    (hQ : ∀ b, Q b → ∀ y ∈ xs, Q (f b y)) : Q (xs.foldl f b) := by
  obtain ⟨as, bs, rfl⟩ := List.append_of_mem hx
  rw [List.foldl_append, List.foldl_cons]
  have has : P (as.foldl f b) := List.foldlRecOn _ _ hb fun b hb y hy => hP b hb y (by simp [hy])
  exact List.foldlRecOn _ _ (hPQ _ has) fun b hb y hy => hQ b hb y (by simp [hy])

/-- The round for a target puts the export in front of it, where its byte is kept. -/
theorem exportAt_exportedAt (h : ListsSome (Traced src tokens parsed) p)
    (hkept : KeptAt parsed offset) : ListsSome (ExportedAt · offset) (exportAt offset p) := by
  obtain ⟨qs, hqs, htraced⟩ := h
  obtain ⟨f, hf, hold⟩ := htraced.keeps.exists_holds_iff.2 hkept
  obtain ⟨s, hs, hf⟩ := List.mem_filterMap.1 hf
  obtain ⟨f', hf'⟩ : ∃ f', f.insertAt? offset exportPrefix = some f' :=
    (Fragment.exists_insertAt?_iff ((htraced.cut s hs).fragment f hf)).2 hold
  have hins : s.insertText? offset exportPrefix = some (s.withFragment f') := by
    simp [Statement.insertText?, hf, hf']
  obtain ⟨q, hq⟩ := hqs.exists_insertTextAt? hs hins
  obtain ⟨xs, s, s', ys, rfl, hs', hlists⟩ := hqs.insertTextAt hq
  rw [exportAt, hq]
  exact ⟨_, hlists, (exportedAt_insertText hs').2 (.inl rfl)⟩

theorem exportAssignments_exportedAt {name : String} {t : Token} {i : Nat}
    (h : ListsSome (Traced src tokens parsed) p) (hlaid : Token.Laid src 0 tokens)
    (hname : name ∈ parsed.flatMap defaultNames) (hi : i ∈ targets tokens.toArray name)
    (ht : tokens.toArray[i]? = some t) (hkept : KeptAt parsed t.span.start) :
    ListsSome (ExportedAt · t.span.start) (exportAssignments tokens.toArray name p) := by
  refine foldl_of_mem (P := ListsSome (Traced src tokens parsed)) hi h ?_ ?_ ?_
  · intro q hq j hj
    obtain ⟨u, hu, -⟩ := isWord_of_mem_targetsFrom hj
    have hmem : u ∈ tokens := List.mem_of_getElem? (List.getElem?_toArray ▸ hu)
    simp only [hu]
    exact exportAt_listsSome hq fun hs hP => hP.insertText hname hj hu (hlaid.boundary hmem) hs
  · intro q hq
    simp only [ht]
    exact exportAt_exportedAt hq hkept
  · intro q hq j hj
    obtain ⟨u, hu, -⟩ := isWord_of_mem_targetsFrom hj
    simp only [hu]
    exact exportAt_listsSome hq fun hs hP => (exportedAt_insertText hs).2 (.inr hP)

/-- **The exports behind both passes** stand in front of the targets of assignments to the default
exports, as far as their source is kept. -/
theorem exportedAt_lower_iff {source : String} (h : Grammar.parse source = .ok p) :
    ExportedAt (lower (Token.scan source) p).statements offset ↔
      KeptAt p.statements offset ∧ TargetAt (Token.scan source) p.statements offset := by
  obtain ⟨ss, hp, hc⟩ := Grammar.parse_covers h
  have hlaid := Token.scan_laid source
  have hcut : ∀ st ∈ ss, st.IsCut source.toList ∧ st.IsKept source.toList ∧ st.KeywordInside := by
    intro st hst
    obtain ⟨hk, hcut⟩ := Grammar.parse_isCut h (hp.statements ▸ hst)
    exact ⟨hcut, hk, hc.keywordInside st hst⟩
  have himage : Traced source.toList (Token.scan source) ss
      (moduleImage (.ofTokens (Token.scan source)) ss) :=
    ⟨moduleImage_keepsSource hc.isParsed _, moduleImage_isCut _ hcut,
      fun _ hx => absurd hx (not_exportedAt_moduleImage hc.isParsed _)⟩
  have hboundary {t : Token} {i : Nat} (ht : (Token.scan source).toArray[i]? = some t) :=
    hlaid.boundary (List.mem_of_getElem? (List.getElem?_toArray ▸ ht))
  rw [hp.statements]
  constructor
  · obtain ⟨qs, hqs, htraced⟩ := lower_listsSome hp hc.keywordInside _ himage
      fun hname hi ht hs hP => hP.insertText hname hi ht (hboundary ht) hs
    rw [hqs.statements]
    exact htraced.traced offset
  · rintro ⟨hkept, name, hname, i, hi, t, ht, rfl⟩
    obtain ⟨hlists, hdefaults⟩ :=
      lowerBody_lists hp hc.keywordInside (.ofTokens (Token.scan source))
    suffices hq : ListsSome (ExportedAt · t.span.start) (lower (Token.scan source) p) by
      obtain ⟨qs, hqs, hx⟩ := hq
      rwa [hqs.statements]
    simp only [lower, hdefaults]
    refine foldl_of_mem (P := ListsSome (Traced source.toList (Token.scan source) ss)) hname
      ⟨_, hlists, himage⟩ ?_ ?_ ?_
    · intro q hq n hn
      exact exportAssignments_listsSome hq
        fun hi ht hs hP => hP.insertText hn hi ht (hboundary ht) hs
    · exact fun q hq => exportAssignments_exportedAt hq hlaid hname hi ht hkept
    · exact fun q hq n hn => exportAssignments_listsSome hq
        fun _ _ hs hP => (exportedAt_insertText hs).2 (.inr hP)

end CommonJs

end ModuleForge
