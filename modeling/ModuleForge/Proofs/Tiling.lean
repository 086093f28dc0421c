import ModuleForge.Proofs.Lowered

/-!
# Tilings of a source

The places of the statements of a program tile the source it was read from, and a module whose items
are all left alone is its own CommonJS form.

- `Covering.tiles`: statements that cover a part of a source have places that tile it.
- `moduleImage_leftAlone`: statements that no step of the walk touches are their own image.
- `parse_tiles`: the tiling, the text of the program, and the form of a module that is left alone.
-/

namespace ModuleForge

/-- Spans that are not empty, of which the first starts at `lo`, each other one where the one before
it ends, and the last ends at `hi`. -/
def Tiles : Nat → List Span → Nat → Prop
  | lo, [], hi => lo = hi
  | lo, s :: rest, hi => s.start = lo ∧ s.start < s.stop ∧ Tiles s.stop rest hi

namespace Statement

/-- The part of the source that a statement of a parsed program stands for: the slice that is its
text, or the place of a module item. -/
def place? : Statement → Option Span
  | verbatim ⟨[.source span]⟩ => some span
  | s => s.sourceSpan?

def isVerbatim : Statement → Bool
  | verbatim _ => true
  | _ => false

/-- A module item whose source is no string literal. -/
def isDynamic : Statement → Bool
  | importFrom ⟨_, .dynamic, _⟩ | exportAll ⟨.dynamic, _, _⟩ | exportNamed ⟨_, some .dynamic, _⟩ =>
    true
  | _ => false

/-- A statement that the walk passes. -/
def isLeftAlone (s : Statement) : Bool :=
  s.isVerbatim || s.isDynamic

end Statement

open Text

theorem Grammar.Covering.tiles {src : List Char} {lo hi : Nat} {ss : List Statement}
    (h : Covering src lo ss hi) :
    ∃ spans, ss.map Statement.place? = spans.map some ∧ Tiles lo spans hi := by
  induction h with
  | nil n => exact ⟨[], rfl, rfl⟩
  | @text lo stop hi rest hlt _ _ ih =>
    obtain ⟨spans, hplaces, htiles⟩ := ih
    have hplace : (Statement.verbatim (.ofSpan ⟨lo, stop⟩)).place? = some ⟨lo, stop⟩ := rfl
    exact ⟨⟨lo, stop⟩ :: spans, by simp [hplaces, hplace], rfl, hlt, htiles⟩
  | @item lo stop hi st rest hlt _ hspan _ _ ih =>
    obtain ⟨spans, hplaces, htiles⟩ := ih
    have hplace : st.place? = some ⟨lo, stop⟩ := by
      cases st with
      | importFrom | exportAll | exportNamed | exportDecl | exportDefault => exact hspan
      | _ => cases hspan
    exact ⟨⟨lo, stop⟩ :: spans, by simp [hplaces, hplace], rfl, hlt, htiles⟩

namespace CommonJs

/-! ## Statements that are left alone -/

theorem translate_leftAlone {st : Statement} (h : st.isLeftAlone = true) (c : Carry) :
    translate c st = ([st], c) ∧ localExports st = [] ∧ defaultNames st = [] := by
  unfold Statement.isLeftAlone Statement.isVerbatim Statement.isDynamic at h
  split at h
  · exact ⟨rfl, rfl, rfl⟩
  · rw [Bool.false_or] at h
    split at h
    · rename_i specifiers _ _
      cases specifiers <;> exact ⟨rfl, rfl, rfl⟩
    · exact ⟨rfl, rfl, rfl⟩
    · exact ⟨rfl, rfl, rfl⟩
    · cases h

theorem translateAll_leftAlone {ss : List Statement} (h : ∀ st ∈ ss, st.isLeftAlone = true)
    (c : Carry) : translateAll c ss = (ss, c) := by
  induction ss with
  | nil => rfl
  | cons st rest ih =>
    obtain ⟨hst, hrest⟩ := List.forall_mem_cons.1 h
    simp [translateAll, (translate_leftAlone hst c).1, ih hrest]

theorem moduleImage_leftAlone {ss : List Statement} (h : ∀ st ∈ ss, st.isLeftAlone = true)
    (names : Names) : moduleImage names ss = ss := by
  have hlocal : ss.flatMap localExports = [] :=
    List.flatMap_eq_nil_iff.2 fun st hst => (translate_leftAlone (h st hst) { names }).2.1
  simp [moduleImage, translateAll_leftAlone h, hlocal]

theorem lower_leftAlone {p : Program} {ss : List Statement} (hp : p.Lists ss)
    (h : ∀ st ∈ ss, st.isLeftAlone = true) (hk : ∀ st ∈ ss, st.KeywordInside)
    (tokens : List Token) : (lower tokens p).Lists ss := by
  have hnone : ss.flatMap defaultNames = [] :=
    List.flatMap_eq_nil_iff.2 fun st hst => (translate_leftAlone (h st hst) { names := {} }).2.2
  obtain ⟨qs, hqs, rfl⟩ := lower_lists (P := (· = ss)) hp hk tokens (moduleImage_leftAlone h _)
    fun _ _ hname => by simp [hnone] at hname
  exact hqs

/-! ## Sources -/

/-- **The statements that were read tile the source.** Hence the program prints as the source. If it
holds nothing but texts and items without a literal source, so does its CommonJS form. -/
theorem parse_tiles {source : String} {p : Program} (h : Grammar.parse source = .ok p) :
    (∃ spans, p.statements.map Statement.place? = spans.map some ∧
      Tiles 0 spans (byteLength source.toList)) ∧
    p.generate? source.toList = some source.toList ∧
    ((∀ st ∈ p.statements, st.isVerbatim = false → st.isDynamic = true) →
      ofSource source = .ok source) := by
  obtain ⟨ss, hp, hc⟩ := Grammar.parse_covers h
  rw [hp.statements]
  refine ⟨hc.tiles, hc.generate hp, fun hdyn => ?_⟩
  have halone : ∀ st ∈ ss, st.isLeftAlone = true := by
    intro st hst
    cases hv : st.isVerbatim with
    | true => simp [Statement.isLeftAlone, hv]
    | false => simp [Statement.isLeftAlone, hdyn st hst hv]
  have hl := lower_leftAlone hp halone hc.keywordInside (Token.scan source)
  exact ofSource_eq_ok_iff.2 ⟨p, h, hc.generate hl⟩

/-- A module with items that have no literal source. -/
def dynamicItems : String :=
  "import a from b;\nf(a)\nexport * from c.d;"

theorem parse_tiles_dynamicItems :
    ∃ p, Grammar.parse dynamicItems = .ok p ∧
      (∃ spans, p.statements.map Statement.place? = spans.map some ∧
        Tiles 0 spans (byteLength dynamicItems.toList)) ∧
      p.generate? dynamicItems.toList = some dynamicItems.toList ∧
      ofSource dynamicItems = .ok dynamicItems := by
  have hok : (Grammar.parse dynamicItems).toOption.any
      (fun p => p.statements.all fun st => st.isVerbatim || st.isDynamic) = true := by
    decide +kernel
  obtain ⟨p, hp, hdyn⟩ := exists_ok_of_any hok
  obtain ⟨htiles, htext, hform⟩ := parse_tiles hp
  refine ⟨p, hp, htiles, htext, hform fun st hst hv => ?_⟩
  simpa [hv] using List.all_eq_true.1 hdyn st hst

end CommonJs

end ModuleForge
