import ModuleForge.Proofs.Steady
import ModuleForge.Proofs.Tiling

/-!
# Bringing a module to CommonJS form twice

The only module items in the CommonJS form of a steady module are those that are left alone, so that
it is left as it is the second time. Where a module is not steady, an item may come to light only in
its CommonJS form.

- `ofSource_of_fine`: a text whose items are left alone is its own CommonJS form.
- `ofSource_idempotent`: the second time changes nothing.
- `ofSource_dividedImport`: a module that is not steady.
-/

namespace ModuleForge

open Token (Kind scan)

namespace Grammar

/-- **A text without errors whose items are left alone** is read as statements that the walk passes. -/
theorem parse_of_fine {source : String} (h : FineTokens true (scan source)) :
    ∃ p, parse source = .ok p ∧ ∀ st ∈ p.statements, st.isLeftAlone = true := by
  have hclean : ∀ t ∈ scan source, t.kind ≠ .error := (Token.ne_error_iff rfl).2 h.clean
  have hl := Token.scan_laid source
  have hlexical : lexicalErrors (scan source) = [] := by
    refine List.filterMap_eq_nil_iff.2 fun t ht => ?_
    rw [if_neg (by simpa using hclean t ht)]
  obtain ⟨newline, hnewline⟩ := Token.exists_restart (scan source)
  have halone := h.items rfl 0 none newline
  rw [hnewline] at halone
  have hitems : (itemsFrom 0 ⟨none, scan source⟩).filterMap Item.error? = [] := by
    refine List.filterMap_eq_nil_iff.2 fun i hi => ?_
    cases i with
    | found => rfl
    | failed e => cases halone _ hi
  have hparse : ∃ stop, parse source =
      .ok (assemble stop 0 (.empty ⟨0, stop⟩) (itemsFrom 0 ⟨none, scan source⟩)) := by
    simp only [parse, parseTokens, withEnd_of_laid hl, hlexical, hitems, List.isEmpty_nil, if_true]
    exact ⟨_, rfl⟩
  obtain ⟨stop, hparse⟩ := hparse
  refine ⟨_, hparse, fun st hst => ?_⟩
  rw [(assemble_lists (Program.lists_empty _) _ 0 _).statements, List.nil_append] at hst
  rcases mem_withGaps hst with ⟨span, rfl⟩ | ⟨start, after, hitem⟩
  · rfl
  · have hdynamic : st.isDynamic = true := halone _ hitem
    simp [Statement.isLeftAlone, hdynamic]

end Grammar

namespace CommonJs

/-- A text whose items are left alone is its own CommonJS form. -/
theorem ofSource_of_fine {source : String} (h : FineTokens true (scan source)) :
    ofSource source = .ok source := by
  obtain ⟨p, hparse, halone⟩ := Grammar.parse_of_fine h
  obtain ⟨ss, hp, hc⟩ := Grammar.parse_covers hparse
  rw [hp.statements] at halone
  exact ofSource_eq_ok_iff.2
    ⟨p, hparse, hc.generate (lower_leftAlone hp halone hc.keywordInside (scan source))⟩

/-- **Bringing a steady module to CommonJS form twice** gives the same as doing so once. -/
theorem ofSource_idempotent {source : String} {p : Program}
    (hparse : Grammar.parse source = .ok p) (hsteady : IsSteady true source p) :
    ∃ code, ofSource source = .ok code ∧ ofSource code = .ok code := by
  obtain ⟨code, hcode, hfine, -⟩ := ofSource_fine hparse hsteady
  exact ⟨code, hcode, ofSource_of_fine hfine⟩

/-- A module with items of several kinds, with a slash behind some of them. The source of one of them
is no string, and the function that is exported by default is assigned to. -/
def slashedItems : String :=
  "import d, \x7b a as b \x7d from \"m\"; /[/]/.test(b)\nimport w from d + \"w\";\n" ++
    "export default function f() \x7b return import(\"n\"); \x7d\nf = w;\n" ++
    "export \x7b d, b as c \x7d;\nexport const x = 1 / 2, y = d"

theorem ofSource_idempotent_slashedItems : ∃ p, Grammar.parse slashedItems = .ok p ∧
    IsSteady true slashedItems p ∧
    ∃ code, ofSource slashedItems = .ok code ∧ ofSource code = .ok code := by
  have hok : (Grammar.parse slashedItems).toOption.any
      (fun p => decide (IsSteady true slashedItems p)) = true := by
    decide +kernel
  obtain ⟨p, hp, hsteady⟩ := exists_ok_of_any hok
  exact ⟨p, hp, of_decide_eq_true hsteady, ofSource_idempotent hp (of_decide_eq_true hsteady)⟩

/-- An import with a regular expression on the next line, which is a division to the reader. -/
def dividedImport : String :=
  "import \"a\"\n/[/]/.test(x);\nexport const y = 1;"

/-- **The second time, an item is found that was hidden in brackets before.** -/
theorem ofSource_dividedImport : ∃ once twice, ofSource dividedImport = .ok once ∧
    ofSource once = .ok twice ∧ twice ≠ once := by
  refine ⟨"require(\"a\");\n/[/]/.test(x);\nexport const y = 1;",
    "require(\"a\");\n/[/]/.test(x);\n" ++
      "Object.defineProperty(exports, \"__esModule\", \x7b value: true \x7d);\n" ++
      "const y = 1;\nexports.y = y;", ?_⟩
  decide +kernel

end CommonJs

end ModuleForge
