import ModuleForge.Proofs.Steady

/-!
# Transformed modules can be read

The code that a task yields for a steady module has no lexical errors, with one exception: where the
strict mode directive is put in front of a line that starts with `#!`, that line is an error.

- `scan_prologue_iff`: what the directive does to the tokens behind it.
- `Task.transform_sound`: the output of a task.
- `Task.transform_scriptModule`: the exception.
-/

namespace ModuleForge

open Token Text

/-! ## The prologue -/

theorem tokensFrom_prologue (text : List Char) :
    ∃ pos, (tokensFrom ⟨none, ⟨0, Task.strictPrologue.toList ++ text⟩⟩).map (·.kind) =
      .string :: .semicolon :: (tokensFrom ⟨some .semicolon, ⟨pos, text⟩⟩).map (·.kind) := by
  let ls : List Lexeme := [.string "use strict", .mark .semicolon]
  have hprologue : Task.strictPrologue.toList = Lexeme.text ls ++ ['\n'] := by decide +kernel
  have htext : Task.strictPrologue.toList ++ text = Lexeme.text ls ++ '\n' :: text := by
    rw [hprologue, List.append_assoc]
    rfl
  refine ⟨0 + byteLength (Lexeme.text ls) + 1, ?_⟩
  rw [htext, ← placeless_kind.map, tokensFrom_lexemes (by decide) (by decide), List.map_append,
    placeless_kind.map, tokensFrom_feed placeless_kind]
  rfl

/-- **A text stays without errors behind the prologue** unless it starts with `#!`. -/
theorem scan_prologue_iff (text : String) :
    (∀ t ∈ scan (Task.strictPrologue ++ text), t.kind ≠ .error) ↔
      (∀ t ∈ scan text, t.kind ≠ .error) ∧ hasHashbang text.toList = false := by
  obtain ⟨pos, hkinds⟩ := tokensFrom_prologue text.toList
  have hskip : skipHashbang ⟨0, Task.strictPrologue.toList ++ text.toList⟩ =
      ⟨0, Task.strictPrologue.toList ++ text.toList⟩ := rfl
  -- Nothing before a text and a semicolon before it come to the same.
  have hclean {last last' : Option Kind} (pos pos' : Nat)
      (hlast : ∀ c, SameBefore c last last')
      (h : ∀ t ∈ tokensFrom ⟨last, ⟨pos, text.toList⟩⟩, t.kind ≠ .error) :
      ∀ t ∈ tokensFrom ⟨last', ⟨pos', text.toList⟩⟩, t.kind ≠ .error :=
    (ne_error_iff (kinds_of_clean h (fun c _ => hlast c) pos')).2 ((ne_error_iff rfl).1 h)
  have hsame : ∀ c, SameBefore c none (some .semicolon) := fun _ => ⟨fun _ => rfl, fun _ => rfl⟩
  have hsame' : ∀ c, SameBefore c (some .semicolon) none := fun _ => ⟨fun _ => rfl, fun _ => rfl⟩
  have hbehind : Kind.error ∉ Kind.string :: .semicolon ::
      (tokensFrom ⟨some .semicolon, ⟨pos, text.toList⟩⟩).map (·.kind) ↔
      ∀ t ∈ tokensFrom ⟨some .semicolon, ⟨pos, text.toList⟩⟩, t.kind ≠ .error := by
    rw [ne_error_iff rfl]
    simp
  rw [scan, String.toList_append, hskip, ne_error_iff hkinds, hbehind]
  constructor
  · intro h
    have hbang : hasHashbang text.toList = false := hasHashbang_of_clean ((ne_error_iff rfl).1 h)
    rw [scan, skipHashbang_of_not hbang]
    exact ⟨hclean pos 0 hsame' h, hbang⟩
  · rintro ⟨h, hbang⟩
    rw [scan, skipHashbang_of_not hbang] at h
    exact hclean 0 pos hsame h

namespace Task

/-- The prologue is put in front of the code. -/
def addsPrologue (payload : Payload) (code : String) : Bool :=
  payload.target == .modern && payload.settings.strictMode && !isStrict code

theorem transform_eq_output {payload : Payload} {code : String}
    (hcode : CommonJs.ofSource payload.code = .ok code) :
    ∃ output, transform payload = .output output ∧
      output.code = if addsPrologue payload code then strictPrologue ++ code else code := by
  simp only [transform, hcode]
  exact ⟨_, rfl, rfl⟩

/-- **The prologue does no harm** but to a module that starts with `#!`. -/
theorem transform_clean_iff {payload : Payload} {code : String}
    (hcode : CommonJs.ofSource payload.code = .ok code) :
    ∃ output, transform payload = .output output ∧
      ((∀ t ∈ scan output.code, t.kind ≠ .error) ↔
        (∀ t ∈ scan code, t.kind ≠ .error) ∧
          ¬ (addsPrologue payload code = true ∧ hasHashbang code.toList = true)) := by
  obtain ⟨output, htransform, houtput⟩ := transform_eq_output hcode
  refine ⟨output, htransform, ?_⟩
  rw [houtput]
  cases hadds : addsPrologue payload code with
  | false => simp
  | true =>
    rw [if_pos rfl, scan_prologue_iff]
    simp

/-- **The output of a task on a steady module has no lexical errors**, unless the prologue is put in
front of a line that starts with `#!`. -/
theorem transform_sound {payload : Payload} {p : Program}
    (hparse : Grammar.parse payload.code = .ok p)
    (hsteady : CommonJs.IsSteady false payload.code p) :
    ∃ code output, CommonJs.ofSource payload.code = .ok code ∧ transform payload = .output output ∧
      ((∀ t ∈ scan output.code, t.kind ≠ .error) ↔
        ¬ (addsPrologue payload code = true ∧ hasHashbang payload.code.toList = true)) := by
  obtain ⟨code, hcode, hfine, hbang⟩ := CommonJs.ofSource_fine hparse hsteady
  obtain ⟨output, houtput, hiff⟩ := transform_clean_iff hcode
  have hclean : ∀ t ∈ scan code, t.kind ≠ .error := (ne_error_iff rfl).2 hfine.clean
  rw [hbang] at hiff
  exact ⟨code, output, hcode, houtput, hiff.trans (and_iff_right hclean)⟩

/-- A module with items of several kinds and a regular expression, whose default export is assigned
to. -/
def mixedModule : Payload :=
  { code := "#!/usr/bin/env node\nimport d, { a as b } from \"m\";\n" ++
      "export default function f() \x7b return /[/]/.test(b); \x7d\nf = d;\n" ++
      "export \x7b d, b as c \x7d;\n" ++
      "export const x = 1 / 2, y = d"
    path := "m.js"
    settings := { strictMode := false }
    target := .modern }

theorem transform_sound_mixedModule : ∃ p, Grammar.parse mixedModule.code = .ok p ∧
    CommonJs.IsSteady false mixedModule.code p ∧
    ∃ output, transform mixedModule = .output output ∧ ∀ t ∈ scan output.code, t.kind ≠ .error := by
  have hok : (Grammar.parse mixedModule.code).toOption.any
      (fun p => decide (CommonJs.IsSteady false mixedModule.code p)) = true := by
    decide +kernel
  obtain ⟨p, hp, hsteady⟩ := exists_ok_of_any hok
  obtain ⟨code, output, -, houtput, hiff⟩ := transform_sound hp (of_decide_eq_true hsteady)
  refine ⟨p, hp, of_decide_eq_true hsteady, output, houtput, hiff.2 ?_⟩
  rintro ⟨hadds, -⟩
  cases hadds

/-- A module that starts with `#!`. -/
def scriptModule : Payload :=
  { code := "#!/usr/bin/env node\nfoo();", path := "m.js", target := .modern }

/-- **The prologue in front of a first line with `#!`** makes it an error. -/
theorem transform_scriptModule : ∃ output, transform scriptModule = .output output ∧
    (scan scriptModule.code).all (·.kind != .error) = true ∧
    (scan output.code).any (·.kind == .error) = true := by
  have hcode : CommonJs.ofSource scriptModule.code = .ok scriptModule.code := by decide +kernel
  have hadds : addsPrologue scriptModule scriptModule.code = true := by decide +kernel
  let code := strictPrologue ++ scriptModule.code
  refine ⟨{ code, dependencies := Dependency.ofTokens (scan code) }, ?_, ?_, ?_⟩
  · unfold addsPrologue at hadds
    simp only [transform, hcode, hadds, if_true, code]
  · decide +kernel
  · decide +kernel

end Task

end ModuleForge
