import ModuleForge.Proofs.FreshNames
import ModuleForge.Proofs.KeptSource

/-!
# The bindings that the CommonJS form adds

Required modules, default exports without name and the helper get names of their own. None of them
captures a name of the source, and none of them is given out twice.

- `mem_identifierNames`: the identifiers of a source are taken, also those inside template literals.
- `translate_introduces`: the names that the translation of a statement introduces are given out,
  one after another.
- `moduleImage_introduced`: hence the names of all new bindings are different and free.
-/

namespace ModuleForge

open Token (Kind)

/-! ## The identifiers of a source -/

/-- A token of a list, or a token inside of a template literal of the list, at any depth. -/
inductive Token.Within (t : Token) : List Token → Prop
  | here {tokens : List Token} : t ∈ tokens → Within t tokens
  | inside {outer : Token} {tokens : List Token} : outer ∈ tokens →
      Within t outer.substitutions → Within t tokens

namespace CommonJs

theorem identifierNames_cons (t : Token) (rest : List Token) :
    identifierNames (t :: rest) = (if t.kind == .identifier then [t.value] else []) ++
      identifierNames t.substitutions ++ identifierNames rest := by
  obtain ⟨kind, span, value, newlineBefore, substitutions⟩ := t
  rw [identifierNames]

theorem identifierNames_of_mem {t : Token} {tokens : List Token} (h : t ∈ tokens) :
    (if t.kind == .identifier then [t.value] else []) ++ identifierNames t.substitutions ⊆
      identifierNames tokens := by
  induction tokens with
  | nil => cases h
  | cons u rest ih =>
    rw [identifierNames_cons]
    rcases List.mem_cons.1 h with rfl | h
    · exact List.subset_append_left _ _
    · exact List.subset_append_of_subset_right _ (ih h)

/-- **The identifiers of a source are taken**, also those inside template literals. -/
theorem mem_identifierNames {t : Token} {tokens : List Token} (h : t.Within tokens)
    (hk : t.kind = .identifier) : t.value ∈ identifierNames tokens := by
  induction h with
  | here hmem => exact identifierNames_of_mem hmem (by simp [hk])
  | inside hmem _ ih => exact identifierNames_of_mem hmem (List.mem_append_right _ ih)

end CommonJs

/-! ## Names that statements introduce -/

/-- The name in a text that stands behind a keyword. -/
def nameBehindKeyword? (text : String) : Option String :=
  match text.toList with
  | ' ' :: name => some (String.ofList name)
  | _ => none

/-- The names that a statement binds and the source does not: of a required module, of a default
export without name, and of the helper. -/
def Statement.introduced : Statement → List String
  | require (some binding) _ => [binding]
  | varBinding name (.source _) => [name]
  | declaration _ text => text.texts.filterMap fun x => nameBehindKeyword? x.2
  | interopHelper name => [name]
  | _ => []

namespace CommonJs

open Reassignment (exportPrefix)

theorem introduced_insertText {s s' : Statement} {offset : Nat}
    (h : s.insertText? offset exportPrefix = some s') : s'.introduced = s.introduced := by
  obtain ⟨f, f', hf, hins, rfl⟩ := Statement.insertText?_eq_some h
  unfold Statement.fragment? at hf
  split at hf
  · rfl
  · rename_i kind text
    obtain rfl := Option.some.inj hf
    obtain ⟨-, xs, ys, hxs, hys⟩ := Fragment.insertAt?_spec hins
    have hnone : nameBehindKeyword? exportPrefix = none := by decide
    simp [Statement.withFragment, Statement.introduced, hxs, hys, hnone]
  · rfl
  · rfl
  · cases hf

/-! ## Base names -/

theorem isBindingName_append {s : String} (h : s.toList.all keptInName = true) :
    IsBindingName (bindingPrefix ++ s) := by
  have hprefix : bindingPrefix.toList = '$' :: "kiln__".toList := by decide
  have hkept : "kiln__".toList.all keptInName = true := by decide
  refine ⟨?_, ?_⟩
  · simp only [isIdentifierName, String.toList_append, hprefix, List.cons_append]
    have hall : ("kiln__".toList ++ s.toList).all keptInName = true := by
      rw [List.all_append, hkept, h]
      rfl
    simpa [keptInName] using hall
  · rw [String.toList_append]
    exact List.prefix_append _ _

theorem isBindingName_bindingBase (specifier : String) : IsBindingName (bindingBase specifier) := by
  refine isBindingName_append ?_
  rw [String.toList_ofList, List.all_filter]
  simp

theorem isBindingName_helperBase : IsBindingName Carry.helperBase :=
  isBindingName_append (by decide)

theorem isBindingName_defaultBase : IsBindingName defaultBase :=
  isBindingName_append (by decide)

/-! ## The walk -/

/-- The statements `image` introduce the names that are given out between two stages of the walk.
The helper is named when it is first needed, and introduced at the end. -/
def Introduces (c : Carry) (image : List Statement) (c' : Carry) : Prop :=
  ∃ names, GivesOut c.names names c'.names ∧
    (names ++ c.helper.toList).Perm (image.flatMap Statement.introduced ++ c'.helper.toList)

namespace Introduces

variable {c c' c'' : Carry} {image image' : List Statement}

theorem none (hn : c'.names = c.names) (hh : c'.helper = c.helper)
    (hi : image.flatMap Statement.introduced = []) : Introduces c image c' := by
  refine ⟨[], ?_, ?_⟩
  · rw [hn]
    exact .nil _
  · rw [hi, hh]

theorem one {base : String} (hb : IsBindingName base) (hn : c'.names = (c.take base).names)
    (hh : c'.helper = c.helper) (hi : image.flatMap Statement.introduced = [c.name base]) :
    Introduces c image c' := by
  refine ⟨[c.name base], ?_, ?_⟩
  · rw [hn]
    exact .single hb _
  · rw [hi, hh]

open scoped List in
theorem append (h : Introduces c image c') (h' : Introduces c' image' c'') :
    Introduces c (image ++ image') c'' := by
  obtain ⟨names, hg, hp⟩ := h
  obtain ⟨names', hg', hp'⟩ := h'
  refine ⟨names ++ names', hg.append hg', ?_⟩
  rw [List.append_assoc, List.flatMap_append, List.append_assoc]
  calc names ++ (names' ++ c.helper.toList)
      _ ~ names' ++ (names ++ c.helper.toList) := List.perm_append_comm_assoc _ _ _
      _ ~ names' ++ (image.flatMap Statement.introduced ++ c'.helper.toList) := hp.append_left _
      _ ~ image.flatMap Statement.introduced ++ (names' ++ c'.helper.toList) :=
        List.perm_append_comm_assoc _ _ _
      _ ~ image.flatMap Statement.introduced ++
          (image'.flatMap Statement.introduced ++ c''.helper.toList) := hp'.append_left _

end Introduces

theorem needHelper_introduces (c : Carry) : Introduces c [] c.needHelper := by
  obtain ⟨names, marked, helper⟩ := c
  cases helper with
  | some name => exact .none rfl rfl rfl
  | none => exact ⟨_, .single isBindingName_helperBase names, by simp [Carry.needHelper]; rfl⟩

@[simp]
theorem introduced_mark (c : Carry) : c.mark.flatMap Statement.introduced = [] := by
  unfold Carry.mark
  split <;> rfl

@[simp]
theorem introduced_require (binding source : String) :
    (Statement.require (some binding) source).introduced = [binding] := rfl

@[simp]
theorem introduced_exportAssign (exported : String) (value : Expr) :
    (Statement.exportAssign exported value).introduced = [] := rfl

@[simp]
theorem introduced_ofSpan (kind : DeclKind) (span : Span) :
    (Statement.declaration kind (.ofSpan span)).introduced = [] := rfl

@[simp]
theorem introduced_namedText (kind : DeclKind) (decl : Span) (keywordEnd : Nat) (name : String) :
    (Statement.declaration kind (namedText decl keywordEnd name)).introduced = [name] := by
  have hname : nameBehindKeyword? (" " ++ name) = some name := by
    simp [nameBehindKeyword?, String.toList_append]
  simp [Statement.introduced, (namedText_spec decl keywordEnd name).2, hname]

@[simp]
theorem introduced_bindSpecifier (helper binding : String) (spec : ImportSpecifier) :
    (bindSpecifier helper binding spec).introduced = [] := by
  cases spec <;> rfl

theorem import_introduces (decl : ImportDecl) (c : Carry) :
    Introduces c (translate c (.importFrom decl)).1 (translate c (.importFrom decl)).2 := by
  obtain ⟨specifiers, source, span⟩ := decl
  cases source with
  | dynamic => cases specifiers <;> exact .none rfl rfl rfl
  | literal source =>
    cases specifiers with
    | nil => exact .none rfl rfl rfl
    | cons spec specifiers =>
      have hrequire : Introduces c
          (translate c (.importFrom ⟨spec :: specifiers, .literal source, span⟩)).1
          (c.take (bindingBase source)) :=
        .one (isBindingName_bindingBase source) rfl rfl
          (by simp [translate, List.flatMap_map])
      simp only [translate] at hrequire ⊢
      split
      · simpa using hrequire.append (needHelper_introduces _)
      · exact hrequire

theorem exportDefault_introduces (decl : ExportDefault) (c : Carry) :
    Introduces c (translate c (.exportDefault decl)).1 (translate c (.exportDefault decl)).2 := by
  cases decl with
  | expr expr span =>
    exact .one isBindingName_defaultBase rfl rfl
      (by simp [translate, exportAsDefault, Statement.introduced])
  | decl kind name decl keywordEnd span =>
    cases name with
    | some name =>
      cases kind <;> exact .none rfl rfl (by simp [translate, exportAsDefault])
    | none =>
      cases kind <;>
        exact .one isBindingName_defaultBase rfl rfl (by simp [translate, exportAsDefault])

/-- **The names that the translation of a statement introduces are given out**, one after
another. -/
theorem translate_introduces {st : Statement} (h : st.IsParsed) (c : Carry) :
    Introduces c (translate c st).1 (translate c st).2 := by
  rcases h with ⟨span, rfl⟩ | ⟨span, h⟩
  · exact .none rfl rfl rfl
  cases st with
  | importFrom decl => exact import_introduces decl c
  | exportAll decl =>
    obtain ⟨source, asName, span⟩ := decl
    cases source with
    | dynamic => exact .none rfl rfl rfl
    | literal source =>
      cases asName with
      | some name => exact .none rfl rfl (by simp [translate])
      | none =>
        exact .one (isBindingName_bindingBase source) rfl rfl
          (by simp [translate, Statement.introduced])
  | exportNamed decl =>
    obtain ⟨specifiers, source, span⟩ := decl
    cases source with
    | none => exact .none rfl rfl (introduced_mark c)
    | some source =>
      cases source with
      | dynamic => exact .none rfl rfl rfl
      | literal source =>
        exact .one (isBindingName_bindingBase source) rfl rfl
          (by simp [translate, reexport, Statement.introduced, List.flatMap_map])
  | exportDecl decl => exact .none rfl rfl (by simp [translate, List.flatMap_map])
  | exportDefault decl => exact exportDefault_introduces decl c
  | _ => cases h

theorem translateAll_introduces {ss : List Statement} (h : ∀ st ∈ ss, st.IsParsed) (c : Carry) :
    Introduces c (translateAll c ss).1 (translateAll c ss).2 := by
  induction ss generalizing c with
  | nil => exact .none rfl rfl rfl
  | cons st rest ih =>
    obtain ⟨hst, hrest⟩ := List.forall_mem_cons.1 h
    exact (translate_introduces hst c).append (ih hrest _)

theorem introduced_localExports (st : Statement) :
    (localExports st).flatMap Statement.introduced = [] := by
  unfold localExports
  split
  · simp [exportLocal, List.flatMap_map]
  · rfl

/-- **The names of all new bindings** are different, start as they have to, and are not taken. -/
theorem moduleImage_introduced {ss : List Statement} (h : ∀ st ∈ ss, st.IsParsed) (names : Names) :
    ((moduleImage names ss).flatMap Statement.introduced).Nodup ∧
      ∀ name ∈ (moduleImage names ss).flatMap Statement.introduced,
        IsBindingName name ∧ name ∉ names.used := by
  obtain ⟨given, hgiven, hperm⟩ := translateAll_introduces h { names }
  obtain ⟨hnodup, hspec⟩ := hgiven.spec
  have hlocal : (ss.flatMap localExports).flatMap Statement.introduced = [] := by
    simp [List.flatMap_assoc, introduced_localExports]
  have himage : (moduleImage names ss).flatMap Statement.introduced =
      (translateAll { names } ss).1.flatMap Statement.introduced ++
        (translateAll { names } ss).2.helper.toList := by
    simp only [moduleImage, List.flatMap_append, hlocal, List.append_nil]
    cases (translateAll { names } ss).2.helper <;> rfl
  rw [← himage, Option.toList_none, List.append_nil] at hperm
  exact ⟨hperm.nodup_iff.1 hnodup, fun name hname => hspec name (hperm.mem_iff.2 hname)⟩

/-! ## Sources -/

/-- **New bindings capture no name**: in the CommonJS form of a source they are different from each
other, start as they have to, and none of them is an identifier of the source. This rests on the law
of the names, which holds behind every sequence of calls. -/
theorem ofSource_newBindings {source text : String} (h : ofSource source = .ok text) :
    (∃ p, Grammar.parse source = .ok p ∧
      (lower (Token.scan source) p).generate? source.toList = some text.toList ∧
      ((lower (Token.scan source) p).statements.flatMap Statement.introduced).Nodup ∧
      ∀ name ∈ (lower (Token.scan source) p).statements.flatMap Statement.introduced,
        isIdentifierName name = true ∧ bindingPrefix.toList <+: name.toList ∧
        ∀ t : Token, t.Within (Token.scan source) → t.kind = .identifier → t.value ≠ name) ∧
    ∀ (n : Names) (calls : List Names.Call),
      (∀ name ∈ n.used ++ (n.run calls).1, (n.run calls).2.isUsed name = true) ∧
      ∀ c base, Names.Call.base? c = some base →
        ∃ k, ((n.run calls).2.call c).1 = Names.padded base k ∧
          (n.run calls).2.isUsed (Names.padded base k) = false ∧
          ∀ j < k, (n.run calls).2.isUsed (Names.padded base j) = true := by
  refine ⟨?_, Names.run_spec⟩
  obtain ⟨p, hp, htext⟩ := ofSource_eq_ok_iff.1 h
  obtain ⟨ss, hss, hc⟩ := Grammar.parse_covers hp
  obtain ⟨lowered, hlists, hlowered⟩ := lower_lists
    (P := fun qs => qs.flatMap Statement.introduced =
      (moduleImage (.ofTokens (Token.scan source)) ss).flatMap Statement.introduced)
    hss hc.keywordInside (Token.scan source) rfl
    fun _ _ _ hs hq => by simpa [introduced_insertText hs] using hq
  obtain ⟨hnodup, hspec⟩ := moduleImage_introduced hc.isParsed (.ofTokens (Token.scan source))
  rw [← hlowered, ← hlists.statements] at hnodup hspec
  refine ⟨p, hp, htext, hnodup, fun name hname => ?_⟩
  obtain ⟨⟨hident, hprefix⟩, hfree⟩ := hspec name hname
  refine ⟨hident, hprefix, fun t ht hk hvalue => hfree ?_⟩
  rw [← hvalue]
  exact mem_identifierNames ht hk

/-- A module that needs the helper, names a default class, and uses a name that a required module
would get, inside of two template literals. -/
def nestedName : String :=
  "import a from './x.js';\n`$\x7b`$\x7b$kiln__x\x7d`\x7d`;\nexport default class \x7b\x7d"

theorem ofSource_newBindings_nestedName :
    ∃ text, ofSource nestedName = .ok text ∧
      ∃ p, Grammar.parse nestedName = .ok p ∧
        (lower (Token.scan nestedName) p).generate? nestedName.toList = some text.toList ∧
        ((lower (Token.scan nestedName) p).statements.flatMap Statement.introduced).Nodup ∧
        ∀ name ∈ (lower (Token.scan nestedName) p).statements.flatMap Statement.introduced,
          isIdentifierName name = true ∧ bindingPrefix.toList <+: name.toList ∧
          ∀ t : Token, t.Within (Token.scan nestedName) → t.kind = .identifier →
            t.value ≠ name := by
  have hok : (ofSource nestedName).toOption.any (fun _ => true) = true := by decide +kernel
  obtain ⟨text, htext, -⟩ := exists_ok_of_any hok
  exact ⟨text, htext, (ofSource_newBindings htext).1⟩

end CommonJs

end ModuleForge
