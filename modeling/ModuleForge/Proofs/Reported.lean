import ModuleForge.Proofs.PlainNames
import ModuleForge.Proofs.ReadBack
import ModuleForge.Proofs.Tiling
import ModuleForge.Task.Transform

/-!
# The dependencies that are reported

A module that does nothing but load other modules is turned into code whose calls load the same
modules in the same order, whatever is written in the specifiers.

- `translate_loads`: what stands for such a statement is generated code that loads its module.
- `Clean`: generated statements with blanks between them.
- `Clean.readBack`: they are read back as calls for the modules that they load.
- `transform_dependencies`: what is reported are the specifiers of the source, each once.
-/

namespace ModuleForge

open Token Text

/-- The specifier of an import, or of an export from another module, if it is a string. -/
def Statement.loaded? : Statement → Option String
  | importFrom decl => decl.source.literal?
  | exportAll decl => decl.source.literal?
  | exportNamed decl => decl.source.bind ModuleSource.literal?
  | _ => none

/-- A text of the source that is made of blanks and comments. -/
def Statement.IsBlank (src : List Char) (st : Statement) : Prop :=
  ∃ span text, st = .verbatim (.ofSpan span) ∧ span.text? src = some text ∧ Blanks true text

/-! ## Statements with blanks between them -/

/-- Generated code with names that need no escapes. -/
def Statement.IsReadable (st : Statement) : Prop :=
  st.IsGenerated ∧ ∀ n ∈ st.names, isPlain n.toList = true

/-- **Generated statements with blanks between them**; `free` if blanks may come first. -/
inductive Clean (src : List Char) : Bool → List Statement → Prop
  | nil {free : Bool} : Clean src free []
  | blanks {span : Span} {text : List Char} {rest : List Statement} :
      span.text? src = some text → Blanks true text → text ≠ [] → Clean src false rest →
      Clean src true (.verbatim (.ofSpan span) :: rest)
  | generated {free : Bool} {st : Statement} {rest : List Statement} : st.IsReadable →
      Clean src true rest → Clean src free (st :: rest)

section
variable {src : List Char}

theorem Clean.append {gs rest : List Statement} {free : Bool} (h : ∀ st ∈ gs, st.IsReadable)
    (hne : gs ≠ []) (hrest : Clean src true rest) : Clean src free (gs ++ rest) := by
  induction gs generalizing free with
  | nil => exact absurd rfl hne
  | cons st gs ih =>
    obtain ⟨hst, hgs⟩ := List.forall_mem_cons.1 h
    refine .generated hst ?_
    cases gs with
    | nil => exact hrest
    | cons st' gs => exact ih hgs (by simp)

theorem render?_ofSpan (span : Span) (src : List Char) :
    (Fragment.ofSpan span).render? src = span.text? src := by
  simp only [Fragment.render?, Fragment.ofSpan, Fragment.renderPieces?, Piece.render?]
  cases span.text? src <;> simp

theorem placeless_bare : Placeless bare :=
  fun _ => rfl

/-- What is loaded by statements with blanks between them is what is called for in their text. -/
theorem Clean.readBack {free : Bool} {ss : List Statement} (h : Clean src free ss)
    {last : Option Kind} (hdot : last ≠ some .dot) (hquestion : last ≠ some .questionDot) :
    ∃ ts, ReadBack bare src free last ss (ts.map bare) ∧
      Dependency.callsFrom last (ts ++ [endMarker]) = ss.flatMap Statement.loads := by
  induction h generalizing last with
  | nil => exact ⟨[], .nil, by simp [endMarker, Dependency.callsFrom, Dependency.ofToken?]⟩
  | @blanks span text rest htext hblanks hne _ ih =>
    obtain ⟨ts, hread, hcalls⟩ := ih hdot hquestion
    have hprint := (render?_ofSpan span src).trans htext
    exact ⟨ts, .source hprint hne (fun h => by cases h)
      (readsBefore_blanks placeless_bare hblanks last) hread, hcalls⟩
  | @generated free st rest hst _ ih =>
    obtain ⟨hgen, hnames⟩ := hst
    have hkind := st.kindBehind_generated hgen last
    obtain ⟨ts, hread, hcalls⟩ := @ih (st.lexemes.foldl Lexeme.kindBehind last)
      (by rcases hkind with hk | hk <;> rw [hk] <;> decide)
      (by rcases hkind with hk | hk <;> rw [hk] <;> decide)
    refine ⟨Lexeme.spell last st.lexemes ++ ts, ?_, ?_⟩
    · rw [List.map_append]
      exact .synthesized hgen.1 (Statement.print?_generated hgen src)
        (Statement.readsBefore_generated placeless_bare hgen hnames last) hread
    · rw [List.append_assoc, Statement.callsFrom_generated hgen hdot hquestion, hcalls]
      rfl

theorem lexemes_eq_word {st : Statement} (h : st.IsGenerated) :
    ∃ w ls, st.lexemes = .word w :: ls := by
  cases st with
  | require binding source => cases binding <;> exact ⟨_, _, rfl⟩
  | varBinding | exportAllKeys | moduleMarker | interopHelper => exact ⟨_, _, rfl⟩
  | exportAssign exported value =>
    simp only [Statement.lexemes, CommonJs.memberLexemes]
    split <;> exact ⟨_, _, rfl⟩
  | verbatim | importFrom | exportAll | exportNamed | exportDecl | exportDefault => cases h.1
  | declaration => cases h.2

theorem head_of_isReadable {st : Statement} (h : st.IsReadable) (rest : List Char) :
    (Lexeme.text st.lexemes ++ rest).head? ≠ some '#' := by
  obtain ⟨w, ls, hls⟩ := lexemes_eq_word h.1
  have hw : isPlain w.toList = true :=
    Statement.readable_generated h.2 (.word w) (by rw [hls]; exact List.mem_cons_self)
  obtain ⟨c, cs, hcs, hc⟩ := exists_start_of_isPlain hw
  have htext : Lexeme.text st.lexemes = c :: (cs ++ Lexeme.text ls) := by
    simp [hls, Lexeme.text, Lexeme.chars, hcs]
  rw [htext]
  intro hhead
  obtain rfl : c = '#' := Option.some.inj hhead
  revert hc
  decide +kernel

theorem head_of_blanks {text : List Char} (h : Blanks true text) (hne : text ≠ [])
    (rest : List Char) : (text ++ rest).head? ≠ some '#' := by
  intro hhead
  cases h with
  | nil => exact hne rfl
  | blank hc =>
    obtain rfl := Option.some.inj hhead
    revert hc
    decide
  | line | lastLine | block => cases hhead

theorem Clean.head {free : Bool} {ss : List Statement} (h : Clean src free ss)
    {before : Option Char} {text : List Char} (hprint : printFrom? src before ss = some text) :
    text.head? ≠ some '#' := by
  cases h with
  | nil =>
    cases hprint
    simp
  | @blanks span text0 rest htext hblanks hne _ =>
    simp only [printFrom?, Statement.print?, render?_ofSpan, htext, Option.bind_eq_bind,
      Option.bind_some, Statement.isSynthesized, Bool.false_and, Bool.false_eq_true, if_false] at hprint
    obtain ⟨tail, -, htail⟩ := Option.bind_eq_some_iff.1 hprint
    obtain rfl := Option.some.inj htail
    exact head_of_blanks hblanks hne tail
  | @generated free st rest hst _ =>
    simp only [printFrom?, Statement.print?_generated hst.1, Option.bind_eq_bind,
      Option.bind_some] at hprint
    obtain ⟨tail, -, htail⟩ := Option.bind_eq_some_iff.1 hprint
    obtain rfl := Option.some.inj htail
    split
    · simp
    · exact head_of_isReadable hst tail

end

/-! ## What stands for a statement -/

namespace CommonJs

/-- The helper has a name of its own. -/
def Carry.IsNamed (c : Carry) : Prop :=
  ∀ name, c.helper = some name → IsBindingName name

theorem isPlain_name {base : String} (h : IsBindingName base) (c : Carry) :
    isPlain (c.name base).toList = true :=
  isPlain_of_isBindingName (h.fresh c.names)

theorem Carry.IsNamed.helperName {c : Carry} (h : c.IsNamed) : IsBindingName c.helperName := by
  unfold Carry.helperName
  cases hc : c.helper with
  | some name => exact h name hc
  | none => exact isBindingName_helperBase.fresh c.names

theorem Carry.IsNamed.needHelper {c : Carry} (h : c.IsNamed) : c.needHelper.IsNamed := by
  unfold Carry.needHelper
  split
  · exact h
  · intro name hname
    obtain rfl := Option.some.inj hname
    exact h.helperName

theorem isReadable_mark (c : Carry) : ∀ st ∈ c.mark, st.IsReadable := by
  intro st h
  obtain rfl := Carry.eq_of_mem_mark h
  exact ⟨⟨rfl, rfl⟩, by simp [Statement.names]⟩

theorem loads_mark (c : Carry) : c.mark.flatMap Statement.loads = [] := by
  unfold Carry.mark
  split <;> rfl

/-- **What stands for a statement that loads a module**: generated code that loads it. -/
structure Loads (source : String) (image : List Statement) : Prop where
  ne_nil : image ≠ []
  readable : ∀ st ∈ image, st.IsReadable
  loads : image.flatMap Statement.loads = [{ path := source }]

theorem Loads.marked {source : String} {image : List Statement} (h : Loads source image)
    (c : Carry) : Loads source (c.mark ++ image) :=
  ⟨by simp [h.ne_nil], List.forall_mem_append.2 ⟨isReadable_mark c, h.readable⟩,
    by rw [List.flatMap_append, loads_mark, h.loads, List.nil_append]⟩

theorem loads_require {binding source : String} {more : List Statement}
    (hbinding : isPlain binding.toList = true)
    (hmore : ∀ st ∈ more, st.IsReadable ∧ st.loads = []) :
    Loads source (.require (some binding) source :: more) := by
  have hnone : more.flatMap Statement.loads = [] :=
    List.flatMap_eq_nil_iff.2 fun st hst => (hmore st hst).2
  refine ⟨by simp, List.forall_mem_cons.2 ⟨⟨⟨rfl, rfl⟩, ?_⟩, fun st hst => (hmore st hst).1⟩, ?_⟩
  · simpa [Statement.names] using hbinding
  · rw [List.flatMap_cons, hnone]
    rfl

theorem isReadable_bindSpecifier {helper binding : String} {spec : ImportSpecifier}
    (hhelper : isPlain helper.toList = true) (hbinding : isPlain binding.toList = true)
    (hspec : isPlain spec.binding.name.toList = true) :
    (bindSpecifier helper binding spec).IsReadable ∧
      (bindSpecifier helper binding spec).loads = [] := by
  cases spec with
  | default n | «namespace» n | named imported n =>
    refine ⟨⟨⟨rfl, rfl⟩, ?_⟩, rfl⟩
    simp_all [bindSpecifier, Statement.names, Expr.names, ImportSpecifier.binding]

theorem translate_loads {st : Statement} {source : String} (h : st.loaded? = some source)
    (hnames : ∀ decl, st = .importFrom decl →
      ∀ spec ∈ decl.specifiers, isPlain spec.binding.name.toList = true)
    {c : Carry} (hc : c.IsNamed) :
    Loads source (translate c st).1 ∧ (translate c st).2.IsNamed := by
  have hbinding := isPlain_name (isBindingName_bindingBase source) c
  cases st with
  | importFrom decl =>
    obtain ⟨specifiers, literal | _, span⟩ := decl
    · obtain rfl := Option.some.inj h
      cases specifiers with
      | nil =>
        have hrequire : Statement.IsReadable (.require none literal) :=
          ⟨⟨rfl, rfl⟩, by simp [Statement.names]⟩
        exact ⟨⟨by simp [translate], List.forall_mem_singleton.2 hrequire, rfl⟩, hc⟩
      | cons spec specifiers =>
        have hc' : (c.take (bindingBase literal)).IsNamed := hc
        refine ⟨loads_require hbinding (List.forall_mem_map.2 fun spec' hspec => ?_), ?_⟩
        · exact isReadable_bindSpecifier (isPlain_of_isBindingName hc'.helperName) hbinding
            (hnames _ rfl spec' hspec)
        · simp only [translate]
          split
          · exact hc'.needHelper
          · exact hc'
    · cases h
  | exportAll decl =>
    obtain ⟨literal | _, asName, span⟩ := decl
    · obtain rfl := Option.some.inj h
      cases asName with
      | none =>
        have hkeys : Statement.IsReadable (.exportAllKeys (c.name (bindingBase literal))) :=
          ⟨⟨rfl, rfl⟩, by simpa [Statement.names] using hbinding⟩
        exact ⟨(loads_require hbinding (List.forall_mem_singleton.2 ⟨hkeys, rfl⟩)).marked c, hc⟩
      | some name =>
        have hassign : Statement.IsReadable (.exportAssign name.text (.require literal)) :=
          ⟨⟨rfl, rfl⟩, by simp [Statement.names, Expr.names]⟩
        exact ⟨Loads.marked ⟨by simp, List.forall_mem_singleton.2 hassign, rfl⟩ c, hc⟩
    · cases h
  | exportNamed decl =>
    obtain ⟨specifiers, _ | literal | _, span⟩ := decl
    · cases h
    · obtain rfl := Option.some.inj h
      refine ⟨(loads_require hbinding (List.forall_mem_map.2 fun spec _ => ?_)).marked c, hc⟩
      exact ⟨⟨⟨rfl, rfl⟩, by simpa [reexport, Statement.names, Expr.names] using hbinding⟩, rfl⟩
    · cases h
  | _ => cases h

end CommonJs

/-! ## Programs that load modules -/

/-- No two texts of the source are neighbours, and none is empty; `free` if a text may come first. -/
def Alternates : Bool → List Statement → Prop
  | _, [] => True
  | free, .verbatim f :: rest =>
    free = true ∧ (∃ span, f = .ofSpan span ∧ span.start < span.stop) ∧ Alternates false rest
  | _, _ :: rest => Alternates true rest

theorem alternates_gap {start stop : Nat} {rest : List Statement}
    (h : ∀ free, Alternates free rest) : Alternates true (Grammar.gap start stop ++ rest) := by
  unfold Grammar.gap
  split
  · rename_i hlt
    exact ⟨rfl, ⟨_, rfl, hlt⟩, h false⟩
  · exact h true

theorem Grammar.ItemsLaid.alternates {src : List Char} {lo : Nat} {items : List Grammar.Item}
    (h : ItemsLaid src lo items) (stop : Nat) : Alternates true (withGaps stop lo items) := by
  induction h with
  | nil =>
    have := @alternates_gap ‹_› stop [] fun _ => trivial
    rwa [List.append_nil] at this
  | @cons lo start stop st rest _ _ _ _ hspan _ _ ih =>
    refine alternates_gap fun free => ?_
    cases st with
    | importFrom | exportAll | exportNamed | exportDecl | exportDefault => exact ih
    | _ => cases hspan

/-- **The texts between the items of a source** are not empty, and each is followed by an item. -/
theorem Grammar.parse_alternates {source : String} {p : Program} (h : parse source = .ok p) :
    Alternates true p.statements := by
  obtain ⟨hok, hlists⟩ := parse_items h
  rw [hlists.statements]
  exact (itemsFrom_laid 0 _ (.scan source) hok).alternates _

theorem text_ne_nil {src text : List Char} {span : Span} (h : span.text? src = some text)
    (hlt : span.start < span.stop) : text ≠ [] := by
  rintro rfl
  unfold Span.text? slice? at h
  split at h
  · obtain ⟨⟨before, after⟩, -, h⟩ := Option.bind_eq_some_iff.1 h
    obtain ⟨⟨taken, rest⟩, hsplit, rfl⟩ := Option.map_eq_some_iff.1 h
    have := (splitBytes?_eq_some_iff.1 hsplit).2
    simp only [byteLength_nil] at this
    omega
  · cases h

namespace CommonJs

/-- A statement that loads a module, with bindings that need no escapes, or blanks. -/
def OnlyLoads (src : List Char) (st : Statement) : Prop :=
  st.IsBlank src ∨ ∃ source, st.loaded? = some source ∧ ∀ decl, st = .importFrom decl →
      ∀ spec ∈ decl.specifiers, isPlain spec.binding.name.toList = true

theorem localExports_of_loaded {st : Statement} {source : String}
    (h : st.loaded? = some source) : localExports st = [] ∧ defaultNames st = [] := by
  cases st with
  | exportNamed decl =>
    obtain ⟨specifiers, _ | _, span⟩ := decl
    · cases h
    · exact ⟨rfl, rfl⟩
  | exportDefault => cases h
  | _ => exact ⟨rfl, rfl⟩

/-- **What stands for statements that load modules** is generated code with blanks in it, which loads
these modules. -/
theorem translateAll_clean {src : List Char} {free : Bool} {ss : List Statement}
    (h : ∀ st ∈ ss, OnlyLoads src st) (halt : Alternates free ss) {c : Carry} (hc : c.IsNamed) :
    (∀ more, (∀ free, Clean src free more) → Clean src free ((translateAll c ss).1 ++ more)) ∧
      (translateAll c ss).2.IsNamed ∧
      (translateAll c ss).1.flatMap Statement.loads =
        (ss.filterMap Statement.loaded?).map fun source => { path := source } := by
  induction ss generalizing free c with
  | nil => exact ⟨fun more hmore => hmore free, hc, rfl⟩
  | cons st ss ih =>
    obtain ⟨hst, hss⟩ := List.forall_mem_cons.1 h
    rcases hst with ⟨span, text, rfl, htext, hblanks⟩ | ⟨source, hsource, hnames⟩
    · obtain ⟨rfl, ⟨span', hspan, hlt⟩, halt⟩ := halt
      cases hspan
      obtain ⟨hclean, hnamed, hloads⟩ := ih hss halt hc
      refine ⟨fun more hmore => ?_, hnamed, hloads⟩
      exact .blanks htext hblanks (text_ne_nil htext hlt) (hclean more hmore)
    · have halt' : Alternates true ss := by
        cases st with
        | verbatim => cases hsource
        | _ => exact halt
      obtain ⟨himage, hc'⟩ := translate_loads hsource hnames hc
      obtain ⟨hclean, hnamed, hloads⟩ := ih hss halt' hc'
      refine ⟨fun more hmore => ?_, hnamed, ?_⟩
      · simp only [translateAll, List.append_assoc]
        exact .append himage.readable himage.ne_nil (hclean more hmore)
      · simp only [translateAll, List.flatMap_append, himage.loads, hloads, List.filterMap_cons,
          hsource, List.map_cons, List.singleton_append]

theorem moduleImage_clean {src : List Char} {ss : List Statement} (names : Names)
    (h : ∀ st ∈ ss, OnlyLoads src st) (halt : Alternates true ss) :
    Clean src true (moduleImage names ss) ∧
      (moduleImage names ss).flatMap Statement.loads =
        (ss.filterMap Statement.loaded?).map fun source => { path := source } := by
  have hlocal : ss.flatMap localExports = [] := by
    refine List.flatMap_eq_nil_iff.2 fun st hst => ?_
    rcases h st hst with ⟨span, text, rfl, -⟩ | ⟨source, hsource, -⟩
    · rfl
    · exact (localExports_of_loaded hsource).1
  obtain ⟨hclean, hnamed, hloads⟩ := @translateAll_clean src true ss h halt { names } nofun
  have himage : moduleImage names ss = (translateAll { names } ss).1 ++
      (translateAll { names } ss).2.helper.toList.map .interopHelper := by
    simp only [moduleImage, hlocal, List.append_nil]
  have hhelper (name : String) (hname : (translateAll { names } ss).2.helper = some name) :
      Statement.IsReadable (.interopHelper name) :=
    ⟨⟨rfl, rfl⟩, List.forall_mem_singleton.2 (isPlain_of_isBindingName (hnamed name hname))⟩
  rw [himage, List.flatMap_append, hloads]
  cases hc : (translateAll { names } ss).2.helper with
  | none => exact ⟨hclean [] fun _ => .nil, List.append_nil _⟩
  | some name =>
    exact ⟨hclean _ fun _ => .generated (hhelper name hc) .nil, List.append_nil _⟩

/-- **The CommonJS form of a module that loads modules** and does nothing else is read as calls for
these modules. -/
theorem ofSource_loads {source : String} {p : Program} (h : Grammar.parse source = .ok p)
    (hloads : ∀ st ∈ p.statements, OnlyLoads source.toList st) :
    ∃ code, ofSource source = .ok code ∧
      Dependency.callsFrom none (scan code) =
        (p.statements.filterMap Statement.loaded?).map fun source => { path := source } := by
  obtain ⟨ss, hp, hc⟩ := Grammar.parse_covers h
  have halt := Grammar.parse_alternates h
  rw [hp.statements] at hloads halt ⊢
  have hdefaults : ss.flatMap defaultNames = [] := by
    refine List.flatMap_eq_nil_iff.2 fun st hst => ?_
    rcases hloads st hst with ⟨span, text, rfl, -⟩ | ⟨source, hsource, -⟩
    · rfl
    · exact (localExports_of_loaded hsource).2
  obtain ⟨_, hl, rfl⟩ := lower_lists (P := (· = moduleImage (.ofTokens (scan source)) ss)) hp
    hc.keywordInside (scan source) rfl fun _ _ hname => by simp [hdefaults] at hname
  obtain ⟨hclean, hcalls⟩ := moduleImage_clean (.ofTokens (scan source)) hloads halt
  obtain ⟨ts, hread, hts⟩ := hclean.readBack (by simp : (none : Option Kind) ≠ some .dot) (by simp)
  obtain ⟨text, htext, -, htokens⟩ := hread.printFrom placeless_bare none
  refine ⟨String.ofList text, ofSource_eq_ok_iff.2 ⟨p, h, ?_⟩, ?_⟩
  · rw [Program.generate?, hl.statements, String.toList_ofList, htext]
  · have hskip : skipHashbang ⟨0, text⟩ = ⟨0, text⟩ :=
      skipHashbang_of_ne fun tail h => hclean.head htext (by rw [h]; rfl)
    have hall : ts.map bare ++ [endMarker.bare] = (ts ++ [endMarker]).map bare := by
      rw [List.map_append]
      rfl
    rw [scan, String.toList_ofList, hskip, ← Dependency.callsFrom_bare, htokens, hall,
      Dependency.callsFrom_bare, hts, hcalls]

end CommonJs

/-! ## The report -/

theorem Token.Formed.text? {src : List Char} {t : Token} (h : Formed src t) :
    ∃ text, t.span.text? src = some text := by
  cases h with
  | plain _ htext _ _ => exact ⟨_, htext⟩
  | template _ htext _ _ _ => exact ⟨_, htext⟩

/-- Specifiers that are left out as repeated are left out of the dependencies. -/
theorem eraseDups_dependencies (sources : List String) :
    (sources.map fun source => ({ path := source } : Dependency)).eraseDups =
      sources.eraseDups.map fun source => { path := source } := by
  match sources with
  | [] => rfl
  | source :: rest =>
    have hfilter : (rest.map fun source => ({ path := source } : Dependency)).filter
        (fun d => !(d == { path := source })) =
        (rest.filter fun s => !(s == source)).map fun source => { path := source } := by
      rw [List.filter_map]
      congr 1
      refine List.filter_congr fun s _ => ?_
      have hbeq : (({ path := s } : Dependency) == { path := source }) = (s == source) :=
        Bool.eq_iff_iff.2 (by simp)
      exact congrArg (!·) hbeq
    have hlt : (rest.filter fun s => !(s == source)).length < (source :: rest).length :=
      Nat.lt_succ_of_le (List.length_filter_le _ _)
    rw [List.map_cons, List.eraseDups_cons, List.eraseDups_cons, List.map_cons, hfilter,
      eraseDups_dependencies (rest.filter fun s => !(s == source))]
termination_by sources.length
decreasing_by exact hlt

namespace Task

/-- **What is reported are the specifiers of the source**, in order, each once. -/
theorem transform_dependencies {payload : Payload} {p : Program}
    (htarget : payload.target = .legacy) (hparse : Grammar.parse payload.code = .ok p)
    (hstatements : ∀ st ∈ p.statements,
      st.loaded?.isSome = true ∨ st.IsBlank payload.code.toList)
    (hnames : ∀ t ∈ scan payload.code, t.kind = .identifier →
      ∀ text, t.span.text? payload.code.toList = some text → '\\' ∉ text) :
    ∃ code, transform payload = .output
      { code
        dependencies := (p.statements.filterMap Statement.loaded?).eraseDups.map fun source =>
          { path := source, isGlob := false } } := by
  have hloads : ∀ st ∈ p.statements, CommonJs.OnlyLoads payload.code.toList st := by
    intro st hst
    rcases hstatements st hst with hload | hblank
    · obtain ⟨source, hsource⟩ := Option.isSome_iff_exists.1 hload
      refine .inr ⟨source, hsource, ?_⟩
      rintro decl rfl spec hspec
      obtain ⟨t, ht, hk, hvalue⟩ := Grammar.mem_scan_of_binding hparse hst hspec
      obtain ⟨text, htext⟩ := (scan_formed payload.code t ht).text?
      rw [← hvalue]
      exact isPlain_of_mem_scan ht hk htext (hnames t ht hk text htext)
    · exact .inl hblank
  obtain ⟨code, hcode, hcalls⟩ := CommonJs.ofSource_loads hparse hloads
  refine ⟨code, ?_⟩
  have hlegacy : (Target.legacy == Target.modern) = false := rfl
  simp only [transform, hcode, htarget, hlegacy, Bool.false_and, Bool.false_eq_true, if_false,
    Dependency.ofTokens, hcalls, eraseDups_dependencies]

/-- Imports and exports with a comment between them, one module loaded twice, and specifiers with
quotes, marks and a letter that takes two bytes. -/
def loadingModule : String :=
  "import a, \x7bb as c\x7d from './m;\"'; // x\nexport * from 'é/*'\n" ++
    "export \x7bd as \"e f\"\x7d from \"./m;\\\"\";import 'a'"

theorem transform_dependencies_loadingModule :
    ∃ p, Grammar.parse loadingModule = .ok p ∧
      (∀ st ∈ p.statements, st.loaded?.isSome = true ∨ st.IsBlank loadingModule.toList) ∧
      (∀ t ∈ scan loadingModule, t.kind = .identifier →
        ∀ text, t.span.text? loadingModule.toList = some text → '\\' ∉ text) ∧
      ∃ code, transform { code := loadingModule, path := "m.js" } = .output
        { code, dependencies := [{ path := "./m;\"" }, { path := "é/*" }, { path := "a" }] } := by
  have hok : (Grammar.parse loadingModule).toOption.any (fun p =>
      p.statements.all (fun st => st.loaded?.isSome || st == .verbatim (.ofSpan ⟨32, 38⟩) ||
        st == .verbatim (.ofSpan ⟨58, 59⟩)) &&
      (p.statements.filterMap Statement.loaded?).eraseDups == ["./m;\"", "é/*", "a"]) = true := by
    decide +kernel
  obtain ⟨p, hp, hstatements⟩ := exists_ok_of_any hok
  simp only [Bool.and_eq_true, List.all_eq_true, Bool.or_eq_true, beq_iff_eq] at hstatements
  obtain ⟨hall, hloaded⟩ := hstatements
  have hblank : ∀ st ∈ p.statements,
      st.loaded?.isSome = true ∨ st.IsBlank loadingModule.toList := by
    intro st hst
    rcases hall st hst with (hload | rfl) | rfl
    · exact .inl hload
    · have hbody : ∀ d ∈ [' ', 'x'], isLineBreak d = false :=
        List.forall_mem_cons.2 ⟨rfl, List.forall_mem_singleton.2 rfl⟩
      exact .inr ⟨_, [' ', '/', '/', ' ', 'x', '\n'], rfl, by decide +kernel, .blank (.inl rfl)
        (@Blanks.line true [' ', 'x'] '\n' [] hbody rfl (.blank (.inl rfl) .nil))⟩
    · exact .inr ⟨_, ['\n'], rfl, by decide +kernel, .blank (.inl rfl) .nil⟩
  have hnames : ∀ t ∈ scan loadingModule, t.kind = .identifier →
      ∀ text, t.span.text? loadingModule.toList = some text → '\\' ∉ text := by
    intro t ht hk text htext
    have hplain : ∀ t ∈ scan loadingModule, t.kind = .identifier →
        (t.span.text? loadingModule.toList).all (!·.contains '\\') = true := by decide +kernel
    simpa [htext] using hplain t ht hk
  obtain ⟨code, hcode⟩ := @transform_dependencies { code := loadingModule, path := "m.js" } p rfl hp
    hblank hnames
  rw [hloaded] at hcode
  exact ⟨p, hp, hblank, hnames, code, hcode⟩

end Task

end ModuleForge
